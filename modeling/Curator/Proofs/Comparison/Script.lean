import Curator.Comparison.Region

/-! # What scripts lead from and to

The script that is found for two sequences takes the one and makes the other, wherever they are
split. Scripts agree if they take the same and make the same; every move of a step leaves a script
that agrees with the one before, and so does compacting it. The regions of a script have its tokens
on both sides.
-/

namespace Curator

namespace Snake

variable {α : Type} [BEq α] [LawfulBEq α]

theorem take_commonPrefix (as bs : List α) :
    as.take (commonPrefix as bs) = bs.take (commonPrefix as bs) := by
  fun_induction commonPrefix as bs with
  | case1 a as b bs heq ih => rw [List.take_succ_cons, List.take_succ_cons, ih, eq_of_beq heq]
  | case2 => rfl
  | case3 => rfl

theorem drop_commonSuffix (as bs : List α) :
    as.drop (as.length - commonSuffix as bs) = bs.drop (bs.length - commonSuffix as bs) := by
  have hreverse := take_commonPrefix as.reverse bs.reverse
  rw [List.take_reverse, List.take_reverse] at hreverse
  exact List.reverse_inj.mp hreverse

end Snake

namespace Script

variable {α : Type} {s s' t t' : Script α} {old new old' new' : List α}

@[simp] theorem old_nil : Script.old ([] : Script α) = [] := rfl

@[simp] theorem new_nil : Script.new ([] : Script α) = [] := rfl

@[simp] theorem old_cons (e : Edit α) (rest : Script α) :
    Script.old (e :: rest) = e.oldTokens ++ Script.old rest := List.flatMap_cons

@[simp] theorem new_cons (e : Edit α) (rest : Script α) :
    Script.new (e :: rest) = e.newTokens ++ Script.new rest := List.flatMap_cons

@[simp] theorem old_append (s t : Script α) : Script.old (s ++ t) = Script.old s ++ Script.old t :=
  List.flatMap_append

@[simp] theorem new_append (s t : Script α) : Script.new (s ++ t) = Script.new s ++ Script.new t :=
  List.flatMap_append

/-! ## Finding a script -/

/-- The script takes the one sequence and makes the other. -/
def Leads (script : Script α) (old new : List α) : Prop := script.old = old ∧ script.new = new

theorem Leads.append (h : Leads s old new) (h' : Leads t old' new') :
    Leads (s ++ t) (old ++ old') (new ++ new') :=
  ⟨by rw [old_append, h.1, h'.1], by rw [new_append, h.2, h'.2]⟩

theorem leads_keeping (ts : List α) : Leads (keeping ts) ts ts := by
  cases ts with
  | nil => exact ⟨rfl, rfl⟩
  | cons t rest => exact ⟨List.append_nil _, List.append_nil _⟩

theorem leads_delete (ts : List α) (newAt : Nat) : Leads [.delete ts newAt] ts [] :=
  ⟨List.append_nil _, rfl⟩

theorem leads_insert (ts : List α) (oldAt : Nat) : Leads [.insert ts oldAt] [] ts :=
  ⟨rfl, List.append_nil _⟩

theorem leads_replace (old new : List α) (newAt oldAt : Nat) :
    Leads [.delete old newAt, .insert new oldAt] old new := by
  have hboth := (leads_delete old newAt).append (leads_insert new oldAt)
  rwa [List.append_nil, List.nil_append] at hboth

section Find

variable [BEq α] [LawfulBEq α]

theorem leads_findFrom (fuel oldAt newAt : Nat) (old new : List α) :
    Leads (findFrom fuel oldAt newAt old new) old new := by
  induction fuel generalizing oldAt newAt old new with
  | zero => exact leads_replace old new newAt _
  | succ fuel ih =>
      unfold findFrom
      extract_lets front oldRest newRest back oldInner newInner oldStart newStart inner
      have hfront : old.take front = new.take front := Snake.take_commonPrefix old new
      have hback : oldRest.drop (oldRest.length - back) = newRest.drop (newRest.length - back) :=
        Snake.drop_commonSuffix oldRest newRest
      have hinner : Leads inner oldInner newInner := by
        simp only [inner]
        split
        · next hempty =>
            rw [Bool.and_eq_true, List.isEmpty_iff, List.isEmpty_iff] at hempty
            exact ⟨hempty.1.symm, hempty.2.symm⟩
        · split
          · next hempty =>
              rw [List.isEmpty_iff.mp hempty]
              exact leads_delete oldInner newStart
          · split
            · next hempty =>
                rw [List.isEmpty_iff.mp hempty]
                exact leads_insert newInner oldStart
            · split
              · next x y _ =>
                  have hsplit := (ih oldStart newStart (oldInner.take x) (newInner.take y)).append
                    (ih (oldStart + x) (newStart + y) (oldInner.drop x) (newInner.drop y))
                  rwa [List.take_append_drop, List.take_append_drop] at hsplit
              · exact leads_replace oldInner newInner newStart _
      have hall := ((leads_keeping (old.take front)).append hinner).append
        (leads_keeping (oldRest.drop (oldRest.length - back)))
      have hold : old.take front ++ oldInner ++ oldRest.drop (oldRest.length - back) = old := by
        rw [List.append_assoc, List.take_append_drop, List.take_append_drop]
      have hnew : old.take front ++ newInner ++ oldRest.drop (oldRest.length - back) = new := by
        rw [hfront, hback, List.append_assoc, List.take_append_drop, List.take_append_drop]
      rwa [hold, hnew] at hall

theorem leads_find (old new : List α) : Leads (find old new) old new := leads_findFrom ..

end Find

/-! ## Moving steps -/

/-- The scripts take the same sequence and make the same. -/
def Agrees (s t : Script α) : Prop := s.old = t.old ∧ s.new = t.new

theorem Agrees.refl (s : Script α) : Agrees s s := ⟨rfl, rfl⟩

theorem Agrees.symm (h : Agrees s t) : Agrees t s := ⟨h.1.symm, h.2.symm⟩

theorem Agrees.trans (h : Agrees s t) (h' : Agrees t s') : Agrees s s' :=
  ⟨h.1.trans h'.1, h.2.trans h'.2⟩

theorem Agrees.append (h : Agrees s s') (h' : Agrees t t') : Agrees (s ++ t) (s' ++ t') :=
  ⟨by rw [old_append, old_append, h.1, h'.1], by rw [new_append, new_append, h.2, h'.2]⟩

/-- Steps in the midst of a script can be exchanged for others. -/
theorem Agrees.amid (h : Agrees s t) (before after : Script α) :
    Agrees (before.reverse ++ s ++ after) (before.reverse ++ t ++ after) :=
  ((Agrees.refl _).append h).append (.refl _)

theorem agrees_swap (us ts : List α) (newAt oldAt : Nat) :
    Agrees [.delete us newAt, .insert ts oldAt] [.insert ts oldAt, .delete us newAt] := by
  simp [Agrees, Edit.oldTokens, Edit.newTokens]

theorem agrees_insert_append (us ts : List α) (oldAt other last : Nat) :
    Agrees [.insert (us ++ ts) oldAt] [.insert us other, .insert ts last] := by
  simp [Agrees, Edit.oldTokens, Edit.newTokens]

theorem agrees_delete_append (us ts : List α) (newAt other last : Nat) :
    Agrees [.delete (us ++ ts) newAt] [.delete us other, .delete ts last] := by
  simp [Agrees, Edit.oldTokens, Edit.newTokens]

theorem agrees_keep_nil (s : Script α) : Agrees (.keep [] :: s) s := ⟨rfl, rfl⟩

theorem agrees_keepFirst (ts : List α) (after : Script α) :
    Agrees (keepFirst ts after) (.keep ts :: after) := by
  unfold keepFirst
  split
  · simp [Agrees, Edit.oldTokens, Edit.newTokens]
  · exact .refl _

theorem agrees_keepLast (ts : List α) (before : Script α) :
    Agrees (keepLast ts before).reverse (before.reverse ++ [.keep ts]) := by
  unfold keepLast
  split
  · simp [Agrees, Edit.oldTokens, Edit.newTokens]
  · rw [List.reverse_cons]
    exact .refl _

def Focus.script (f : Focus α) : Script α := f.before.reverse ++ f.here :: f.after

section Compaction

variable [BEq α] [LawfulBEq α]

theorem repetition_le (round us ts : List α) : repetition round us ts ≤ us.length := by
  fun_induction repetition round us ts <;> simp_all

/-- What repeats a run can stand behind it and is still met in front. `passed` is the part of the
present round that was met before. -/
theorem take_repetition_prefix {round passed ts : List α} (us : List α) (h : passed ++ ts = round) :
    us.take (repetition round us ts) <+: ts ++ passed ++ us.take (repetition round us ts) := by
  fun_induction repetition round us ts generalizing passed with
  | case1 => exact List.nil_prefix
  | case2 u us t ts heq ih =>
      have hpassed : passed ++ [u] ++ ts = round := by simp [← h, eq_of_beq heq]
      have hrest := ih hpassed
      rw [List.take_succ_cons, ← eq_of_beq heq, List.cons_append, List.cons_append,
        List.cons_prefix_cons]
      simpa using hrest
  | case3 => exact List.nil_prefix
  | case4 u us t ts hround heq ih =>
      subst hround
      have hrest := ih (rfl : [t] ++ ts = t :: ts)
      have hpassed : passed = t :: ts := (List.append_nil passed).symm.trans h
      rw [List.take_succ_cons, List.nil_append, hpassed, ← eq_of_beq heq, List.cons_append,
        List.cons_prefix_cons]
      simpa [eq_of_beq heq] using hrest
  | case5 => exact List.nil_prefix
  | case6 => exact List.nil_prefix

/-- Over tokens that it repeats, an insertion moves to the front. -/
theorem agrees_shiftUp (us ts : List α) (oldAt other : Nat) :
    let count := repetition ts.reverse us.reverse ts.reverse
    let moved := us.drop (us.length - count)
    Agrees [.keep (us.take (us.length - count)), .insert ((moved ++ ts).take ts.length) other,
        .keep moved]
      [.keep us, .insert ts oldAt] := by
  intro count moved
  have hsuffix : moved <:+ moved ++ ts := by
    have hprefix := take_repetition_prefix us.reverse (List.nil_append ts.reverse)
    rw [List.take_reverse, List.append_nil, ← List.reverse_append] at hprefix
    exact List.reverse_prefix.mp hprefix
  obtain ⟨front, hfront⟩ := hsuffix
  have hlength : front.length = ts.length := by
    have hboth := congrArg List.length hfront
    simp only [List.length_append] at hboth
    omega
  have hmoved : (moved ++ ts).take ts.length ++ moved = moved ++ ts := by
    rw [← hfront, ← hlength, List.take_left]
  constructor
  · simp [Edit.oldTokens, moved]
  · simp only [new_cons, Edit.newTokens, new_nil, List.append_nil, hmoved]
    rw [← List.append_assoc, List.take_append_drop]

/-- Over tokens that it repeats, an insertion moves to the back. -/
theorem agrees_shiftDown (us ts : List α) (oldAt other : Nat) :
    let count := repetition ts us ts
    let moved := us.take count
    Agrees [.keep moved, .insert ((ts ++ moved).drop count) other, .keep (us.drop count)]
      [.insert ts oldAt, .keep us] := by
  intro count moved
  have hprefix : moved <+: ts ++ moved := by
    have hrepeats := take_repetition_prefix us (List.nil_append ts)
    rwa [List.append_nil] at hrepeats
  have hcount : moved.length = count := List.length_take_of_le (repetition_le ts us ts)
  have hmoved : moved ++ (ts ++ moved).drop count = ts ++ moved := by
    obtain ⟨rest, hrest⟩ := hprefix
    rw [← hrest, List.drop_left' hcount]
  constructor
  · simp [Edit.oldTokens, moved]
  · simp only [new_cons, Edit.newTokens, new_nil, List.append_nil]
    rw [← List.append_assoc, hmoved, List.append_assoc, List.take_append_drop]

theorem agrees_moveUp (before : Script α) (here : Edit α) (after : Script α) :
    Agrees (moveUp before here after).script (before.reverse ++ here :: after) := by
  fun_induction moveUp before here after with
  | case1 => exact .refl _
  | case2 us before ts oldAt after count moved here hcount hlt =>
      let short := Edit.keep (us.take (us.length - count))
      have hkept := (Agrees.refl (before.reverse ++ [short, here])).append
        (agrees_keepFirst moved after)
      have hshift := (agrees_shiftUp us ts oldAt (oldAt - count)).amid before after
      simpa [Focus.script] using hkept.trans (by simpa using hshift)
  | case3 us before ts oldAt after count moved here hcount hle ih =>
      -- The kept run goes behind the insertion as a whole.
      have hnone : us.take (us.length - count) = [] := by
        rw [Nat.sub_eq_zero_of_le (Nat.not_lt.mp hle), List.take_zero]
      have hpass : Agrees [here, .keep moved] [.keep us, .insert ts oldAt] := by
        have hshift : Agrees [.keep (us.take (us.length - count)), here, .keep moved]
            [.keep us, .insert ts oldAt] := agrees_shiftUp us ts oldAt (oldAt - count)
        rw [hnone] at hshift
        exact (agrees_keep_nil _).symm.trans hshift
      have hkept := (Agrees.refl (before.reverse ++ [here])).append (agrees_keepFirst moved after)
      refine ih.trans ?_
      simpa using hkept.trans (by simpa using hpass.amid before after)
  | case4 us newAt before ts oldAt after ih =>
      refine ih.trans ?_
      simpa using (agrees_swap us ts newAt oldAt).symm.amid before after
  | case5 us oldAt before ts newAt after ih =>
      refine ih.trans ?_
      simpa using (agrees_swap ts us newAt oldAt).amid before after
  | case6 us oldAt before ts last after ih =>
      refine ih.trans ?_
      simpa using (agrees_insert_append us ts oldAt oldAt last).amid before after
  | case7 us newAt before ts last after ih =>
      refine ih.trans ?_
      simpa using (agrees_delete_append us ts newAt newAt last).amid before after
  | case8 => exact .refl _

theorem agrees_moveDown (before : Script α) (here : Edit α) (after : Script α) :
    Agrees (moveDown before here after).script (before.reverse ++ here :: after) := by
  fun_induction moveDown before here after with
  | case1 => exact .refl _
  | case2 before ts oldAt us after count moved here hcount hlt =>
      let short := Edit.keep (us.drop count)
      have hkept := (agrees_keepLast moved before).append (.refl (here :: short :: after))
      have hshift := (agrees_shiftDown us ts oldAt (oldAt + count)).amid before after
      simpa [Focus.script] using hkept.trans (by simpa using hshift)
  | case3 before ts oldAt us after count moved here hcount hle ih =>
      have hnone : us.drop count = [] := List.drop_eq_nil_of_le (Nat.not_lt.mp hle)
      have hpass : Agrees [.keep moved, here] [.insert ts oldAt, .keep us] := by
        have hshift : Agrees [.keep moved, here, .keep (us.drop count)]
            [.insert ts oldAt, .keep us] := agrees_shiftDown us ts oldAt (oldAt + count)
        rw [hnone] at hshift
        exact ((Agrees.refl [.keep moved, here]).append (agrees_keep_nil [])).symm.trans hshift
      have hkept := (agrees_keepLast moved before).append (.refl (here :: after))
      refine ih.trans ?_
      simpa using hkept.trans (by simpa using hpass.amid before after)
  | case4 before ts oldAt us newAt after ih =>
      refine ih.trans ?_
      simpa using (agrees_swap us ts newAt oldAt).amid before after
  | case5 before ts newAt us oldAt after ih =>
      refine ih.trans ?_
      simpa using (agrees_swap ts us newAt oldAt).symm.amid before after
  | case6 before ts oldAt us last after ih =>
      refine ih.trans ?_
      simpa using (agrees_insert_append ts us oldAt oldAt last).amid before after
  | case7 before ts newAt us last after ih =>
      refine ih.trans ?_
      simpa using (agrees_delete_append ts us newAt newAt last).amid before after
  | case8 => exact .refl _

theorem agrees_settle (before : Script α) (here : Edit α) (after : Script α) :
    Agrees (settle before here after).script (before.reverse ++ here :: after) :=
  (agrees_moveDown ..).trans (agrees_moveUp before here after)

theorem agrees_settleFrom (chosen : Edit α → Bool) (fuel : Nat) (before rest : Script α) :
    Agrees (settleFrom chosen fuel before rest) (before.reverse ++ rest) := by
  fun_induction settleFrom chosen fuel before rest with
  | case1 => simpa using Agrees.refl _
  | case2 => exact .refl _
  | case3 fuel before e rest hchosen settled ih =>
      rw [List.reverse_cons, List.append_assoc] at ih
      exact ih.trans (agrees_settle before e rest)
  | case4 fuel before e rest hchosen ih =>
      rwa [List.reverse_cons, List.append_assoc] at ih

theorem agrees_compact (script : Script α) : Agrees script.compact script :=
  (agrees_settleFrom ..).trans (agrees_settleFrom ..)

end Compaction

end Script

/-! ## Regions -/

namespace Region

variable {α : Type}

/-- The regions have, one after another, the one sequence on the old side, the other on the new. -/
def Covers (regions : List (Region α)) (old new : List α) : Prop :=
  regions.flatMap oldTokens = old ∧ regions.flatMap newTokens = new

/-- A step that is taken up adds its tokens behind those that are being collected. -/
theorem covers_push (oldAt newAt : Nat) (pending : Pending α) (e : Edit α) :
    Covers ((pending.push oldAt newAt e).1 ++ (pending.push oldAt newAt e).2.finish)
      (pending.finish.flatMap oldTokens ++ e.oldTokens)
      (pending.finish.flatMap newTokens ++ e.newTokens) := by
  cases pending <;> cases e <;>
    simp [Covers, Pending.push, Pending.finish, oldTokens, newTokens, Edit.oldTokens,
      Edit.newTokens]

theorem covers_ofScriptFrom (oldAt newAt : Nat) (pending : Pending α) (script : Script α) :
    Covers (ofScriptFrom oldAt newAt pending script)
      (pending.finish.flatMap oldTokens ++ script.old)
      (pending.finish.flatMap newTokens ++ script.new) := by
  induction script generalizing oldAt newAt pending with
  | nil => exact ⟨(List.append_nil _).symm, (List.append_nil _).symm⟩
  | cons e rest ih =>
      obtain ⟨hold, hnew⟩ := covers_push oldAt newAt pending e
      obtain ⟨holds, hnews⟩ := ih (oldAt + e.oldTokens.length) (newAt + e.newTokens.length)
        (pending.push oldAt newAt e).2
      rw [List.flatMap_append] at hold hnew
      rw [ofScriptFrom]
      constructor
      · rw [List.flatMap_append, holds, ← List.append_assoc, hold, List.append_assoc]
        rfl
      · rw [List.flatMap_append, hnews, ← List.append_assoc, hnew, List.append_assoc]
        rfl

theorem covers_compare [BEq α] [LawfulBEq α] (old new : List α) :
    Covers (compare old new) old new := by
  obtain ⟨hold, hnew⟩ := covers_ofScriptFrom 0 0 .nothing (Script.find old new).compact
  obtain ⟨hcompactOld, hcompactNew⟩ := Script.agrees_compact (Script.find old new)
  obtain ⟨hfindOld, hfindNew⟩ := Script.leads_find old new
  exact ⟨hold.trans (hcompactOld.trans hfindOld), hnew.trans (hcompactNew.trans hfindNew)⟩

end Region

end Curator
