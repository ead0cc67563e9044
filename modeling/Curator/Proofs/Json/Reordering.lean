import Curator.Proofs.Json.Equality

/-! # Documents that differ in the order of members

The relation is generated by permuting the members of one object anywhere inside a
document. `SameRoot` says what two such documents have in common at their roots, which
is how the relation is used.
-/

namespace Curator

/-! ## Related options and lists -/

section Related

variable {α β γ δ : Type} {R : α → β → Prop} {S : γ → δ → Prop} {o : Option α} {p : Option β}
  {xs : List α} {ys : List β}

theorem rel_bind {f : α → Option γ} {g : β → Option δ} (h : Option.Rel R o p)
    (hfg : ∀ x y, o = some x → R x y → Option.Rel S (f x) (g y)) :
    Option.Rel S (o.bind f) (p.bind g) := by
  cases h with
  | none => exact .none
  | some hxy => exact hfg _ _ rfl hxy

theorem rel_map {f : α → γ} {g : β → δ} (h : Option.Rel R o p)
    (hfg : ∀ x y, o = some x → R x y → S (f x) (g y)) : Option.Rel S (o.map f) (p.map g) := by
  cases h with
  | none => exact .none
  | some hxy => exact .some (hfg _ _ rfl hxy)

theorem eq_of_rel_eq {q : Option α} (h : Option.Rel (· = ·) o q) : o = q := by
  cases h with
  | none => rfl
  | some he => rw [he]

theorem map_eq_of_forall₂ {f : α → γ} {g : β → γ}
    (h : List.Forall₂ (fun x y => f x = g y) xs ys) : xs.map f = ys.map g := by
  induction h with
  | nil => rfl
  | cons hxy _ ih => rw [List.map_cons, List.map_cons, hxy, ih]

theorem forall₂_getElem? (h : List.Forall₂ R xs ys) (i : Nat) : Option.Rel R xs[i]? ys[i]? := by
  induction h generalizing i with
  | nil => exact .none
  | cons hxy _ ih =>
      cases i with
      | zero => exact .some hxy
      | succ i => simpa using ih i

theorem forall₂_set (h : List.Forall₂ R xs ys) (i : Nat) {x : α} {y : β} (hxy : R x y) :
    List.Forall₂ R (xs.set i x) (ys.set i y) := by
  induction h generalizing i with
  | nil => exact .nil
  | cons hhead htail ih =>
      cases i with
      | zero => exact .cons hxy htail
      | succ i => exact .cons hhead (ih i)

theorem forall₂_eraseIdx (h : List.Forall₂ R xs ys) (i : Nat) :
    List.Forall₂ R (xs.eraseIdx i) (ys.eraseIdx i) := by
  induction h generalizing i with
  | nil => exact .nil
  | cons hhead htail ih =>
      cases i with
      | zero => exact htail
      | succ i => exact .cons hhead (ih i)

/-- A relation may use what is known of the items on the left. -/
theorem forall₂_imp_of_mem {Q : α → β → Prop} (h : List.Forall₂ R xs ys)
    (hq : ∀ x ∈ xs, ∀ y, R x y → Q x y) : List.Forall₂ Q xs ys := by
  induction h with
  | nil => exact .nil
  | cons hxy _ ih =>
      exact .cons (hq _ List.mem_cons_self _ hxy)
        (ih fun x hx => hq x (List.mem_cons_of_mem _ hx))

theorem forall₂_isEmpty_eq (h : List.Forall₂ R xs ys) : xs.isEmpty = ys.isEmpty := by
  cases h <;> rfl

theorem exists_forall₂_of_forall_exists (h : ∀ x ∈ xs, ∃ y ∈ ys, R x y) :
    ∃ zs, List.Forall₂ R xs zs ∧ zs ⊆ ys := by
  induction xs with
  | nil => exact ⟨[], .nil, List.nil_subset _⟩
  | cons x xs ih =>
      obtain ⟨y, hy, hxy⟩ := h x List.mem_cons_self
      obtain ⟨zs, hzs, hsub⟩ := ih fun x hx => h x (List.mem_cons_of_mem _ hx)
      exact ⟨y :: zs, .cons hxy hzs, List.cons_subset.mpr ⟨hy, hsub⟩⟩

end Related

namespace Json

/-- One document comes from the other by reordering the members of objects inside it. -/
inductive SameUpToKeyOrder : Json → Json → Prop where
  | refl (a : Json) : SameUpToKeyOrder a a
  | trans {a b c : Json} (h : SameUpToKeyOrder a b) (h' : SameUpToKeyOrder b c) :
      SameUpToKeyOrder a c
  | reorder {ms ns : List (String × Json)} (h : ms.Perm ns) :
      SameUpToKeyOrder (.object ms) (.object ns)
  | item (before after : List Json) {a b : Json} (h : SameUpToKeyOrder a b) :
      SameUpToKeyOrder (.array (before ++ a :: after)) (.array (before ++ b :: after))
  | member (before after : List (String × Json)) (name : String) {a b : Json}
      (h : SameUpToKeyOrder a b) :
      SameUpToKeyOrder (.object (before ++ (name, a) :: after))
        (.object (before ++ (name, b) :: after))

/-- Values with the same root whose parts differ in the order of members only. -/
inductive SameRoot : Json → Json → Prop where
  | null : SameRoot .null .null
  | bool (b : Bool) : SameRoot (.bool b) (.bool b)
  | number (n : Number) : SameRoot (.number n) (.number n)
  | string (s : String) : SameRoot (.string s) (.string s)
  | array {xs ys : List Json} (h : List.Forall₂ SameUpToKeyOrder xs ys) :
      SameRoot (.array xs) (.array ys)
  | object {ms ns : List (String × Json)} (hkeys : (Members.keys ms).Perm (Members.keys ns))
      (h : ∀ name, Option.Rel SameUpToKeyOrder (Members.get? name ms) (Members.get? name ns)) :
      SameRoot (.object ms) (.object ns)

theorem rel_refl (o : Option Json) : Option.Rel SameUpToKeyOrder o o := by
  cases o with
  | none => exact .none
  | some a => exact .some (.refl a)

theorem rel_trans {o p q : Option Json} (h : Option.Rel SameUpToKeyOrder o p)
    (h' : Option.Rel SameUpToKeyOrder p q) : Option.Rel SameUpToKeyOrder o q := by
  cases h with
  | none => exact h'
  | some hab =>
      cases h' with
      | some hbc => exact .some (hab.trans hbc)

theorem rel_isSome_eq {o p : Option Json} (h : Option.Rel SameUpToKeyOrder o p) :
    o.isSome = p.isSome := by cases h <;> rfl

theorem forall₂_trans {xs ys zs : List Json} (h : List.Forall₂ SameUpToKeyOrder xs ys)
    (h' : List.Forall₂ SameUpToKeyOrder ys zs) : List.Forall₂ SameUpToKeyOrder xs zs := by
  induction h generalizing zs with
  | nil => exact h'
  | cons hx _ ih =>
      cases h' with
      | cons hy hrest => exact .cons (hx.trans hy) (ih hrest)

namespace SameUpToKeyOrder

variable {a b : Json}

theorem symm (h : SameUpToKeyOrder a b) : SameUpToKeyOrder b a := by
  induction h with
  | refl a => exact .refl a
  | trans _ _ ih ih' => exact ih'.trans ih
  | reorder h => exact .reorder h.symm
  | item before after _ ih => exact .item before after ih
  | member before after name _ ih => exact .member before after name ih

theorem wellFormed (h : SameUpToKeyOrder a b) (ha : a.WellFormed) : b.WellFormed := by
  induction h with
  | refl a => exact ha
  | trans _ _ ih ih' => exact ih' (ih ha)
  | reorder h =>
      obtain ⟨hd, hvalues⟩ := wellFormed_object_iff.mp ha
      exact wellFormed_object_iff.mpr
        ⟨hd.of_perm h, fun m hm => hvalues m (h.mem_iff.mpr hm)⟩
  | item before after _ ih =>
      simp only [wellFormed_array_iff, List.forall_mem_append, List.forall_mem_cons] at ha ⊢
      exact ⟨ha.1, ih ha.2.1, ha.2.2⟩
  | member before after name _ ih =>
      simp only [wellFormed_object_iff, List.forall_mem_append, List.forall_mem_cons] at ha ⊢
      refine ⟨?_, ha.2.1, ih ha.2.2.1, ha.2.2.2⟩
      simpa [Members.Distinct, Members.keys] using ha.1

theorem view (h : SameUpToKeyOrder a b) (ha : a.WellFormed) : SameRoot a b := by
  induction h with
  | refl a =>
      cases a with
      | null => exact .null
      | bool b => exact .bool b
      | number n => exact .number n
      | string s => exact .string s
      | array items => exact .array (List.forall₂_same.mpr fun item _ => .refl item)
      | object members => exact .object (.refl _) fun _ => rel_refl _
  | trans h _ ih ih' =>
      cases ih ha with
      | null => exact ih' (h.wellFormed ha)
      | bool b => exact ih' (h.wellFormed ha)
      | number n => exact ih' (h.wellFormed ha)
      | string s => exact ih' (h.wellFormed ha)
      | array hxs =>
          cases ih' (h.wellFormed ha) with
          | array hys => exact .array (forall₂_trans hxs hys)
      | object hkeys hms =>
          cases ih' (h.wellFormed ha) with
          | object hkeys' hns =>
              exact .object (hkeys.trans hkeys') fun name => rel_trans (hms name) (hns name)
  | reorder h =>
      refine .object (h.map Prod.fst) fun name => ?_
      rw [Members.get?_of_perm ha.distinct h]
      exact rel_refl _
  | item before after h _ =>
      exact .array (List.rel_append (List.forall₂_same.mpr fun item _ => .refl item)
        (.cons h (List.forall₂_same.mpr fun item _ => .refl item)))
  | member before after name h _ =>
      refine .object (by simp) fun other => ?_
      rw [Members.get?_append, Members.get?_append]
      cases Members.get? other before with
      | some value => exact rel_refl _
      | none =>
          by_cases hn : name = other
          · subst hn; simpa [Members.get?] using h
          · simpa [Members.get?, hn] using rel_refl _

/-! ## From the parts to the whole -/

theorem array {xs ys : List Json} (h : List.Forall₂ SameUpToKeyOrder xs ys) :
    SameUpToKeyOrder (.array xs) (.array ys) := by
  have go : ∀ before : List Json,
      SameUpToKeyOrder (.array (before ++ xs)) (.array (before ++ ys)) := by
    induction h with
    | nil => exact fun _ => .refl _
    | @cons x y _ _ hxy _ ih =>
        intro before
        refine .trans (.item before _ hxy) ?_
        simpa using ih (before ++ [y])
  exact go []

theorem members {ms ns : List (String × Json)}
    (h : List.Forall₂ (fun m n => m.1 = n.1 ∧ SameUpToKeyOrder m.2 n.2) ms ns) :
    SameUpToKeyOrder (.object ms) (.object ns) := by
  have go : ∀ before : List (String × Json),
      SameUpToKeyOrder (.object (before ++ ms)) (.object (before ++ ns)) := by
    induction h with
    | nil => exact fun _ => .refl _
    | @cons m n _ _ hmn _ ih =>
        intro before
        obtain ⟨name, x⟩ := m
        obtain ⟨_, y⟩ := n
        obtain ⟨rfl, hxy⟩ := hmn
        refine .trans (.member before _ name hxy) ?_
        simpa using ih (before ++ [(name, y)])
  exact go []

/-- Objects of distinct names that read alike. The first is given the values of the second
and then permuted. -/
theorem object {ms ns : List (String × Json)} (hms : Members.Distinct ms)
    (hns : Members.Distinct ns)
    (h : ∀ name, Option.Rel SameUpToKeyOrder (Members.get? name ms) (Members.get? name ns)) :
    SameUpToKeyOrder (.object ms) (.object ns) := by
  have hkeys : (Members.keys ms).Perm (Members.keys ns) :=
    Members.keys_perm_of_isSome hms hns fun name => rel_isSome_eq (h name)
  have hvalue : ∀ m ∈ ms, ∃ n ∈ ns, m.1 = n.1 ∧ SameUpToKeyOrder m.2 n.2 := by
    intro m hm
    have hrel := h m.1
    rw [Members.get?_of_mem hms hm] at hrel
    cases hy : Members.get? m.1 ns with
    | none => simp [hy] at hrel
    | some y =>
        rw [hy, Option.rel_some_some] at hrel
        exact ⟨(m.1, y), Members.mem_of_get? hy, rfl, hrel⟩
  obtain ⟨os, hos, hsub⟩ := exists_forall₂_of_forall_exists hvalue
  have hoskeys : Members.keys os = Members.keys ms :=
    (List.forall₂_eq_eq_eq ▸ List.rel_map (fun _ _ hmn => hmn.1) hos :
      Members.keys ms = Members.keys os).symm
  have hdistinct : Members.Distinct os := by
    rw [Members.Distinct, hoskeys]
    exact hms
  have hlength : (Members.keys ns).length = (Members.keys os).length := by
    rw [hoskeys, hkeys.length_eq]
  rw [Members.length_keys, Members.length_keys] at hlength
  have hsubperm : os.Subperm ns := List.subperm_of_subset (.of_map Prod.fst hdistinct) hsub
  exact (members hos).trans (.reorder (hsubperm.perm_of_length_le (Nat.le_of_eq hlength)))

/-! ## What does not see the order of members -/

theorem length_eq {ms ns : List (String × Json)} (h : SameUpToKeyOrder (.object ms) (.object ns))
    (hms : WellFormed (.object ms)) : ms.length = ns.length := by
  cases h.view hms with
  | object hkeys _ => simpa using hkeys.length_eq

theorem isEmpty_eq {ms ns : List (String × Json)} (h : SameUpToKeyOrder (.object ms) (.object ns))
    (hms : WellFormed (.object ms)) : ms.isEmpty = ns.isEmpty := by
  rw [Bool.eq_iff_iff, List.isEmpty_iff_length_eq_zero, List.isEmpty_iff_length_eq_zero,
    h.length_eq hms]

/-- A reordering is an equality, whichever way numbers are compared. -/
theorem equalBy {numbers : Number → Number → Bool} (hrefl : ∀ n, numbers n n = true)
    (htrans : ∀ l m n, numbers l m = true → numbers m n = true → numbers l n = true)
    (h : SameUpToKeyOrder a b) (ha : a.WellFormed) : equalBy numbers a b = true := by
  induction h with
  | refl a => exact equalBy_refl hrefl ha
  | trans h _ ih ih' => exact equalBy_trans htrans (ih ha) (ih' (h.wellFormed ha))
  | reorder h =>
      obtain ⟨hd, hvalues⟩ := wellFormed_object_iff.mp ha
      refine equalBy_object_iff.mpr ⟨h.length_eq, fun m hm => ⟨m.2, ?_, ?_⟩⟩
      · rw [← Members.get?_of_perm hd h, Members.get?_of_mem hd hm]
      · exact equalBy_refl hrefl (hvalues m hm)
  | item before after h ih =>
      have hitems := wellFormed_array_iff.mp ha
      simp only [List.forall_mem_append, List.forall_mem_cons] at hitems
      obtain ⟨hbefore, hitem, hafter⟩ := hitems
      refine equalBy_array_iff.mpr (List.rel_append ?_ (.cons (ih hitem) ?_))
      · exact List.forall₂_same.mpr fun item hi => equalBy_refl hrefl (hbefore item hi)
      · exact List.forall₂_same.mpr fun item hi => equalBy_refl hrefl (hafter item hi)
  | @member before after name x y h ih =>
      have hb := (SameUpToKeyOrder.member before after name h).wellFormed ha
      obtain ⟨hd, hvalues⟩ := wellFormed_object_iff.mp ha
      simp only [List.forall_mem_append, List.forall_mem_cons] at hvalues
      obtain ⟨hbefore, hvalue, hafter⟩ := hvalues
      have hfind : ∀ m ∈ before ++ (name, y) :: after,
          Members.get? m.1 (before ++ (name, y) :: after) = some m.2 := fun m hm =>
        Members.get?_of_mem hb.distinct hm
      simp only [List.forall_mem_append, List.forall_mem_cons] at hfind
      refine equalBy_object_iff.mpr ⟨by simp, ?_⟩
      simp only [List.forall_mem_append, List.forall_mem_cons]
      exact ⟨fun m hm => ⟨m.2, hfind.1 m hm, equalBy_refl hrefl (hbefore m hm)⟩,
        ⟨y, hfind.2.1, ih hvalue⟩,
        fun m hm => ⟨m.2, hfind.2.2 m hm, equalBy_refl hrefl (hafter m hm)⟩⟩

end SameUpToKeyOrder

theorem rel_symm {o p : Option Json} (h : Option.Rel SameUpToKeyOrder o p) :
    Option.Rel SameUpToKeyOrder p o := by
  cases h with
  | none => exact .none
  | some hab => exact .some hab.symm

structure Alike (a b : Json) : Prop where
  same : SameUpToKeyOrder a b
  wellFormed : a.WellFormed

namespace Alike

variable {a b : Json}

theorem refl (h : a.WellFormed) : Alike a a := ⟨.refl a, h⟩

theorem symm (h : Alike a b) : Alike b a := ⟨h.same.symm, h.same.wellFormed h.wellFormed⟩

theorem view (h : Alike a b) : SameRoot a b := h.same.view h.wellFormed

theorem kind_eq (h : Alike a b) : a.kind = b.kind := by
  cases h.view <;> rfl

end Alike

end Json

end Curator
