import Curator.Pointer
import Curator.Proofs.Digits

/-! # Pointers and their texts

The text of a pointer reads back step by step, unless its only step is the empty name. A
step reads back as itself, except that a name can look like a wildcard or like a position.
The steps that a text was read as, and positions put for wildcards, always read back.
-/

namespace Curator

/-! ## Texts between slashes -/

namespace Slashed

theorem split_ne_nil (cs : List Char) : split cs ≠ [] := by
  cases cs with
  | nil => simp [split]
  | cons c rest =>
      rw [split]
      split
      · simp
      · split <;> simp

theorem join_cons_cons (c : Char) (part : List Char) (parts : List (List Char)) :
    join ((c :: part) :: parts) = c :: join (part :: parts) := by
  cases parts <;> rfl

theorem join_split (cs : List Char) : join (split cs) = cs := by
  induction cs with
  | nil => rfl
  | cons c rest ih =>
      have hne := split_ne_nil rest
      rw [split]
      cases hsplit : split rest with
      | nil => exact absurd hsplit hne
      | cons part parts =>
          rw [hsplit] at ih
          split
          · next hc => rw [hc, ← ih]; rfl
          · rw [join_cons_cons, ih]

theorem split_eq_self {part : List Char} (h : '/' ∉ part) : split part = [part] := by
  induction part with
  | nil => rfl
  | cons c rest ih =>
      have hc := List.ne_of_not_mem_cons h
      rw [split, if_neg hc.symm, ih (List.not_mem_of_not_mem_cons h)]

theorem split_append {part : List Char} (h : '/' ∉ part) (rest : List Char) :
    split (part ++ '/' :: rest) = part :: split rest := by
  induction part with
  | nil => simp [split]
  | cons c part ih =>
      have hc := List.ne_of_not_mem_cons h
      rw [List.cons_append, split, if_neg hc.symm, ih (List.not_mem_of_not_mem_cons h)]

end Slashed

/-! ## Escapes -/

namespace Segment

variable {name token : List Char} {s : Segment}

/-- Free of the characters that a token has to escape. -/
def Plain (name : List Char) : Prop := ∀ c ∈ name, c ≠ '~' ∧ c ≠ '/'

theorem plain_dash : Plain ['-'] := by simp [Plain]

theorem escape_cons (c : Char) (rest : List Char) :
    escape (c :: rest) = escapeChar c ++ escape rest := List.flatMap_cons

theorem escapeChar_of_ne {c : Char} (h : c ≠ '~' ∧ c ≠ '/') : escapeChar c = [c] := by
  rw [escapeChar, if_neg h.1, if_neg h.2]

theorem unescape_cons_of_ne {c : Char} (h : c ≠ '~') (rest : List Char) :
    unescape (c :: rest) = c :: unescape rest := by
  rw [unescape]
  · rintro _ rfl
    exact absurd rfl h
  · rintro _ rfl
    exact absurd rfl h

theorem unescape_escape (name : List Char) : unescape (escape name) = name := by
  induction name with
  | nil => rfl
  | cons c rest ih =>
      rw [escape_cons, escapeChar]
      split
      · next hc => rw [hc, List.cons_append, List.cons_append, List.nil_append, unescape, ih]
      · next htilde =>
          split
          · next hc => rw [hc, List.cons_append, List.cons_append, List.nil_append, unescape, ih]
          · rw [List.singleton_append, unescape_cons_of_ne htilde, ih]

theorem slash_not_mem_escape (name : List Char) : '/' ∉ escape name := by
  intro h
  obtain ⟨c, -, hc⟩ := List.mem_flatMap.mp h
  unfold escapeChar at hc
  split at hc
  · simp at hc
  · split at hc
    · simp at hc
    · next hslash => exact hslash (List.mem_singleton.mp hc).symm

theorem escape_of_plain (h : Plain name) : escape name = name := by
  induction name with
  | nil => rfl
  | cons c rest ih =>
      obtain ⟨hc, hrest⟩ := List.forall_mem_cons.mp h
      rw [escape_cons, escapeChar_of_ne hc, ih hrest, List.singleton_append]

theorem tilde_mem_escape (h : ¬ Plain name) : '~' ∈ escape name := by
  simp only [Plain, not_forall, not_and_or, not_not] at h
  obtain ⟨c, hc, hescaped⟩ := h
  refine List.mem_flatMap.mpr ⟨c, hc, ?_⟩
  rcases hescaped with rfl | rfl <;> decide

/-- Reading an escape always gives one of the characters that need it. -/
theorem unescape_of_plain (h : Plain (unescape token)) : unescape token = token := by
  fun_induction unescape token with
  | case1 rest _ => exact absurd rfl (h '/' List.mem_cons_self).2
  | case2 rest _ => exact absurd rfl (h '~' List.mem_cons_self).1
  | case3 c rest _ _ ih => rw [ih (List.forall_mem_cons.mp h).2]
  | case4 => rfl

theorem eq_nil_of_unescape_eq_nil (h : unescape token = []) : token = [] := by
  rw [← h]
  refine (unescape_of_plain ?_).symm
  rw [h]
  exact fun _ => nofun

/-! ## Positions -/

theorem isPosition_iff : isPosition token = true ↔
    token ≠ [] ∧ (∀ c ∈ token, c.isDigit = true) ∧ (token = ['0'] ∨ token.head? ≠ some '0') := by
  simp [isPosition, and_assoc]

theorem plain_of_isPosition (h : isPosition token = true) : Plain token := by
  intro c hc
  have hdigit := (isPosition_iff.mp h).2.1 c hc
  constructor <;> rintro rfl <;> simp [Char.isDigit] at hdigit

theorem isPosition_ofNat (n : Nat) : isPosition (Digits.ofNat n) = true := by
  refine isPosition_iff.mpr ⟨Digits.ofNat_ne_nil n, fun c => Digits.isDigit_of_mem_ofNat, ?_⟩
  cases n with
  | zero => exact .inl rfl
  | succ n => exact .inr (Digits.head?_ofNat_ne_zero (by omega))

theorem toList_toString (i : Nat) : (toString i).toList = Digits.ofNat i := by
  rw [Nat.toString_eq_ofList_toDigits, String.toList_ofList]
  rfl

/-- A position has one spelling. -/
theorem ofNat_value (h : isPosition token = true) : Digits.ofNat (Digits.value token) = token :=
  have ⟨hne, hdigits, hlead⟩ := isPosition_iff.mp h
  Digits.ofNat_value hne hdigits hlead

/-! ## Steps read back -/

/-- The step that the text of a step names. -/
def reread (s : Segment) : Segment := ofToken s.token

theorem slash_not_mem_token (s : Segment) : '/' ∉ s.token := by
  cases s with
  | key name => exact slash_not_mem_escape name.toList
  | index i =>
      intro h
      have hdigit := Digits.isDigit_of_mem_ofNat h
      simp [Char.isDigit] at hdigit
  | wildcard => decide

theorem reread_index {i : Nat} (h : i < positionBound) : reread (.index i) = .index i := by
  have hne : Digits.ofNat i ≠ ['-'] := by
    intro heq
    have hmem : '-' ∈ Digits.ofNat i := by
      rw [heq]
      exact List.mem_singleton_self _
    exact absurd (Digits.isDigit_of_mem_ofNat hmem) (by decide)
  rw [reread, token, ofToken, if_neg hne, isPosition_ofNat, Digits.value_ofNat, Bool.true_and,
    if_pos (by simpa using h)]

/-- A name reads back as a wildcard or as a position where it is spelled like one. -/
theorem reread_key (name : String) : reread (.key name) =
    if name = "-" then .wildcard
    else if isPosition name.toList && Digits.value name.toList < positionBound then
      .index (Digits.value name.toList)
    else .key name := by
  have hread : reread (.key name) = ofToken (escape name.toList) := rfl
  rw [hread]
  split
  · next hname => rw [hname]; rfl
  · next hname =>
      by_cases hplain : Plain name.toList
      · have hdash : name.toList ≠ ['-'] := fun h => hname (String.toList_inj.mp h)
        have hunescape := unescape_escape name.toList
        rw [escape_of_plain hplain] at hunescape ⊢
        rw [ofToken, if_neg hdash, hunescape, String.ofList_toList]
      · have htilde := tilde_mem_escape hplain
        have hdash : escape name.toList ≠ ['-'] := by
          intro heq
          rw [heq] at htilde
          exact absurd htilde (by decide)
        have hposition : isPosition (escape name.toList) = false := by
          refine Bool.eq_false_iff.mpr fun h => ?_
          exact absurd rfl (plain_of_isPosition h '~' htilde).1
        have hposition' : isPosition name.toList = false :=
          Bool.eq_false_iff.mpr fun h => hplain (plain_of_isPosition h)
        rw [ofToken, if_neg hdash, hposition, hposition', unescape_escape, String.ofList_toList]
        rfl

/-- What was read from a token reads back. -/
theorem reread_ofToken (token : List Char) : reread (ofToken token) = ofToken token := by
  unfold ofToken
  split
  · rfl
  · next hdash =>
      split
      · next hposition =>
          simp only [Bool.and_eq_true, decide_eq_true_eq] at hposition
          exact reread_index hposition.2
      · next hposition =>
          have hplain : ∀ name, Plain name → unescape token = name → token = name := by
            rintro name hname rfl
            exact (unescape_of_plain hname).symm
          rw [reread_key, String.toList_ofList, if_neg, if_neg]
          · intro h
            obtain ⟨hname, -⟩ := Bool.and_eq_true_iff.mp h
            have heq := hplain _ (plain_of_isPosition hname) rfl
            rw [← heq] at h
            exact hposition h
          · intro h
            have hname := congrArg String.toList h
            rw [String.toList_ofList] at hname
            exact hdash (hplain ['-'] plain_dash hname)

/-- A name other than the dash reads back as itself or as the position that it spells. -/
theorem reread_key_cases {name : String} (h : name ≠ "-") :
    reread (.key name) = .key name ∨ ∃ i, reread (.key name) = .index i ∧ toString i = name := by
  rw [reread_key, if_neg h]
  split
  · next hposition =>
      refine .inr ⟨_, rfl, ?_⟩
      have hdigits := ofNat_value (Bool.and_eq_true_iff.mp hposition).1
      rw [Nat.toString_eq_ofList_toDigits]
      exact String.toList_inj.mp (String.toList_ofList.trans hdigits)
  · exact .inl rfl

end Segment

/-! ## Pointers read back -/

namespace Pointer

open Segment (reread positionBound)

variable {p : Pointer} {text : String} {positions : List Nat}

theorem split_tokens (s : Segment) (p : Pointer) :
    Slashed.split (s.token ++ p.flatMap fun s => '/' :: s.token) =
      s.token :: p.map Segment.token := by
  induction p generalizing s with
  | nil =>
      rw [List.flatMap_nil, List.append_nil, Slashed.split_eq_self s.slash_not_mem_token]
      rfl
  | cons t rest ih =>
      rw [List.flatMap_cons, List.cons_append, Slashed.split_append s.slash_not_mem_token, ih,
        List.map_cons]

theorem eq_empty_of_token_eq_nil {s : Segment} (h : s.token = []) : s = .key "" := by
  cases s with
  | key name =>
      have hname := Segment.unescape_escape name.toList
      rw [show Segment.escape name.toList = [] from h] at hname
      exact congrArg Segment.key (String.toList_inj.mp hname.symm)
  | index i => exact absurd h (Digits.ofNat_ne_nil i)
  | wildcard => cases h

/-- A pointer reads back step by step. The text of the single empty name reads as the root. -/
theorem parse_render (h : p ≠ [.key ""]) : parse p.render = p.map reread := by
  rw [parse, render, String.toList_ofList]
  cases p with
  | nil => rfl
  | cons s rest =>
      have htext : toChars (s :: rest) =
          '/' :: (s.token ++ rest.flatMap fun s => '/' :: s.token) := rfl
      have hne : s.token ++ (rest.flatMap fun s => '/' :: s.token) ≠ [] := by
        intro heq
        obtain ⟨htoken, hrest⟩ := List.append_eq_nil_iff.mp heq
        have hs := eq_empty_of_token_eq_nil htoken
        cases rest with
        | nil => exact h (by rw [hs])
        | cons t more => simp at hrest
      rw [htext, ofChars]
      · rw [split_tokens, List.map_cons, List.map_cons, List.map_map]
        rfl
      · exact hne

/-- No text is read as the single empty name. -/
theorem parse_ne_empty (text : String) : parse text ≠ [.key ""] := by
  have hsplit : ∀ cs, (Slashed.split cs).map Segment.ofToken = [.key ""] → cs = [] := by
    intro cs h
    obtain ⟨token, htokens, htoken⟩ := List.map_eq_singleton_iff.mp h
    have hempty : token = [] := by
      unfold Segment.ofToken at htoken
      split at htoken
      · cases htoken
      · split at htoken
        · cases htoken
        · have hname := congrArg String.toList (Segment.key.inj htoken)
          rw [String.toList_ofList] at hname
          exact Segment.eq_nil_of_unescape_eq_nil hname
    rw [← Slashed.join_split cs, htokens, hempty]
    rfl
  intro h
  unfold parse ofChars at h
  split at h
  · cases h
  · cases h
  · next rest hrest _ => exact hrest (hsplit _ h)
  · next cs hne _ _ => exact hne (hsplit _ h)

theorem reread_of_mem_parse {s : Segment} (h : s ∈ parse text) : reread s = s := by
  have htokens : ∃ tokens : List (List Char), parse text = tokens.map Segment.ofToken := by
    unfold parse ofChars
    split
    · exact ⟨[], rfl⟩
    · exact ⟨[], rfl⟩
    · exact ⟨_, rfl⟩
    · exact ⟨_, rfl⟩
  obtain ⟨tokens, heq⟩ := htokens
  rw [heq] at h
  obtain ⟨token, -, rfl⟩ := List.mem_map.mp h
  exact Segment.reread_ofToken token

theorem mem_resolve {s : Segment} (h : s ∈ p.resolve positions) :
    s ∈ p ∨ ∃ i ∈ positions, s = .index i := by
  fun_induction resolve p positions with
  | case1 => exact .inl h
  | case2 rest i more ih =>
      rcases List.mem_cons.mp h with rfl | hrest
      · exact .inr ⟨i, List.mem_cons_self, rfl⟩
      · rcases ih hrest with hmem | ⟨j, hj, heq⟩
        · exact .inl (List.mem_cons_of_mem _ hmem)
        · exact .inr ⟨j, List.mem_cons_of_mem _ hj, heq⟩
  | case3 t rest positions _ ih =>
      rcases List.mem_cons.mp h with rfl | hrest
      · exact .inl List.mem_cons_self
      · exact (ih hrest).imp (List.mem_cons_of_mem _) id

theorem wildcards_eq_nil (h : ∀ s ∈ p, s.isWildcard = false) : p.wildcards = [] := by
  have hfrom : ∀ start, wildcardsFrom start p = [] := by
    induction p with
    | nil => exact fun _ => rfl
    | cons s rest ih =>
        intro start
        obtain ⟨hs, hrest⟩ := List.forall_mem_cons.mp h
        rw [wildcardsFrom, hs]
        exact ih hrest (start + 1)
  exact hfrom 0

theorem resolve_nil (p : Pointer) : p.resolve [] = p := by
  induction p with
  | nil => rfl
  | cons s rest ih =>
      cases s <;> exact congrArg _ ih

theorem length_resolve (p : Pointer) (positions : List Nat) :
    (p.resolve positions).length = p.length := by
  fun_induction resolve p positions <;> simp_all

theorem resolve_ne_empty (h : p ≠ [.key ""]) : p.resolve positions ≠ [.key ""] := by
  intro heq
  have hmem : Segment.key "" ∈ p.resolve positions := by
    rw [heq]
    exact List.mem_singleton_self _
  rcases mem_resolve hmem with hp | ⟨i, -, hi⟩
  · have hlength := length_resolve p positions
    rw [heq] at hlength
    obtain ⟨s, hs⟩ := List.length_eq_one_iff.mp hlength.symm
    rw [hs] at hp h
    exact h (by rw [List.mem_singleton.mp hp])
  · cases hi

/-- The steps of a text read back, also with positions put for its wildcards. -/
theorem parse_render_resolve (text : String) (h : ∀ i ∈ positions, i < positionBound) :
    parse ((parse text).resolve positions).render = (parse text).resolve positions := by
  rw [parse_render (resolve_ne_empty (parse_ne_empty text))]
  refine (List.map_congr_left fun s hs => ?_).trans (List.map_id _)
  rcases mem_resolve hs with hmem | ⟨i, hi, rfl⟩
  · exact reread_of_mem_parse hmem
  · exact Segment.reread_index (h i hi)

end Pointer

end Curator
