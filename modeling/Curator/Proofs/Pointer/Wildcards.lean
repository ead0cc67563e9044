import Curator.Proofs.Pointer.Text

/-! # Wildcards in pointers

The places of the wildcards of a pointer are counted through its parts. A pointer with one wildcard
is what comes before it and what comes behind, and resolving puts a position between them. Resolving
in two goes is resolving with all the positions at once, and it can be done on the text.
-/

namespace Curator.Pointer

variable {p container rest : Pointer} {place : Nat}

theorem wildcardsFrom_eq_map (start : Nat) (p : Pointer) :
    wildcardsFrom start p = p.wildcards.map (start + ·) := by
  have hshift : ∀ first,
      wildcardsFrom (start + first) p = (wildcardsFrom first p).map (start + ·) := by
    induction p with
    | nil => exact fun _ => rfl
    | cons s rest ih =>
        intro first
        have hrest := ih (first + 1)
        rw [wildcardsFrom, wildcardsFrom, Nat.add_assoc, hrest]
        split <;> rfl
  exact hshift 0

theorem wildcards_cons (s : Segment) (p : Pointer) :
    wildcards (s :: p) =
      if s.isWildcard then 0 :: p.wildcards.map (1 + ·) else p.wildcards.map (1 + ·) := by
  rw [wildcards, wildcardsFrom, Nat.zero_add, wildcardsFrom_eq_map]

theorem wildcards_append (p q : Pointer) :
    wildcards (p ++ q) = p.wildcards ++ q.wildcards.map (p.length + ·) := by
  induction p with
  | nil => simp [wildcards, wildcardsFrom]
  | cons s rest ih =>
      rw [List.cons_append, wildcards_cons, wildcards_cons, ih, List.map_append, List.map_map]
      have hcount : (1 + ·) ∘ (rest.length + ·) = ((s :: rest).length + ·) := by
        funext n
        rw [Function.comp_apply, List.length_cons]
        omega
      rw [hcount]
      split <;> rfl

theorem wildcards_eq_nil_iff : p.wildcards = [] ↔ ∀ s ∈ p, s.isWildcard = false := by
  refine ⟨fun h => ?_, wildcards_eq_nil⟩
  induction p with
  | nil => exact fun _ => nofun
  | cons s rest ih =>
      rw [wildcards_cons] at h
      split at h
      · cases h
      · next hs =>
          rw [List.map_eq_nil_iff] at h
          exact List.forall_mem_cons.mpr ⟨Bool.eq_false_iff.mpr hs, ih h⟩

/-- The only wildcard of a pointer parts it. -/
theorem exists_of_wildcards_eq_singleton (h : p.wildcards = [place]) :
    ∃ container rest : Pointer, p = container ++ .wildcard :: rest ∧ container.wildcards = [] ∧
      rest.wildcards = [] ∧ container.length = place := by
  induction p generalizing place with
  | nil => cases h
  | cons s rest ih =>
      rw [wildcards_cons] at h
      cases s with
      | wildcard =>
          obtain ⟨rfl, hrest⟩ := List.cons.inj h
          exact ⟨[], rest, rfl, rfl, List.map_eq_nil_iff.mp hrest, rfl⟩
      | _ =>
          obtain ⟨inner, hinner, rfl⟩ := List.map_eq_singleton_iff.mp h
          obtain ⟨container, behind, rfl, hcontainer, hbehind, rfl⟩ := ih hinner
          refine ⟨_ :: container, behind, rfl, ?_, hbehind, Nat.add_comm _ _⟩
          rw [wildcards_cons, hcontainer]
          rfl

/-- A pointer has no wildcard, or one between its steps, or several. -/
theorem wildcards_cases (p : Pointer) : p.wildcards = [] ∨
    (∃ container rest : Pointer, p = container ++ .wildcard :: rest ∧ container.wildcards = [] ∧
      rest.wildcards = []) ∨ 2 ≤ p.wildcards.length := by
  cases hwild : p.wildcards with
  | nil => exact .inl rfl
  | cons place others =>
      cases others with
      | nil =>
          obtain ⟨container, rest, hp, hcontainer, hrest, -⟩ := exists_of_wildcards_eq_singleton hwild
          exact .inr (.inl ⟨container, rest, hp, hcontainer, hrest⟩)
      | cons other more => exact .inr (.inr (by simp))

theorem exists_of_two_le_wildcards (h : 2 ≤ p.wildcards.length) :
    ∃ first second more, p.wildcards = first :: second :: more := by
  cases hwild : p.wildcards with
  | nil => simp [hwild] at h
  | cons first others =>
      cases others with
      | nil => simp [hwild] at h
      | cons second more => exact ⟨first, second, more, rfl⟩

theorem wildcards_append_wildcard (hcontainer : container.wildcards = [])
    (hrest : rest.wildcards = []) :
    wildcards (container ++ .wildcard :: rest) = [container.length] := by
  rw [wildcards_append, hcontainer, wildcards_cons, hrest]
  rfl

/-- Of one wildcard a position makes a step. -/
theorem resolve_append_wildcard (hcontainer : container.wildcards = []) (rest : Pointer) (j : Nat) :
    resolve (container ++ .wildcard :: rest) [j] = container ++ .index j :: rest := by
  induction container with
  | nil => exact congrArg _ (resolve_nil rest)
  | cons s more ih =>
      obtain ⟨hs, hmore⟩ := List.forall_mem_cons.mp (wildcards_eq_nil_iff.mp hcontainer)
      have hbelow := ih (wildcards_eq_nil_iff.mpr hmore)
      cases s with
      | wildcard => cases hs
      | _ => exact congrArg _ hbelow

/-! ## Resolving -/

theorem resolve_resolve (p : Pointer) (positions more : List Nat) :
    (p.resolve positions).resolve more = p.resolve (positions ++ more) := by
  induction p generalizing positions with
  | nil => rfl
  | cons s rest ih =>
      cases s with
      | wildcard =>
          cases positions with
          | nil => rw [resolve_nil, List.nil_append]
          | cons i others => exact congrArg _ (ih others)
      | _ => exact congrArg _ (ih positions)

theorem wildcards_resolve (p : Pointer) (positions : List Nat) :
    (p.resolve positions).wildcards = p.wildcards.drop positions.length := by
  induction p generalizing positions with
  | nil => exact List.drop_nil.symm
  | cons s rest ih =>
      cases s with
      | wildcard =>
          cases positions with
          | nil => rw [resolve_nil, List.length_nil, List.drop_zero]
          | cons i others =>
              have hrest := congrArg (List.map (1 + ·)) (ih others)
              rw [List.map_drop] at hrest
              rw [resolve, wildcards_cons, wildcards_cons, List.length_cons]
              exact hrest
      | _ =>
          have hrest := congrArg (List.map (1 + ·)) (ih positions)
          rw [List.map_drop] at hrest
          rw [resolve, wildcards_cons, wildcards_cons]
          · exact hrest
          · exact nofun

theorem getElem?_resolve_of_ne (h : p[place]? ≠ some .wildcard) (positions : List Nat) :
    (p.resolve positions)[place]? = p[place]? := by
  induction p generalizing place positions with
  | nil => rfl
  | cons s rest ih =>
      cases place with
      | zero =>
          cases s with
          | wildcard => exact absurd rfl h
          | _ => rfl
      | succ place =>
          rw [List.getElem?_cons_succ] at h ⊢
          cases s with
          | wildcard =>
              cases positions with
              | nil => rw [resolve_nil, List.getElem?_cons_succ]
              | cons i others => exact ih h others
          | _ => exact ih h positions

/-- The positions go to the wildcards in their order, as far as they reach. -/
theorem getElem?_resolve_wildcard {k : Nat} (h : p.wildcards[k]? = some place)
    (positions : List Nat) :
    (p.resolve positions)[place]? = some (positions[k]?.elim .wildcard .index) := by
  induction p generalizing k place positions with
  | nil => cases h
  | cons s rest ih =>
      rw [wildcards_cons] at h
      cases s with
      | wildcard =>
          cases k with
          | zero =>
              cases h
              cases positions <;> rfl
          | succ k =>
              have hrest : ((wildcards rest).map (1 + ·))[k]? = some place := h
              rw [List.getElem?_map] at hrest
              obtain ⟨below, hbelow, rfl⟩ := Option.map_eq_some_iff.mp hrest
              rw [Nat.add_comm]
              cases positions with
              | nil => exact ih hbelow []
              | cons i others => exact ih hbelow others
      | _ =>
          rw [if_neg nofun, List.getElem?_map] at h
          obtain ⟨below, hbelow, rfl⟩ := Option.map_eq_some_iff.mp h
          rw [Nat.add_comm]
          exact ih hbelow positions

/-- Resolving the text of a rule pointer is resolving the pointer, whatever the positions. Positions
given in two goes resolve as they do together. Every step but the wildcards stays, the wildcards
take up the positions in order, and those beyond the positions are left. -/
theorem resolve_lawful (text : String) (p : Pointer) (positions more : List Nat) :
    ((∀ i ∈ positions, i < Segment.positionBound) →
      parse (indexed text positions) = (parse text).resolve positions) ∧
    (p.resolve positions).resolve more = p.resolve (positions ++ more) ∧
    (p.resolve positions).length = p.length ∧
    (∀ place : Nat, p[place]? ≠ some .wildcard → (p.resolve positions)[place]? = p[place]?) ∧
    (∀ k place : Nat, p.wildcards[k]? = some place →
      (p.resolve positions)[place]? = some (positions[k]?.elim .wildcard .index)) ∧
    (p.resolve positions).wildcards = p.wildcards.drop positions.length ∧
    (p.resolve positions).wildcards.length = p.wildcards.length - positions.length :=
  ⟨parse_render_resolve text, resolve_resolve p positions more, length_resolve p positions,
    fun _ h => getElem?_resolve_of_ne h positions, fun _ _ h => getElem?_resolve_wildcard h positions,
    wildcards_resolve p positions, by rw [wildcards_resolve, List.length_drop]⟩

/-- A token with an escape and a position among the wildcards stay what they are, and the last
wildcard waits for a position. -/
theorem resolve_lawful_of_escaped :
    let text := "/a~1b/-/7/-/-"
    let positions := [12, 0]
    (∀ i ∈ positions, i < Segment.positionBound) ∧
      parse (indexed text positions) =
        [.key "a/b", .index 12, .index 7, .index 0, .wildcard] ∧
      ((parse text).resolve positions).wildcards = [4] ∧
      ((parse text).resolve positions).resolve [5, 6] =
        [.key "a/b", .index 12, .index 7, .index 0, .index 5] := by
  intro text positions
  have hbound : ∀ i ∈ positions, i < Segment.positionBound := by decide
  have hparse : parse text = [.key "a/b", .wildcard, .index 7, .wildcard, .wildcard] := by
    decide +kernel
  obtain ⟨htext, hagain, -, -, -, hwildcards, -⟩ :=
    resolve_lawful text (parse text) positions [5, 6]
  rw [htext hbound, hagain, hwildcards, hparse]
  exact ⟨hbound, rfl, rfl, rfl⟩

end Curator.Pointer
