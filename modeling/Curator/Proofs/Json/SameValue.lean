import Curator.Proofs.Json.Equality

/-! # When two documents are the same value

The order of members does not count, that of items does. An integer and a float are never
the same, and of different floats only the two zeros are. Between documents of distinct names
this is what the comparison of values decides.
-/

namespace Curator

namespace Json

inductive SameValue : Json → Json → Prop where
  | null : SameValue .null .null
  | bool (b : Bool) : SameValue (.bool b) (.bool b)
  | string (s : String) : SameValue (.string s) (.string s)
  | integer (i : Integer) : SameValue (.number (.integer i)) (.number (.integer i))
  | float (x : Binary64) : SameValue (.number (.float x)) (.number (.float x))
  | zero {x y : Binary64} (hx : x.magnitude = 0) (hy : y.magnitude = 0) :
      SameValue (.number (.float x)) (.number (.float y))
  | array {xs ys : List Json} (hlength : xs.length = ys.length)
      (h : ∀ (i : Nat) x y, xs[i]? = some x → ys[i]? = some y → SameValue x y) :
      SameValue (.array xs) (.array ys)
  | object {ms ns : List (String × Json)}
      (hnames : ∀ name, name ∈ Members.keys ms ↔ name ∈ Members.keys ns)
      (h : ∀ name x y, Members.get? name ms = some x → Members.get? name ns = some y →
        SameValue x y) :
      SameValue (.object ms) (.object ns)

end Json

namespace Binary64

theorem rank_eq_iff {x y : Binary64} :
    x.rank = y.rank ↔ x = y ∨ x.magnitude = 0 ∧ y.magnitude = 0 := by
  obtain ⟨negative, m, hm⟩ := x
  obtain ⟨negative', n, hn⟩ := y
  simp only [rank, mk.injEq]
  cases negative <;> cases negative' <;> simp <;> omega

end Binary64

namespace Json

variable {a b : Json} {xs ys : List Json} {ms ns : List (String × Json)}

/-! ## By kinds -/

theorem sameValue_bool_iff {x y : Bool} : SameValue (.bool x) (.bool y) ↔ x = y := by
  constructor
  · intro h
    cases h
    rfl
  · rintro rfl
    exact .bool x

theorem sameValue_string_iff {x y : String} : SameValue (.string x) (.string y) ↔ x = y := by
  constructor
  · intro h
    cases h
    rfl
  · rintro rfl
    exact .string x

theorem sameValue_integer_iff {i j : Integer} :
    SameValue (.number (.integer i)) (.number (.integer j)) ↔ i = j := by
  constructor
  · intro h
    cases h
    rfl
  · rintro rfl
    exact .integer i

theorem sameValue_float_iff {x y : Binary64} :
    SameValue (.number (.float x)) (.number (.float y)) ↔
      x = y ∨ x.magnitude = 0 ∧ y.magnitude = 0 := by
  constructor
  · intro h
    cases h with
    | float => exact .inl rfl
    | zero hx hy => exact .inr ⟨hx, hy⟩
  · rintro (rfl | ⟨hx, hy⟩)
    · exact .float x
    · exact .zero hx hy

theorem sameValue_array_iff :
    SameValue (.array xs) (.array ys) ↔ xs.length = ys.length ∧
      ∀ (i : Nat) x y, xs[i]? = some x → ys[i]? = some y → SameValue x y := by
  constructor
  · intro h
    cases h with
    | array hlength h => exact ⟨hlength, h⟩
  · rintro ⟨hlength, h⟩
    exact .array hlength h

theorem sameValue_object_iff :
    SameValue (.object ms) (.object ns) ↔
      (∀ name, name ∈ Members.keys ms ↔ name ∈ Members.keys ns) ∧
        ∀ name x y, Members.get? name ms = some x → Members.get? name ns = some y →
          SameValue x y := by
  constructor
  · intro h
    cases h with
    | object hnames h => exact ⟨hnames, h⟩
  · rintro ⟨hnames, h⟩
    exact .object hnames h

/-! ## The comparison of values -/

theorem equal_number_iff {m n : Number} :
    equal (.number m) (.number n) = true ↔ SameValue (.number m) (.number n) := by
  have hequal : equal (.number m) (.number n) = m.same n := rfl
  rw [hequal]
  cases m with
  | integer i =>
      cases n with
      | integer j => rw [Number.same, beq_iff_eq, sameValue_integer_iff]
      | float y => exact iff_of_false Bool.false_ne_true (fun h => by cases h)
  | float x =>
      cases n with
      | integer j => exact iff_of_false Bool.false_ne_true (fun h => by cases h)
      | float y => rw [Number.same, beq_iff_eq, Binary64.rank_eq_iff, sameValue_float_iff]

/-- Equality of arrays, item by item. -/
theorem equal_array_iff :
    equal (.array xs) (.array ys) = true ↔ xs.length = ys.length ∧
      ∀ (i : Nat) x y, xs[i]? = some x → ys[i]? = some y → equal x y = true := by
  rw [equal, equalBy_array_iff, List.forall₂_iff_get]
  refine and_congr_right fun _ => ⟨fun h i x y hx hy => ?_, fun h i hx hy => ?_⟩
  · obtain ⟨hltx, rfl⟩ := List.getElem?_eq_some_iff.mp hx
    obtain ⟨hlty, rfl⟩ := List.getElem?_eq_some_iff.mp hy
    exact h i hltx hlty
  · exact h i _ _ (List.getElem?_eq_getElem hx) (List.getElem?_eq_getElem hy)

/-- Equality of objects, name by name. -/
theorem equal_object_iff (hms : Members.Distinct ms) (hns : Members.Distinct ns) :
    equal (.object ms) (.object ns) = true ↔
      (∀ name, name ∈ Members.keys ms ↔ name ∈ Members.keys ns) ∧
        ∀ name x y, Members.get? name ms = some x → Members.get? name ns = some y →
          equal x y = true := by
  rw [equal, equalBy_object_iff]
  constructor
  · rintro ⟨hlength, h⟩
    have hsubset := Members.keys_subset_of_forall_get? h
    have hsuperset := (Members.length_eq_iff_of_subset hms hns hsubset).mp hlength
    refine ⟨fun name => ⟨@hsubset name, @hsuperset name⟩, fun name x y hx hy => ?_⟩
    obtain ⟨y', hy', hequal⟩ := h (name, x) (Members.mem_of_get? hx)
    cases hy'.symm.trans hy
    exact hequal
  · rintro ⟨hnames, h⟩
    have hsubset : Members.keys ms ⊆ Members.keys ns := fun name => (hnames name).mp
    refine ⟨(Members.length_eq_iff_of_subset hms hns hsubset).mpr
      fun name => (hnames name).mpr, fun m hm => ?_⟩
    have hname := hsubset (Members.mem_keys_of_mem hm)
    obtain ⟨y, hy⟩ := Option.isSome_iff_exists.mp (Members.isSome_get?_iff.mpr hname)
    exact ⟨y, hy, h m.1 m.2 y (Members.get?_of_mem hms hm) hy⟩

theorem equal_object_of_rel (hms : Members.Distinct ms) (hns : Members.Distinct ns)
    (h : ∀ name, Option.Rel (fun x y => equal x y = true) (Members.get? name ms)
      (Members.get? name ns)) : equal (.object ms) (.object ns) = true := by
  refine (equal_object_iff hms hns).mpr ⟨fun name => ?_, fun name x y hx hy => ?_⟩
  · have hrel := h name
    rw [← Members.isSome_get?_iff, ← Members.isSome_get?_iff]
    generalize Members.get? name ms = found, Members.get? name ns = other at hrel
    cases hrel <;> simp
  · have hrel := h name
    rw [hx, hy] at hrel
    cases hrel with
    | some hequal => exact hequal

/-- Documents of distinct names compare as equal exactly if they are the same value. -/
theorem equal_iff_sameValue (ha : a.WellFormed) (hb : b.WellFormed) :
    a.equal b = true ↔ SameValue a b := by
  induction a using Json.induction generalizing b with
  | null =>
      cases b with
      | null => exact iff_of_true rfl .null
      | _ => exact iff_of_false Bool.false_ne_true (fun h => by cases h)
  | bool x =>
      cases b with
      | bool y => rw [equal, equalBy, beq_iff_eq, sameValue_bool_iff]
      | _ => exact iff_of_false Bool.false_ne_true (fun h => by cases h)
  | string x =>
      cases b with
      | string y => rw [equal, equalBy, beq_iff_eq, sameValue_string_iff]
      | _ => exact iff_of_false Bool.false_ne_true (fun h => by cases h)
  | number m =>
      cases b with
      | number n => exact equal_number_iff
      | _ => exact iff_of_false Bool.false_ne_true (fun h => by cases h)
  | array xs ih =>
      cases b with
      | array ys =>
          rw [equal_array_iff, sameValue_array_iff]
          refine and_congr_right fun _ => forall₃_congr fun i x y => forall₂_congr fun hx hy => ?_
          exact ih x (List.mem_of_getElem? hx) (ha.of_getElem? hx) (hb.of_getElem? hy)
      | _ => exact iff_of_false Bool.false_ne_true (fun h => by cases h)
  | object ms ih =>
      cases b with
      | object ns =>
          rw [equal_object_iff ha.distinct hb.distinct, sameValue_object_iff]
          refine and_congr_right fun _ => forall₃_congr fun name x y =>
            forall₂_congr fun hx hy => ?_
          exact ih (name, x) (Members.mem_of_get? hx) (ha.of_get? hx) (hb.of_get? hy)
      | _ => exact iff_of_false Bool.false_ne_true (fun h => by cases h)

end Json

end Curator
