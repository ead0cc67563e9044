import Curator.Json.Record
import Curator.Proofs.Members

/-! # Well-formed documents

Induction on documents, well-formedness by items and members, and the fact that whatever
is read from a text is well-formed.
-/

namespace Curator.Json

/-- Induction on a document by way of its items and members. -/
@[elab_as_elim]
theorem induction {motive : Json → Prop} (null : motive .null) (bool : ∀ b, motive (.bool b))
    (number : ∀ n, motive (.number n)) (string : ∀ s, motive (.string s))
    (array : ∀ items, (∀ item ∈ items, motive item) → motive (.array items))
    (object : ∀ members, (∀ m ∈ members, motive m.2) → motive (.object members))
    (value : Json) : motive value :=
  @Json.rec motive (fun items => ∀ item ∈ items, motive item)
    (fun members => ∀ m ∈ members, motive m.2) (fun m => motive m.2)
    null bool number string array object
    (fun _ h => (List.not_mem_nil h).elim)
    (fun _ _ head tail => List.forall_mem_cons.mpr ⟨head, tail⟩)
    (fun _ h => (List.not_mem_nil h).elim)
    (fun _ _ head tail => List.forall_mem_cons.mpr ⟨head, tail⟩)
    (fun _ _ h => h) value

/-! ## Well-formedness by parts -/

@[simp] theorem wellFormed_null : WellFormed .null := trivial

@[simp] theorem wellFormed_bool (b : Bool) : WellFormed (.bool b) := trivial

@[simp] theorem wellFormed_number (n : Number) : WellFormed (.number n) := trivial

@[simp] theorem wellFormed_string (s : String) : WellFormed (.string s) := trivial

theorem wellFormedItems_iff {items : List Json} :
    WellFormedItems items ↔ ∀ item ∈ items, item.WellFormed := by
  induction items with
  | nil => simp [WellFormedItems]
  | cons item rest ih => simp [WellFormedItems, ih]

theorem wellFormedMembers_iff {members : List (String × Json)} :
    WellFormedMembers members ↔ ∀ m ∈ members, m.2.WellFormed := by
  induction members with
  | nil => simp [WellFormedMembers]
  | cons m rest ih =>
      obtain ⟨name, value⟩ := m
      simp only [WellFormedMembers, ih, List.forall_mem_cons]

@[simp] theorem wellFormed_array_iff {items : List Json} :
    WellFormed (.array items) ↔ ∀ item ∈ items, item.WellFormed := wellFormedItems_iff

@[simp] theorem wellFormed_object_iff {members : List (String × Json)} :
    WellFormed (.object members) ↔
      Members.Distinct members ∧ ∀ m ∈ members, m.2.WellFormed := by
  rw [WellFormed, wellFormedMembers_iff]

theorem wellFormed_emptyObject : emptyObject.WellFormed := by simp [emptyObject]

theorem WellFormed.distinct {members : List (String × Json)} (h : WellFormed (.object members)) :
    Members.Distinct members := (wellFormed_object_iff.mp h).1

theorem WellFormed.of_get? {members : List (String × Json)} {name : String} {value : Json}
    (h : WellFormed (.object members)) (hv : Members.get? name members = some value) :
    value.WellFormed :=
  (wellFormed_object_iff.mp h).2 _ (Members.mem_of_get? hv)

theorem WellFormed.of_member? {value found : Json} {name : String} (h : value.WellFormed)
    (hf : value.member? name = some found) : found.WellFormed := by
  cases value with
  | object members => exact h.of_get? hf
  | _ => simp [member?] at hf

theorem WellFormed.of_getElem? {items : List Json} {i : Nat} {item : Json}
    (h : WellFormed (.array items)) (hi : items[i]? = some item) : item.WellFormed :=
  wellFormed_array_iff.mp h item (List.mem_of_getElem? hi)

/-! ## Reading gives well-formed documents -/

namespace Written

mutual

theorem wellFormed_of_toJson? : ∀ (written : Written) (value : Json),
    written.toJson? = some value → value.WellFormed
  | .null, value, h => by cases h; trivial
  | .bool b, value, h => by cases h; trivial
  | .number n, value, h => by
      obtain ⟨_, _, rfl⟩ := Option.map_eq_some_iff.mp h
      trivial
  | .string s, value, h => by
      obtain ⟨_, _, rfl⟩ := Option.map_eq_some_iff.mp h
      trivial
  | .array items, value, h => by
      obtain ⟨values, hvalues, rfl⟩ := Option.map_eq_some_iff.mp h
      exact wellFormed_array_iff.mpr (wellFormed_of_toItems? items values hvalues)
  | .object members, value, h => by
      obtain ⟨values, hvalues, rfl⟩ := Option.map_eq_some_iff.mp h
      refine wellFormed_object_iff.mpr ⟨Members.Distinct.ofList values, fun m hm => ?_⟩
      exact wellFormed_of_toMembers? members values hvalues m (Members.mem_of_mem_ofList hm)
termination_by structural written => written

theorem wellFormed_of_toItems? : ∀ (items : List Written) (values : List Json),
    toItems? items = some values → ∀ value ∈ values, value.WellFormed
  | [], values, h => by cases h; simp
  | item :: rest, values, h => by
      simp only [toItems?, Option.bind_eq_bind, Option.bind_eq_some_iff, Option.pure_def,
        Option.some.injEq] at h
      obtain ⟨value, hvalue, others, hothers, rfl⟩ := h
      exact List.forall_mem_cons.mpr
        ⟨wellFormed_of_toJson? item value hvalue, wellFormed_of_toItems? rest others hothers⟩
termination_by structural items => items

theorem wellFormed_of_toMembers? : ∀ (members : List (Option String × Written))
    (values : List (String × Json)), toMembers? members = some values →
    ∀ m ∈ values, m.2.WellFormed
  | [], values, h => by cases h; simp
  | (name, written) :: rest, values, h => by
      simp only [toMembers?, Option.bind_eq_bind, Option.bind_eq_some_iff, Option.pure_def,
        Option.some.injEq] at h
      obtain ⟨_, _, value, hvalue, others, hothers, rfl⟩ := h
      exact List.forall_mem_cons.mpr
        ⟨wellFormed_of_toJson? written value hvalue, wellFormed_of_toMembers? rest others hothers⟩
termination_by structural members => members

end

end Written

/-- Of two members of one name in a text the last value counts, so a document that was
read has distinct names throughout. -/
theorem wellFormed_of_read? {text : String} {value : Json} (h : read? text = some value) :
    value.WellFormed := by
  obtain ⟨written, -, hw⟩ := Option.bind_eq_some_iff.mp h
  exact Written.wellFormed_of_toJson? written value hw

end Curator.Json
