import Curator.Predicate.Eval
import Curator.Proofs.Pointer.Removing

/-! # What predicates look up

A predicate that goes from the model to a part, by names and positions, sees what a pointer of
these steps leads to, and null where the pointer leads nowhere. Past that point every further
step gives null again.
-/

namespace Curator

theorem toString_ne_length (i : Nat) : toString i ≠ "length" := by
  intro h
  have hmem : 'l' ∈ (toString i).toList := by
    rw [h]
    decide
  rw [Segment.toList_toString] at hmem
  exact absurd (Digits.isDigit_of_mem_ofNat hmem) (by decide)

namespace Predicate

variable {document value : Json} {index : Option Nat} {p : Pointer} {e : Expr} {name : String}
  {n : Number} {i : Nat}

/-! ## One step -/

/-- Only arrays and strings have a property that is not a member. -/
theorem property_eq (h : name ≠ "length") (value : Json) :
    property value name = (value.child? (.key name)).getD .null := by
  cases value <;> simp [property, Json.child?, h]

theorem select_position (hn : n.toNat? = some i) (value : Json) :
    select value (.number n) = .ok ((value.child? (.index i)).getD .null) := by
  unfold select
  dsimp only
  rw [hn]
  cases value with
  | array items => rfl
  | object members => rfl
  | _ => exact congrArg Except.ok (property_eq (toString_ne_length i) _)

/-- A step from what a pointer leads to, or from null where it leads nowhere. -/
theorem child?_getD (found : Option Json) (s : Segment) :
    (((found.getD .null).child? s).getD .null) =
      ((found.bind fun value => value.get? [s]).getD .null) := by
  cases found with
  | some value => rw [Option.bind_some, Json.get?_singleton, Option.getD_some]
  | none => cases s <;> rfl

/-! ## Many steps -/

/-- The expression goes from the model by the steps of the pointer: by a text or a member for a
name, and by an unsigned integer for a position. -/
inductive LooksUp : Pointer → Expr → Prop where
  | model : LooksUp [] .model
  | text {p : Pointer} {e : Expr} (h : LooksUp p e) (name : String) :
      LooksUp (p ++ [.key name]) (.subscript e (.literal (.string name)))
  | member {p : Pointer} {e : Expr} (h : LooksUp p e) (name : String) :
      LooksUp (p ++ [.key name]) (.member e name)
  | position {p : Pointer} {e : Expr} {n : Number} {i : Nat} (h : LooksUp p e)
      (hn : n.toNat? = some i) : LooksUp (p ++ [.index i]) (.subscript e (.literal (.number n)))

theorem not_mem_append_key (h : .key "length" ∉ p ++ [.key name]) :
    .key "length" ∉ p ∧ name ≠ "length" := by
  refine ⟨fun hp => h (List.mem_append_left _ hp), fun heq => h ?_⟩
  rw [heq]
  exact List.mem_append_right _ (List.mem_singleton_self _)

theorem property_append_key (hname : name ≠ "length") :
    property ((document.get? p).getD .null) name =
      (document.get? (p ++ [.key name])).getD .null := by
  rw [property_eq hname, child?_getD, Json.get?_append]

theorem eval_lookup (h : LooksUp p e) (hlength : .key "length" ∉ p) :
    eval document index e = .ok ((document.get? p).getD .null) := by
  induction h with
  | model => rfl
  | text _ name ih =>
      obtain ⟨hp, hname⟩ := not_mem_append_key hlength
      rw [eval, ih hp, ← property_append_key hname]
      rfl
  | member _ name ih =>
      obtain ⟨hp, hname⟩ := not_mem_append_key hlength
      rw [eval, ih hp, ← property_append_key hname]
      rfl
  | position _ hn ih =>
      obtain ⟨hp, -⟩ := not_or.mp (mt List.mem_append.mpr hlength)
      rw [eval, ih hp, Json.get?_append, ← child?_getD]
      exact select_position hn _

theorem exists_lookup (hconcrete : .wildcard ∉ p)
    (hpositions : ∀ i, .index i ∈ p → i < Segment.positionBound) : ∃ e, LooksUp p e := by
  induction p using List.reverseRecOn with
  | nil => exact ⟨_, .model⟩
  | append_singleton p s ih =>
      obtain ⟨hp, hs⟩ := not_or.mp (mt List.mem_append.mpr hconcrete)
      obtain ⟨e, he⟩ := ih hp fun i hi => hpositions i (List.mem_append_left _ hi)
      cases s with
      | key name => exact ⟨_, he.text name⟩
      | index i => exact ⟨_, he.position (Number.toNat?_ofCount (hpositions i (by simp)))⟩
      | wildcard => exact absurd (List.mem_singleton_self _) hs

/-- Every way to spell the steps of a pointer in a predicate sees what the pointer leads to. -/
theorem lookups_see_pointers (hconcrete : .wildcard ∉ p)
    (hpositions : ∀ i, .index i ∈ p → i < Segment.positionBound)
    (hlength : .key "length" ∉ p) (document : Json) (index : Option Nat) :
    (∃ e, LooksUp p e) ∧
      ∀ e, LooksUp p e → eval document index e = .ok ((document.get? p).getD .null) :=
  ⟨exists_lookup hconcrete hpositions, fun _ h => eval_lookup h hlength⟩

/-- A position is a name on an object, and past the end of an array there is null all the way. -/
theorem lookups_see_pointers_of_positions :
    let document := Json.object [("a", .array [.null, .object [("7", .string "seven")]])]
    let item (e : Expr) (i : Nat) := Expr.subscript e (.literal (.number (.ofCount i)))
    eval document none (item (item (.member .model "a") 1) 7) = .ok (.string "seven") ∧
      eval document none (.subscript (item (item (.member .model "a") 2) 7) (.literal (.string "b"))) =
        .ok .null := by
  intro document item
  have hfound : LooksUp [.key "a", .index 1, .index 7] (item (item (.member .model "a") 1) 7) :=
    ((LooksUp.model.member "a").position rfl).position rfl
  have hmissing : LooksUp [.key "a", .index 2, .index 7, .key "b"]
      (.subscript (item (item (.member .model "a") 2) 7) (.literal (.string "b"))) :=
    (((LooksUp.model.member "a").position rfl).position rfl).text "b"
  exact ⟨(lookups_see_pointers (by decide) (by simp [Segment.positionBound, UInt64.size])
      (by decide) document none).2 _ hfound,
    (lookups_see_pointers (by decide) (by simp [Segment.positionBound, UInt64.size])
      (by decide) document none).2 _ hmissing⟩

end Predicate

end Curator
