import Curator.Json.Equality
import Curator.Proofs.Json.WellFormed
import Mathlib.Data.List.Forall2

/-! # Laws of equality

Equality up to the order of members inherits reflexivity, symmetry and transitivity from the
equality of numbers. All but transitivity need distinct names.
-/

namespace Curator

namespace Json

variable {numbers : Number → Number → Bool} {a b c : Json}

theorem equalItems_iff {xs ys : List Json} :
    equalItems numbers xs ys = true ↔
      List.Forall₂ (fun x y => equalBy numbers x y = true) xs ys := by
  induction xs generalizing ys with
  | nil => cases ys <;> simp [equalItems]
  | cons x xs ih => cases ys <;> simp [equalItems, ih]

theorem equalMembers_iff {ms ns : List (String × Json)} :
    equalMembers numbers ms ns = true ↔
      ∀ m ∈ ms, ∃ y, Members.get? m.1 ns = some y ∧ equalBy numbers m.2 y = true := by
  induction ms with
  | nil => simp [equalMembers]
  | cons m rest ih =>
      obtain ⟨name, value⟩ := m
      rw [List.forall_mem_cons, ← ih]
      cases h : Members.get? name ns <;> simp [equalMembers, h]

theorem equalBy_array_iff {xs ys : List Json} :
    equalBy numbers (.array xs) (.array ys) = true ↔
      List.Forall₂ (fun x y => equalBy numbers x y = true) xs ys := equalItems_iff

theorem equalBy_object_iff {ms ns : List (String × Json)} :
    equalBy numbers (.object ms) (.object ns) = true ↔
      ms.length = ns.length ∧
        ∀ m ∈ ms, ∃ y, Members.get? m.1 ns = some y ∧ equalBy numbers m.2 y = true := by
  simp [equalBy, equalMembers_iff]

/-- What equals an array is an array. -/
theorem exists_array_of_equalBy {xs : List Json} (h : equalBy numbers (.array xs) b = true) :
    ∃ ys, b = .array ys := by
  cases b <;> first | exact ⟨_, rfl⟩ | simp [equalBy] at h

/-- What equals an object is an object. -/
theorem exists_object_of_equalBy {ms : List (String × Json)}
    (h : equalBy numbers (.object ms) b = true) : ∃ ns, b = .object ns := by
  cases b <;> first | exact ⟨_, rfl⟩ | simp [equalBy] at h

theorem equalBy_refl (hn : ∀ n, numbers n n = true) (h : a.WellFormed) :
    equalBy numbers a a = true := by
  induction a using Json.induction with
  | null => rfl
  | bool b => simp [equalBy]
  | number n => simpa [equalBy] using hn n
  | string s => simp [equalBy]
  | array items ih =>
      rw [equalBy_array_iff]
      exact List.forall₂_same.mpr fun item hi => ih item hi (wellFormed_array_iff.mp h item hi)
  | object members ih =>
      obtain ⟨hd, hvalues⟩ := wellFormed_object_iff.mp h
      rw [equalBy_object_iff]
      exact ⟨rfl, fun m hm => ⟨m.2, Members.get?_of_mem hd hm, ih m hm (hvalues m hm)⟩⟩

/-- As many names on both sides, and those of the one among those of the other, are the same
names, so each member on the right has its partner on the left. -/
theorem equalBy_symm (hn : ∀ m n, numbers m n = true → numbers n m = true) (ha : a.WellFormed)
    (hb : b.WellFormed) (h : equalBy numbers a b = true) : equalBy numbers b a = true := by
  induction a using Json.induction generalizing b with
  | null => cases b <;> simp_all [equalBy]
  | bool x => cases b <;> simp_all [equalBy]
  | string s => cases b <;> simp_all [equalBy]
  | number l =>
      cases b with
      | number m => exact hn l m h
      | _ => simp [equalBy] at h
  | array xs ih =>
      obtain ⟨ys, rfl⟩ := exists_array_of_equalBy h
      rw [wellFormed_array_iff] at ha hb
      rw [equalBy_array_iff] at h ⊢
      induction h with
      | nil => exact .nil
      | cons hx _ ihrest =>
          simp only [List.forall_mem_cons] at ih ha hb
          exact .cons (ih.1 ha.1 hb.1 hx) (ihrest ih.2 ha.2 hb.2)
  | object ms ih =>
      obtain ⟨ns, rfl⟩ := exists_object_of_equalBy h
      obtain ⟨hlength, hmembers⟩ := equalBy_object_iff.mp h
      have hsubset := Members.keys_subset_of_forall_get? hmembers
      have hsuperset := (Members.length_eq_iff_of_subset ha.distinct hb.distinct hsubset).mp hlength
      refine equalBy_object_iff.mpr ⟨hlength.symm, fun n hmem => ?_⟩
      have hname := hsuperset (Members.mem_keys_of_mem hmem)
      obtain ⟨x, hx⟩ := Option.isSome_iff_exists.mp (Members.isSome_get?_iff.mpr hname)
      obtain ⟨y, hy, hxy⟩ := hmembers (n.1, x) (Members.mem_of_get? hx)
      obtain rfl : n.2 = y := Option.some.inj ((Members.get?_of_mem hb.distinct hmem).symm.trans hy)
      exact ⟨x, hx, ih (n.1, x) (Members.mem_of_get? hx) (ha.of_get? hx) (hb.of_get? hy) hxy⟩

theorem equalBy_trans (hn : ∀ l m n, numbers l m = true → numbers m n = true → numbers l n = true)
    (hab : equalBy numbers a b = true) (hbc : equalBy numbers b c = true) :
    equalBy numbers a c = true := by
  induction a using Json.induction generalizing b c with
  | null => cases b <;> cases c <;> simp_all [equalBy]
  | bool x => cases b <;> cases c <;> simp_all [equalBy]
  | string s => cases b <;> cases c <;> simp_all [equalBy]
  | number l =>
      cases b <;> cases c <;> simp_all only [equalBy, Bool.false_eq_true]
      exact hn _ _ _ hab hbc
  | array xs ih =>
      obtain ⟨ys, rfl⟩ := exists_array_of_equalBy hab
      obtain ⟨zs, rfl⟩ := exists_array_of_equalBy hbc
      rw [equalBy_array_iff] at hab hbc ⊢
      induction hab generalizing zs with
      | nil => exact hbc
      | cons hx _ ihrest =>
          cases hbc with
          | cons hy hrest =>
              refine .cons (ih _ List.mem_cons_self hx hy) ?_
              exact ihrest (fun x hx => ih x (List.mem_cons_of_mem _ hx)) _ hrest
  | object ms ih =>
      obtain ⟨ns, rfl⟩ := exists_object_of_equalBy hab
      obtain ⟨os, rfl⟩ := exists_object_of_equalBy hbc
      rw [equalBy_object_iff] at hab hbc ⊢
      refine ⟨hab.1.trans hbc.1, fun m hm => ?_⟩
      obtain ⟨y, hy, hxy⟩ := hab.2 m hm
      obtain ⟨z, hz, hyz⟩ := hbc.2 _ (Members.mem_of_get? hy)
      exact ⟨z, hz, ih m hm hxy hyz⟩

/-- The more numbers count as equal, the more documents do. -/
theorem equalBy_mono {others : Number → Number → Bool}
    (hn : ∀ m n, numbers m n = true → others m n = true) (h : equalBy numbers a b = true) :
    equalBy others a b = true := by
  induction a using Json.induction generalizing b with
  | null => cases b <;> simp_all [equalBy]
  | bool x => cases b <;> simp_all [equalBy]
  | string s => cases b <;> simp_all [equalBy]
  | number l =>
      cases b with
      | number m => exact hn l m h
      | _ => simp [equalBy] at h
  | array xs ih =>
      obtain ⟨ys, rfl⟩ := exists_array_of_equalBy h
      rw [equalBy_array_iff] at h ⊢
      induction h with
      | nil => exact .nil
      | cons hx _ ihrest =>
          simp only [List.forall_mem_cons] at ih
          exact .cons (ih.1 hx) (ihrest ih.2)
  | object ms ih =>
      obtain ⟨ns, rfl⟩ := exists_object_of_equalBy h
      obtain ⟨hlength, hmembers⟩ := equalBy_object_iff.mp h
      refine equalBy_object_iff.mpr ⟨hlength, fun m hm => ?_⟩
      obtain ⟨y, hy, hxy⟩ := hmembers m hm
      exact ⟨y, hy, ih m hm hxy⟩

end Json

/-! ## The two equalities of numbers -/

namespace Number

@[simp] theorem same_self (n : Number) : same n n = true := by cases n <;> simp [same]

theorem same_symm {m n : Number} (h : same m n = true) : same n m = true := by
  cases m <;> cases n <;> simp_all [same]

theorem same_trans {l m n : Number} (hlm : same l m = true) (hmn : same m n = true) :
    same l n = true := by
  cases l <;> cases m <;> cases n <;> simp_all [same]

@[simp] theorem sameQuantity_self (n : Number) : sameQuantity n n = true := by simp [sameQuantity]

theorem sameQuantity_symm {m n : Number} (h : sameQuantity m n = true) :
    sameQuantity n m = true := by
  simp_all [sameQuantity]

theorem sameQuantity_trans {l m n : Number} (hlm : sameQuantity l m = true)
    (hmn : sameQuantity m n = true) : sameQuantity l n = true := by
  simp_all [sameQuantity]

end Number

namespace Json

variable {a b c : Json}

theorem equal_refl (h : a.WellFormed) : a.equal a = true := equalBy_refl Number.same_self h

theorem equal_symm (ha : a.WellFormed) (hb : b.WellFormed) (h : a.equal b = true) :
    b.equal a = true := equalBy_symm (fun _ _ => Number.same_symm) ha hb h

theorem equal_trans (hab : a.equal b = true) (hbc : b.equal c = true) : a.equal c = true :=
  equalBy_trans (fun _ _ _ => Number.same_trans) hab hbc

end Json

end Curator
