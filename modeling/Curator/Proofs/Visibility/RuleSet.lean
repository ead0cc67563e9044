import Curator.Proofs.Document.KeyOrder
import Curator.Proofs.Except
import Curator.Visibility.RuleSet

/-! # The order of rules

Rules are put in and taken out one at a time. Whatever was put in and taken out, and in whatever
order, the rules of a set stand in the byte order of their pointers, one for each.
-/

namespace Curator

namespace ByteOrder

variable {a b c : String}

theorem lt_iff : lt a b = true ↔ bytes a < bytes b := decide_eq_true_iff

theorem ne_of_lt (h : lt a b = true) : a ≠ b := by
  rintro rfl
  exact List.lt_irrefl _ (lt_iff.mp h)

theorem lt_trans (h : lt a b = true) (h' : lt b c = true) : lt a c = true :=
  lt_iff.mpr (List.lt_trans (lt_iff.mp h) (lt_iff.mp h'))

/-- Of two texts one comes first. -/
theorem lt_of_not_lt (hne : a ≠ b) (h : lt a b = false) : lt b a = true := by
  have hle : le b a = true := by rw [le, h]; rfl
  by_contra hlt
  have hle' : le a b = true := by rw [le, Bool.not_eq_true _ |>.mp hlt]; rfl
  exact hne (le_antisymm hle' hle)

end ByteOrder

namespace RuleSet

variable {rules : RuleSet} {path predicate : String} {listed : List (String × String)}

/-- The sets that come of putting rules in and taking rules out. -/
inductive Built : RuleSet → Prop where
  | empty : Built .empty
  | insert {rules : RuleSet} (h : Built rules) (path predicate : String) :
      Built (rules.insert path predicate)
  | erase {rules : RuleSet} (h : Built rules) (path : String) : Built (rules.erase path)

def Ascending (listed : List (String × String)) : Prop :=
  listed.Pairwise fun a b => ByteOrder.lt a.1 b.1 = true

theorem mem_insertRule {rule : String × String} (h : rule ∈ insertRule path predicate listed) :
    rule = (path, predicate) ∨ rule ∈ listed := by
  induction listed with
  | nil => exact .inl (List.mem_singleton.mp h)
  | cons first rest ih =>
      obtain ⟨key, old⟩ := first
      rw [insertRule] at h
      split at h
      · rcases List.mem_cons.mp h with rfl | hrest
        · exact .inl rfl
        · exact .inr (List.mem_cons_of_mem _ hrest)
      · split at h
        · exact List.mem_cons.mp h
        · rcases List.mem_cons.mp h with rfl | hrest
          · exact .inr List.mem_cons_self
          · exact (ih hrest).imp id (List.mem_cons_of_mem _)

theorem Ascending.insertRule (h : Ascending listed) (path predicate : String) :
    Ascending (RuleSet.insertRule path predicate listed) := by
  induction listed with
  | nil => exact List.pairwise_singleton _ _
  | cons first rest ih =>
      obtain ⟨key, old⟩ := first
      obtain ⟨hfirst, hrest⟩ := List.pairwise_cons.mp h
      rw [RuleSet.insertRule]
      split
      · next hkey => exact List.pairwise_cons.mpr ⟨hkey ▸ hfirst, hrest⟩
      · next hkey =>
          split
          · next hlt =>
              have hbehind : ∀ rule ∈ rest, ByteOrder.lt path rule.1 = true := fun rule hrule =>
                ByteOrder.lt_trans hlt (hfirst rule hrule)
              exact List.pairwise_cons.mpr ⟨List.forall_mem_cons.mpr ⟨hlt, hbehind⟩, h⟩
          · next hlt =>
              refine List.pairwise_cons.mpr ⟨fun rule hrule => ?_, ih hrest⟩
              rcases mem_insertRule hrule with rfl | hold
              · exact ByteOrder.lt_of_not_lt hkey (Bool.eq_false_iff.mpr hlt)
              · exact hfirst rule hold

theorem Built.ascending (h : Built rules) : Ascending rules.rules := by
  induction h with
  | empty => exact List.Pairwise.nil
  | insert _ path predicate ih => exact ih.insertRule path predicate
  | erase _ path ih => exact ih.sublist (Members.erase_sublist path _)

/-! ## Every way to make a rule set -/

theorem built_ofList (listed : List (String × String)) : Built (ofList listed) := by
  have hfold : ∀ rules, Built rules →
      Built (listed.foldl (fun set rule => set.insert rule.1 rule.2) rules) := by
    induction listed with
    | nil => exact fun _ h => h
    | cons rule rest ih => exact fun _ h => ih _ (h.insert rule.1 rule.2)
  exact hfold .empty .empty

/-- A document of rules is an object of strings, put in one after another. -/
theorem ofJson_eq_ok_iff {document : Json} :
    ofJson document = .ok rules ↔ ∃ listed : List (String × String),
      document = .object (listed.map fun rule => (rule.1, .string rule.2)) ∧
        ofList listed = rules := by
  constructor
  · intro h
    unfold ofJson at h
    split at h
    · next members =>
        unfold ofList
        generalize empty = start at h ⊢
        induction members generalizing start with
        | nil =>
            cases h
            exact ⟨[], rfl, rfl⟩
        | cons m rest ih =>
            obtain ⟨path, value⟩ := m
            rw [List.foldlM_cons] at h
            obtain ⟨next, hnext, hrest⟩ := bind_eq_ok_iff.mp h
            cases value with
            | string predicate =>
                cases hnext
                obtain ⟨listed, hlisted, hrules⟩ := ih _ hrest
                cases hlisted
                exact ⟨(path, predicate) :: listed, rfl, hrules⟩
            | _ => cases hnext
    · cases h
  · rintro ⟨listed, rfl, rfl⟩
    unfold ofJson ofList
    generalize empty = start
    induction listed generalizing start with
    | nil => rfl
    | cons rule rest ih => exact ih (start.insert rule.1 rule.2)

/-- What is written holds rules where it is an object of strings. -/
theorem ofWritten?_eq_some_iff {written : Json.Written} :
    ofWritten? written = some rules ↔ ∃ listed : List (String × String),
      written = .object (listed.map fun rule => (some rule.1, .string (some rule.2))) ∧
        ofList listed = rules := by
  constructor
  · intro h
    unfold ofWritten? at h
    split at h
    · next members =>
        unfold ofList
        generalize empty = start at h ⊢
        induction members generalizing start with
        | nil =>
            cases h
            exact ⟨[], rfl, rfl⟩
        | cons m rest ih =>
            obtain ⟨name, value⟩ := m
            rw [List.foldlM_cons] at h
            obtain ⟨next, hnext, hrest⟩ := Option.bind_eq_some_iff.mp h
            obtain ⟨path, rfl, hinsert⟩ := Option.bind_eq_some_iff.mp hnext
            split at hinsert
            · next predicate =>
                cases hinsert
                obtain ⟨listed, hlisted, hrules⟩ := ih _ hrest
                cases hlisted
                exact ⟨(path, predicate) :: listed, rfl, hrules⟩
            · cases hinsert
    · cases h
  · rintro ⟨listed, rfl, rfl⟩
    unfold ofWritten? ofList
    generalize empty = start
    induction listed generalizing start with
    | nil => rfl
    | cons rule rest ih => exact ih (start.insert rule.1 rule.2)

theorem built_of_ofJson {document : Json} (h : ofJson document = .ok rules) : Built rules := by
  obtain ⟨listed, -, rfl⟩ := ofJson_eq_ok_iff.mp h
  exact built_ofList listed

theorem built_of_ofWritten? {written : Json.Written} (h : ofWritten? written = some rules) :
    Built rules := by
  obtain ⟨listed, -, rfl⟩ := ofWritten?_eq_some_iff.mp h
  exact built_ofList listed

theorem built_of_read? {text : String} (h : read? text = some rules) : Built rules := by
  obtain ⟨document, -, hwritten⟩ := Option.bind_eq_some_iff.mp h
  exact built_of_ofWritten? hwritten

end RuleSet

end Curator
