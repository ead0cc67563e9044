import Curator.Proofs.Visibility.RuleSet
import Curator.Visibility.Hiding
import Mathlib.Data.List.Induction

/-! # Rule sets by what was declared

A rule set holds, for each pointer, the predicate that was put in last, unless the rule was taken
out after that. As its rules stand in the byte order of their pointers, nothing else of the history
shows: neither in the set nor in what it hides. A document of rules and what is written of it
declare the same rules.
-/

namespace Curator.RuleSet

variable {rules others : RuleSet} {listed : List (String × String)}

/-! ## Reading a set -/

theorem get?_insertRule (path predicate other : String) (listed : List (String × String)) :
    Members.get? other (insertRule path predicate listed) =
      if path = other then some predicate else Members.get? other listed := by
  induction listed with
  | nil => rfl
  | cons first rest ih =>
      obtain ⟨key, old⟩ := first
      rw [insertRule]
      split
      · next hkey =>
          subst hkey
          rw [Members.get?, Members.get?]
          split <;> rfl
      · next hkey =>
          split
          · rfl
          · rw [Members.get?, Members.get?, ih]
            by_cases hother : key = other
            · rw [if_pos hother, if_neg fun hpath => hkey (hpath.trans hother.symm), if_pos hother]
            · rw [if_neg hother, if_neg hother]

theorem Ascending.distinct (h : Ascending listed) : Members.Distinct listed := by
  have hkeys : (Members.keys listed).Pairwise fun a b => ByteOrder.lt a b = true :=
    List.pairwise_map.mpr h
  exact hkeys.imp ByteOrder.ne_of_lt

theorem get?_insert (rules : RuleSet) (path predicate other : String) :
    (rules.insert path predicate).get? other =
      if path = other then some predicate else rules.get? other :=
  get?_insertRule path predicate other rules.rules

theorem Built.get?_erase (h : Built rules) (path other : String) :
    (rules.erase path).get? other = if path = other then none else rules.get? other := by
  refine (Members.get?_erase h.ascending.distinct path other).trans ?_
  simp only [eq_comm (a := other), get?]

/-- A set is determined by what it holds for each pointer. -/
theorem Built.ext (h : Built rules) (h' : Built others)
    (hget : ∀ path, rules.get? path = others.get? path) : rules = others := by
  have hperm : rules.rules.Perm others.rules :=
    Members.perm_of_get?_eq h.ascending.distinct h'.ascending.distinct hget
  have heq : rules.rules = others.rules := by
    refine hperm.eq_of_pairwise (fun a b _ _ hab hba => ?_) h.ascending h'.ascending
    exact absurd rfl (ByteOrder.ne_of_lt (ByteOrder.lt_trans hab hba))
  cases rules
  cases others
  exact congrArg RuleSet.mk heq

/-! ## Declarations -/

/-- A rule that is put in or taken out. -/
inductive Declaration where
  | insert (path predicate : String)
  | erase (path : String)

namespace Declaration

def path : Declaration → String
  | insert path _ => path
  | erase path => path

def predicate? : Declaration → Option String
  | insert _ predicate => some predicate
  | erase _ => none

end Declaration

def declare (rules : RuleSet) : Declaration → RuleSet
  | .insert path predicate => rules.insert path predicate
  | .erase path => rules.erase path

def declared (declarations : List Declaration) : RuleSet := declarations.foldl declare empty

/-- What the last declaration for a pointer leaves. -/
def lastPredicate? (declarations : List Declaration) (path : String) : Option String :=
  (declarations.filter fun d => d.path = path).getLast?.bind Declaration.predicate?

theorem Built.declare (h : Built rules) (d : Declaration) : Built (rules.declare d) := by
  cases d with
  | insert path predicate => exact h.insert path predicate
  | erase path => exact h.erase path

theorem Built.get?_declare (h : Built rules) (d : Declaration) (path : String) :
    (rules.declare d).get? path = if d.path = path then d.predicate? else rules.get? path := by
  cases d with
  | insert other predicate => exact get?_insert rules other predicate path
  | erase other => exact h.get?_erase other path

theorem declared_append (declarations : List Declaration) (d : Declaration) :
    declared (declarations ++ [d]) = (declared declarations).declare d := List.foldl_append

theorem built_declared (declarations : List Declaration) : Built (declared declarations) := by
  induction declarations using List.reverseRecOn with
  | nil => exact .empty
  | append_singleton rest d ih =>
      rw [declared_append]
      exact ih.declare d

theorem lastPredicate?_append (declarations : List Declaration) (d : Declaration) (path : String) :
    lastPredicate? (declarations ++ [d]) path =
      if d.path = path then d.predicate? else lastPredicate? declarations path := by
  unfold lastPredicate?
  rw [List.filter_append]
  by_cases hpath : d.path = path
  · simp [hpath]
  · simp [hpath]

theorem get?_declared (declarations : List Declaration) (path : String) :
    (declared declarations).get? path = lastPredicate? declarations path := by
  induction declarations using List.reverseRecOn with
  | nil => rfl
  | append_singleton rest d ih =>
      rw [declared_append, (built_declared rest).get?_declare, lastPredicate?_append, ih]

theorem ofList_eq_declared (listed : List (String × String)) :
    ofList listed = declared (listed.map fun rule => .insert rule.1 rule.2) := by
  rw [declared, List.foldl_map]
  rfl

/-! ## Documents of rules -/

theorem ofMembers_eq_iff {members : List (String × Json)} :
    Json.Written.ofMembers members =
        listed.map (fun rule => (some rule.1, .string (some rule.2))) ↔
      members = listed.map fun rule => (rule.1, .string rule.2) := by
  induction members generalizing listed with
  | nil => cases listed <;> simp [Json.Written.ofMembers]
  | cons m rest ih =>
      obtain ⟨name, value⟩ := m
      cases listed with
      | nil => simp [Json.Written.ofMembers]
      | cons rule more => cases value <;> simp [Json.Written.ofMembers, Json.Written.ofJson, ih]

theorem ofJson_eq_iff {document : Json} :
    Json.Written.ofJson document =
        .object (listed.map fun rule => (some rule.1, .string (some rule.2))) ↔
      document = .object (listed.map fun rule => (rule.1, .string rule.2)) := by
  cases document with
  | object members => simpa [Json.Written.ofJson] using ofMembers_eq_iff
  | _ => simp [Json.Written.ofJson]

theorem ofWritten?_ofJson_eq_some_iff {document : Json} :
    ofWritten? (.ofJson document) = some rules ↔ ofJson document = .ok rules := by
  rw [ofWritten?_eq_some_iff, ofJson_eq_ok_iff]
  exact exists_congr fun listed => and_congr_left' ofJson_eq_iff

/-- Iterating over the rules that were declared comes to every pointer that still has one once, in
the byte order of the pointers, with the predicate that was put in last. Two sequences that leave
the same predicates last make one set, which hides the same. The rules of a document are those that
are read from what is written of it: its members, if all of them are strings, as declarations. -/
theorem declared_in_any_order :
    (∀ declarations : List Declaration,
      Ascending (declared declarations).rules ∧ Members.Distinct (declared declarations).rules ∧
        ∀ path predicate, (path, predicate) ∈ (declared declarations).rules ↔
          lastPredicate? declarations path = some predicate) ∧
    (∀ declarations others : List Declaration,
      (∀ path, lastPredicate? declarations path = lastPredicate? others path) →
        declared declarations = declared others ∧
          ∀ (σ : Type) (evaluator : Evaluator σ) (document : Json) (state : σ),
            Visibility.hide evaluator (declared declarations) document state =
              Visibility.hide evaluator (declared others) document state) ∧
    ∀ (document : Json) (rules : RuleSet),
      (ofJson document = .ok rules ↔ ofWritten? (.ofJson document) = some rules) ∧
      (ofJson document = .ok rules ↔ ∃ listed : List (String × String),
        document = .object (listed.map fun rule => (rule.1, .string rule.2)) ∧
          declared (listed.map fun rule => .insert rule.1 rule.2) = rules) := by
  refine ⟨fun declarations => ?_, fun declarations others hlast => ?_, fun document rules => ?_⟩
  · have hascending := (built_declared declarations).ascending
    refine ⟨hascending, hascending.distinct, fun path predicate => ?_⟩
    rw [← Members.get?_eq_some_iff hascending.distinct, ← get?_declared]
    rfl
  · have hsame : declared declarations = declared others := by
      refine (built_declared declarations).ext (built_declared others) fun path => ?_
      rw [get?_declared, get?_declared, hlast path]
    exact ⟨hsame, fun σ evaluator document state => by rw [hsame]⟩
  · refine ⟨ofWritten?_ofJson_eq_some_iff.symm, ?_⟩
    simp only [← ofList_eq_declared]
    exact ofJson_eq_ok_iff

/-- The bytes put the pointer of an emoji behind one in the basic plane; a rule that was taken out
and put in again, and one that was only taken out, leave no trace. -/
theorem declared_in_any_order_of_retaken :
    let first : List Declaration :=
      [.insert "/😀" "false", .insert "/ｚ" "true", .erase "/😀", .insert "/b" "index",
        .insert "/😀" "true", .erase "/b"]
    let second : List Declaration := [.insert "/ｚ" "true", .insert "/😀" "true"]
    let document : Json := .object [("/😀", .string "true"), ("/ｚ", .string "true")]
    (∀ path, lastPredicate? first path = lastPredicate? second path) ∧
      (declared first).rules = [("/ｚ", "true"), ("/😀", "true")] ∧
      Visibility.hide .expressions (declared first) document () =
        Visibility.hide .expressions (declared second) document () ∧
      ofWritten? (.ofJson document) = some (declared first) := by
  intro first second document
  have hlast : ∀ path, lastPredicate? first path = lastPredicate? second path := by
    intro path
    by_cases hnamed : path = "/😀" ∨ path = "/ｚ" ∨ path = "/b"
    · rcases hnamed with rfl | rfl | rfl <;> rfl
    · obtain ⟨hemoji, hplane, hb⟩ : "/😀" ≠ path ∧ "/ｚ" ≠ path ∧ "/b" ≠ path := by
        simpa [eq_comm] using hnamed
      simp [lastPredicate?, first, second, Declaration.path, hemoji, hplane, hb]
  obtain ⟨-, horder, hdocument⟩ := declared_in_any_order
  obtain ⟨hsame, hhide⟩ := horder first second hlast
  have hrules : (declared second).rules = [("/ｚ", "true"), ("/😀", "true")] := by decide +kernel
  refine ⟨hlast, by rw [hsame, hrules], hhide Unit .expressions document (), ?_⟩
  refine ((hdocument document (declared first)).1.mp ((hdocument document _).2.mpr ?_))
  refine ⟨[("/😀", "true"), ("/ｚ", "true")], rfl, ?_⟩
  rw [hsame]
  decide +kernel

end Curator.RuleSet
