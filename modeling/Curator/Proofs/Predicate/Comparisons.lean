import Curator.Proofs.Binary64
import Curator.Proofs.Json.SameValue
import Curator.Proofs.Predicate.KeyOrder
import Curator.Proofs.Visibility.RuleSet

/-! # The comparison operators

Equality in predicates is an equivalence that takes in the equality of values and does not see
the order of members. On numbers and on strings it is one of the three cases of an order, and the
four ordering operators tell which; they fail on everything else.
-/

namespace Curator

/-! ## Loose equality -/

namespace Number

variable {m n : Number} {x y : Binary64}

/-- Equal values are equal quantities. -/
theorem sameQuantity_of_same (h : same m n = true) : sameQuantity m n = true := by
  cases m <;> cases n <;> simp_all [same, sameQuantity, toBinary64?]

theorem sameQuantity_iff (hm : m.toBinary64? = some x) (hn : n.toBinary64? = some y) :
    sameQuantity m n = true ↔ compare x.value y.value = .eq := by
  rw [sameQuantity, hm, hn, ← Binary64.compare_rank, compare_eq_iff_eq]
  simp

end Number

namespace Json

theorem equivalence_looselyEqual :
    Equivalence fun a b : { value : Json // value.WellFormed } => a.1.looselyEqual b.1 = true where
  refl a := equalBy_refl Number.sameQuantity_self a.2
  symm {a b} h := equalBy_symm (fun _ _ => Number.sameQuantity_symm) a.2 b.2 h
  trans h h' := equalBy_trans (fun _ _ _ => Number.sameQuantity_trans) h h'

theorem SameValue.looselyEqual {a b : Json} (ha : a.WellFormed) (hb : b.WellFormed)
    (h : SameValue a b) : a.looselyEqual b = true :=
  equalBy_mono (fun _ _ => Number.sameQuantity_of_same) ((equal_iff_sameValue ha hb).mpr h)

end Json

/-! ## Orders of operands -/

namespace Predicate

variable {document : Json} {index : Option Nat} {left right : Expr} {a b : Json} {o : Ordering}
  {m n : Number} {x y : Binary64} {s t : String} {op : BinaryOp}

theorem order_numbers (hm : m.toBinary64? = some x) (hn : n.toBinary64? = some y) :
    order (.number m) (.number n) = .ok (compare x.value y.value) := by
  rw [order, hm, hn]
  exact congrArg Except.ok (Binary64.compare_rank x y)

theorem exists_order_strings (s t : String) :
    ∃ o, order (.string s) (.string t) = .ok o ∧
      (o = .lt ↔ ByteOrder.lt s t = true) ∧ (o = .eq ↔ s = t) := by
  refine ⟨_, rfl, ?_⟩
  split
  · next hlt => exact ⟨by simp [hlt], by simp [ByteOrder.ne_of_lt hlt]⟩
  · next hnot =>
      split
      · next hgt => exact ⟨by simp [hnot], by simp [(ByteOrder.ne_of_lt hgt).symm]⟩
      · next hnot' =>
          have heq : s = t := by
            by_contra hne
            exact hnot' (ByteOrder.lt_of_not_lt hne (Bool.eq_false_iff.mpr hnot))
          exact ⟨by simp [hnot], by simp [heq]⟩

theorem order_eq_error (hnumbers : ¬ (a.kind = .number ∧ b.kind = .number))
    (hstrings : ¬ (a.kind = .string ∧ b.kind = .string)) :
    order a b = .error (.cannotCompare a.kind b.kind) := by
  cases a <;> cases b <;> simp_all [order, Json.kind]

/-- Operands are loosely equal exactly if neither comes before the other. -/
theorem looselyEqual_eq_of_order (h : order a b = .ok o) : a.looselyEqual b = (o == .eq) := by
  rw [Bool.eq_iff_iff, beq_iff_eq]
  cases a with
  | number m =>
      cases b with
      | number n =>
          obtain ⟨x, hm⟩ := m.exists_toBinary64?
          obtain ⟨y, hn⟩ := n.exists_toBinary64?
          rw [order_numbers hm hn] at h
          cases h
          exact Number.sameQuantity_iff hm hn
      | _ => cases h
  | string s =>
      cases b with
      | string t =>
          obtain ⟨o', ho', -, heq⟩ := exists_order_strings s t
          cases ho'.symm.trans h
          rw [heq]
          exact beq_iff_eq
      | _ => cases h
  | _ => cases h

/-! ## Operators -/

def BinaryOp.orderings : List BinaryOp := [.less, .lessEqual, .greater, .greaterEqual]

theorem eval_ordering (hl : eval document index left = .ok a)
    (hr : eval document index right = .ok b) (hop : op ∈ BinaryOp.orderings) :
    eval document index (.binary op left right) =
      (order a b).map fun o => .bool (op.accepts o) := by
  have heval : eval document index (.binary op left right) = (do
      let a ← eval document index left
      let b ← eval document index right
      let o ← order a b
      return .bool (op.accepts o)) := by
    simp only [BinaryOp.orderings, List.mem_cons, List.not_mem_nil, or_false] at hop
    rcases hop with rfl | rfl | rfl | rfl <;> rfl
  rw [heval, hl, hr]
  change (order a b).bind _ = _
  cases order a b <;> rfl

/-- What the comparison operators answer about operands that stand in the order `o`. -/
structure ComparesAs (document : Json) (index : Option Nat) (left right : Expr) (o : Ordering) :
    Prop where
  less : eval document index (.binary .less left right) = .ok (.bool (o == .lt))
  equal : eval document index (.binary .equal left right) = .ok (.bool (o == .eq))
  greater : eval document index (.binary .greater left right) = .ok (.bool (o == .gt))
  lessEqual : eval document index (.binary .lessEqual left right) =
    .ok (.bool (o == .lt || o == .eq))
  greaterEqual : eval document index (.binary .greaterEqual left right) =
    .ok (.bool (o == .gt || o == .eq))

theorem eval_equal (hl : eval document index left = .ok a)
    (hr : eval document index right = .ok b) :
    eval document index (.binary .equal left right) = .ok (.bool (a.looselyEqual b)) := by
  rw [eval, hl, hr]
  rfl

theorem comparesAs_of_order (hl : eval document index left = .ok a)
    (hr : eval document index right = .ok b) (ho : order a b = .ok o) :
    ComparesAs document index left right o := by
  have hordering : ∀ op ∈ BinaryOp.orderings,
      eval document index (.binary op left right) = .ok (.bool (op.accepts o)) := by
    intro op hop
    rw [eval_ordering hl hr hop, ho]
    rfl
  refine ⟨hordering .less (by decide), ?_, hordering .greater (by decide), ?_, ?_⟩
  · rw [eval_equal hl hr, looselyEqual_eq_of_order ho]
  · rw [hordering .lessEqual (by decide)]
    cases o <;> rfl
  · rw [hordering .greaterEqual (by decide)]
    cases o <;> rfl

/-- The comparison operators on operands with the values `a` and `b`: numbers compare as the
values of their nearest floats and strings by their bytes, and nothing else has an order. -/
structure Coherent (document : Json) (index : Option Nat) (left right : Expr) (a b : Json) :
    Prop where
  equal : eval document index (.binary .equal left right) = .ok (.bool (a.looselyEqual b))
  notEqual : eval document index (.binary .notEqual left right) = .ok (.bool (!a.looselyEqual b))
  contains : ∀ items, a = .array items →
    eval document index (.call .contains [left, right]) =
      .ok (.bool (items.any (·.looselyEqual b)))
  numbers : ∀ m n, a = .number m → b = .number n →
    ∃ x y, m.toBinary64? = some x ∧ x.Nearest m.quantity ∧
      n.toBinary64? = some y ∧ y.Nearest n.quantity ∧
      ComparesAs document index left right (compare x.value y.value)
  strings : ∀ s t, a = .string s → b = .string t →
    ∃ o, ComparesAs document index left right o ∧
      (o = .lt ↔ ByteOrder.lt s t = true) ∧ (o = .eq ↔ s = t)
  others : ¬ (a.kind = .number ∧ b.kind = .number) → ¬ (a.kind = .string ∧ b.kind = .string) →
    ∀ op ∈ BinaryOp.orderings,
      eval document index (.binary op left right) = .error (.cannotCompare a.kind b.kind)

theorem coherent (hl : eval document index left = .ok a) (hr : eval document index right = .ok b) :
    Coherent document index left right a b where
  equal := eval_equal hl hr
  notEqual := by
    rw [eval, hl, hr]
    rfl
  contains := by
    rintro items rfl
    rw [eval, hl, hr]
    rfl
  numbers := by
    rintro m n rfl rfl
    obtain ⟨x, hm⟩ := m.exists_toBinary64?
    obtain ⟨y, hn⟩ := n.exists_toBinary64?
    exact ⟨x, y, hm, Number.toBinary64?_nearest hm, hn, Number.toBinary64?_nearest hn,
      comparesAs_of_order hl hr (order_numbers hm hn)⟩
  strings := by
    rintro s t rfl rfl
    obtain ⟨o, ho, hlt, heq⟩ := exists_order_strings s t
    exact ⟨o, comparesAs_of_order hl hr ho, hlt, heq⟩
  others := by
    intro hnumbers hstrings op hop
    rw [eval_ordering hl hr hop, order_eq_error hnumbers hstrings]
    rfl

/-- Loose equality is an equivalence that takes in the equality of values and does not see the
order of members, and whatever two operands evaluate to, the comparison operators agree with it
and with each other. -/
theorem comparisons_coherent :
    (Equivalence fun a b : { value : Json // value.WellFormed } =>
      a.1.looselyEqual b.1 = true) ∧
    (∀ a b : Json, a.WellFormed → b.WellFormed → Json.SameValue a b →
      a.looselyEqual b = true) ∧
    (∀ a b a' b' : Json, Json.Alike a a' → Json.Alike b b' →
      a.looselyEqual b = a'.looselyEqual b') ∧
    ∀ (document : Json) (index : Option Nat) (left right : Expr) (a b : Json),
      eval document index left = .ok a → eval document index right = .ok b →
        Coherent document index left right a b :=
  ⟨Json.equivalence_looselyEqual, fun _ _ ha hb h => h.looselyEqual ha hb,
    fun _ _ _ _ h h' => h.looselyEqual_eq h', fun _ _ _ _ _ _ hl hr => coherent hl hr⟩

/-- The two zeros are equal, and so are objects with swapped members. Two integers with one nearest
float are equal as well, and neither is less than the other. -/
theorem comparisons_coherent_of_rounded :
    let big : Number := .integer ⟨9007199254740993, by decide, by decide⟩
    let even : Number := .integer ⟨9007199254740992, by decide, by decide⟩
    let zero := Json.number (.float (.zero false))
    let minusZero := Json.number (.float (.zero true))
    let document := Json.object [("n", .number big), ("zero", zero)]
    let swapped := Json.object [("zero", zero), ("n", .number big)]
    let left := Expr.member .model "n"
    let right := Expr.literal (.number even)
    zero.looselyEqual minusZero = true ∧
      document.looselyEqual document = document.looselyEqual swapped ∧
      eval document none (.binary .equal left right) = .ok (.bool true) ∧
      eval document none (.binary .less left right) = .ok (.bool false) ∧
      eval document none (.binary .greaterEqual left right) = .ok (.bool true) := by
  intro big even zero minusZero document swapped left right
  obtain ⟨-, hvalues, horder, hoperators⟩ := comparisons_coherent
  have hdocument : document.WellFormed :=
    Json.wellFormed_object_iff.mpr ⟨by simp [Members.Distinct, Members.keys], by simp [zero]⟩
  have hzeros : zero.looselyEqual minusZero = true := hvalues _ _ trivial trivial (.zero rfl rfl)
  have hswapped : document.looselyEqual document = document.looselyEqual swapped :=
    horder _ _ _ _ (.refl hdocument) ⟨.reorder (.swap _ _ _), hdocument⟩
  obtain ⟨x, y, hx, -, hy, -, hcompares⟩ :=
    (hoperators document none left right _ _ rfl rfl).numbers _ _ rfl rfl
  have hsame : x = y := by
    have hround : big.toBinary64? = even.toBinary64? := by decide +kernel
    exact Option.some.inj (hx.symm.trans (hround.trans hy))
  have heq : compare x.value y.value = .eq := compare_eq_iff_eq.mpr (by rw [hsame])
  rw [heq] at hcompares
  exact ⟨hzeros, hswapped, hcompares.equal, hcompares.less, hcompares.greaterEqual⟩

end Predicate

end Curator
