import Curator.Proofs.Json.Reordering
import Curator.Proofs.Predicate.WellFormed

/-! # Predicates do not see the order of members

Each operation of the predicate language takes values that differ in the order of members
to such values, or fails on both in the same way. So does the evaluation of a whole
expression, by induction on it, and a predicate gives the same answer on both documents.
-/

namespace Curator

open Json (Alike SameUpToKeyOrder)

namespace Json.Alike

variable {a b a' b' : Json}

theorem truthy_eq (h : Alike a b) : a.truthy = b.truthy := by
  cases h.view <;> rfl

theorem isVoid_eq (h : Alike a b) : a.isVoid = b.isVoid := by
  cases h.view with
  | array hitems => exact forall₂_isEmpty_eq hitems
  | object _ _ => exact h.same.isEmpty_eq h.wellFormed
  | _ => rfl

theorem looselyEqual (h : Alike a b) : a.looselyEqual b = true :=
  h.same.equalBy Number.sameQuantity_self (fun _ _ _ => Number.sameQuantity_trans) h.wellFormed

/-- Loose equality composes, so it may be carried from one pair to the other. -/
theorem looselyEqual_eq (h : Alike a b) (h' : Alike a' b') :
    a.looselyEqual a' = b.looselyEqual b' := by
  have htrans : ∀ {x y z : Json}, x.looselyEqual y = true → y.looselyEqual z = true →
      x.looselyEqual z = true := equalBy_trans fun _ _ _ => Number.sameQuantity_trans
  rw [Bool.eq_iff_iff]
  constructor
  · intro heq
    exact htrans h.symm.looselyEqual (htrans heq h'.looselyEqual)
  · intro heq
    exact htrans h.looselyEqual (htrans heq h'.symm.looselyEqual)

end Json.Alike

namespace Predicate

variable {a b a' b' document document' : Json}

/-- What is not there is null on both sides. -/
theorem alike_getD {found found' : Option Json} (h : Option.Rel SameUpToKeyOrder found found')
    (hfound : ∀ value, found = some value → value.WellFormed) :
    Alike (found.getD .null) (found'.getD .null) := by
  cases h with
  | none => exact .refl trivial
  | some h => exact ⟨h, hfound _ rfl⟩

theorem alike_property (h : Alike a b) (name : String) :
    Alike (property a name) (property b name) := by
  cases h.view with
  | array hitems =>
      rw [property, property, hitems.length_eq]
      split <;> exact .refl trivial
  | string s =>
      rw [property]
      split <;> exact .refl trivial
  | object _ hmembers =>
      exact alike_getD (hmembers name) fun _ hvalue => h.wellFormed.of_get? hvalue
  | _ => exact .refl trivial

theorem sameOutcome_select (h : Alike a b) (hkey : Alike a' b') :
    SameOutcome Alike (select a a') (select b b') := by
  cases hkey.view with
  | string name => exact .ok (alike_property h name)
  | number n =>
      rw [select, select]
      split
      · exact .error _
      · next position _ =>
          have hproperty := alike_property h (toString position)
          cases h.view with
          | array hitems =>
              exact .ok (alike_getD (forall₂_getElem? hitems position)
                fun _ hitem => h.wellFormed.of_getElem? hitem)
          | _ => exact .ok hproperty
  | null => exact .ok (.refl trivial)
  | _ => exact .error _

theorem sameOutcome_negate (h : Alike a b) : SameOutcome Alike (negate a) (negate b) := by
  cases h.view with
  | number n =>
      rw [negate]
      split
      · exact .ok (.refl trivial)
      · exact .error _
  | _ => exact .error _

theorem sameOutcome_len (h : Alike a b) : SameOutcome Alike (len a) (len b) := by
  cases h.view with
  | string s => exact .ok (.refl trivial)
  | array hitems =>
      rw [len, len, hitems.length_eq]
      exact .ok (.refl trivial)
  | object _ _ =>
      rw [len, len, h.same.length_eq h.wellFormed]
      exact .ok (.refl trivial)
  | _ => exact .error _

theorem any_looselyEqual_eq {xs ys : List Json} (h : List.Forall₂ SameUpToKeyOrder xs ys)
    (hxs : ∀ x ∈ xs, x.WellFormed) (hneedle : Alike a b) :
    xs.any (·.looselyEqual a) = ys.any (·.looselyEqual b) := by
  induction h with
  | nil => rfl
  | cons hxy _ ih =>
      obtain ⟨hx, hrest⟩ := List.forall_mem_cons.mp hxs
      have hitem : Alike _ _ := ⟨hxy, hx⟩
      rw [List.any_cons, List.any_cons, ih hrest, hitem.looselyEqual_eq hneedle]

theorem sameOutcome_contains (h : Alike a b) (hneedle : Alike a' b') :
    SameOutcome Alike (contains a a') (contains b b') := by
  have hview := hneedle.view
  cases h.view with
  | null => exact .ok (.refl trivial)
  | @array xs ys hitems =>
      have hany := any_looselyEqual_eq hitems (Json.wellFormed_array_iff.mp h.wellFormed) hneedle
      change SameOutcome Alike (.ok (.bool (xs.any (·.looselyEqual a'))))
        (.ok (.bool (ys.any (·.looselyEqual b'))))
      rw [hany]
      exact .ok (.refl trivial)
  | string s =>
      cases hview with
      | string s' => exact .ok (.refl trivial)
      | _ => exact .error _
  | object _ hmembers =>
      cases hview with
      | string name =>
          rw [contains, contains, Members.contains, Members.contains,
            Json.rel_isSome_eq (hmembers name)]
          exact .ok (.refl trivial)
      | _ => exact .error _
  | _ => cases hview <;> exact .error _

/-- Both comparisons give the same ordering. -/
theorem order_eq (h : Alike a b) (h' : Alike a' b') : order a a' = order b b' := by
  cases h.view <;> cases h'.view <;> rfl

/-! ## Expressions -/

/-- A value that depends on nothing but what the operands have in common. -/
theorem sameOutcome_bool {x y : Bool} (h : x = y) :
    SameOutcome Alike (pure (.bool x) : Except EvalFailure Json) (pure (.bool y)) := by
  subst h
  exact .ok (.refl trivial)

/-- The four ordering operators differ only in what they accept. -/
theorem sameOutcome_ordered (op : BinaryOp) {x x' y y' : Except EvalFailure Json}
    (hx : SameOutcome Alike x x') (hy : SameOutcome Alike y y') :
    SameOutcome Alike (do let a ← x; let b ← y; let c ← order a b; return .bool (op.accepts c))
      (do let a ← x'; let b ← y'; let c ← order a b; return .bool (op.accepts c)) := by
  refine hx.bind fun a b hab => hy.bind fun a' b' hab' => ?_
  rw [order_eq hab hab']
  cases order b b' with
  | error e => exact .error e
  | ok c => exact sameOutcome_bool rfl

theorem sameOutcome_binary (op : BinaryOp) {left right : Expr} {index : Option Nat}
    (hl : SameOutcome Alike (eval document index left) (eval document' index left))
    (hr : SameOutcome Alike (eval document index right) (eval document' index right)) :
    SameOutcome Alike (eval document index (.binary op left right))
      (eval document' index (.binary op left right)) := by
  have hright : SameOutcome Alike
      (do let b ← eval document index right; return .bool b.truthy)
      (do let b ← eval document' index right; return .bool b.truthy) :=
    hr.bind fun a b hab => sameOutcome_bool (hab.truthy_eq)
  cases op with
  | or =>
      refine hl.bind fun a b hab => ?_
      rw [hab.truthy_eq]
      split
      · exact sameOutcome_bool rfl
      · exact hright
  | and =>
      refine hl.bind fun a b hab => ?_
      rw [hab.truthy_eq]
      split
      · exact hright
      · exact sameOutcome_bool rfl
  | equal =>
      exact hl.bind fun a b hab => hr.bind fun a' b' hab' => sameOutcome_bool
        (hab.looselyEqual_eq hab')
  | notEqual =>
      refine hl.bind fun a b hab => hr.bind fun a' b' hab' => sameOutcome_bool ?_
      rw [hab.looselyEqual_eq hab']
  | less => exact sameOutcome_ordered .less hl hr
  | lessEqual => exact sameOutcome_ordered .lessEqual hl hr
  | greater => exact sameOutcome_ordered .greater hl hr
  | greaterEqual => exact sameOutcome_ordered .greaterEqual hl hr

theorem sameOutcome_call {f : Builtin} {arguments : List Expr} {index : Option Nat}
    (harity : arguments.length = f.arity)
    (h : ∀ a ∈ arguments, SameOutcome Alike (eval document index a) (eval document' index a)) :
    SameOutcome Alike (eval document index (.call f arguments))
      (eval document' index (.call f arguments)) := by
  match f, arguments, harity with
  | .present, [x], _ =>
      refine (h x (by simp)).bind fun a b hab => sameOutcome_bool ?_
      rw [hab.kind_eq]
  | .empty, [x], _ =>
      exact (h x (by simp)).bind fun a b hab =>
        sameOutcome_bool (hab.isVoid_eq)
  | .len, [x], _ => exact (h x (by simp)).bind fun a b hab => sameOutcome_len hab
  | .contains, [x, y], _ =>
      exact (h x (by simp)).bind fun a b hab => (h y (by simp)).bind fun a' b' hab' =>
        sameOutcome_contains hab hab'

/-- By induction on the expression: each operation keeps what its operands have in common. -/
theorem sameOutcome_eval {e : Expr} (he : e.WellFormed) (h : Alike document document')
    (index : Option Nat) :
    SameOutcome Alike (eval document index e) (eval document' index e) := by
  induction he with
  | literal hscalar => exact .ok (.refl hscalar.wellFormed)
  | model => exact .ok h
  | index =>
      cases index with
      | none => exact .error _
      | some i => exact .ok (.refl trivial)
  | member _ name ih =>
      exact ih.bind fun a b hab => .ok (alike_property hab name)
  | subscript _ _ ih ihk =>
      exact ih.bind fun a b hab => ihk.bind fun k l hkl => sameOutcome_select hab hkl
  | not _ ih =>
      exact ih.bind fun a b hab => sameOutcome_bool (by rw [hab.truthy_eq])
  | negate _ ih => exact ih.bind fun a b hab => sameOutcome_negate hab
  | binary op _ _ ih ih' => exact sameOutcome_binary op ih ih'
  | call _ harity ih => exact sameOutcome_call harity ih

/-- A predicate gives one answer on documents that differ in the order of members, or fails
on both in the same way. -/
theorem evaluate_eq (source : String) (h : Alike document document') (index : Option Nat) :
    evaluate source document index = evaluate source document' index := by
  unfold evaluate
  cases hp : parse source with
  | error e => rfl
  | ok p =>
      have heval := sameOutcome_eval (wellFormed_of_parse hp) h index
      have hholds : p.holds document index = p.holds document' index :=
        heval.map_eq fun a b hab => hab.truthy_eq
      exact congrArg (Except.mapError Failure.eval) hholds

end Predicate

end Curator
