import Curator.Predicate.Eval
import Curator.Proofs.Predicate.Soundness

/-! # The expressions that can be read

A predicate has no containers among its literals and calls each function with as many
arguments as it takes. Evaluation relies on both.
-/

namespace Curator

def Json.Scalar : Json → Prop
  | .array _ => False
  | .object _ => False
  | _ => True

theorem Json.Scalar.wellFormed {value : Json} (h : value.Scalar) : value.WellFormed := by
  cases value with
  | array items => exact h.elim
  | object members => exact h.elim
  | _ => trivial

namespace Predicate

/-- The literals are scalars and the calls have the arguments that they need. -/
inductive Expr.WellFormed : Expr → Prop where
  | literal {value : Json} (h : value.Scalar) : WellFormed (.literal value)
  | model : WellFormed .model
  | index : WellFormed .index
  | member {object : Expr} (h : object.WellFormed) (name : String) :
      WellFormed (.member object name)
  | subscript {object key : Expr} (h : object.WellFormed) (h' : key.WellFormed) :
      WellFormed (.subscript object key)
  | not {operand : Expr} (h : operand.WellFormed) : WellFormed (.not operand)
  | negate {operand : Expr} (h : operand.WellFormed) : WellFormed (.negate operand)
  | binary (op : BinaryOp) {left right : Expr} (h : left.WellFormed) (h' : right.WellFormed) :
      WellFormed (.binary op left right)
  | call {f : Builtin} {arguments : List Expr} (h : ∀ a ∈ arguments, a.WellFormed)
      (harity : arguments.length = f.arity) : WellFormed (.call f arguments)

theorem scalar_numberLiteral {text : List Char} {value : Json}
    (h : Parser.numberLiteral text = some value) : value.Scalar := by
  unfold Parser.numberLiteral at h
  simp only at h
  split at h
  · cases h
  · obtain ⟨t, -, rfl⟩ := Option.map_eq_some_iff.mp h
    split <;> trivial

namespace Grammar

theorem scalar_numberValue (digits : String) : (numberValue digits).Scalar := by
  unfold numberValue
  cases hvalue : Parser.numberLiteral digits.toList with
  | none => trivial
  | some value => exact scalar_numberLiteral hvalue

theorem Derives.wellFormed {phrase : Phrase} {levels : Nat} {ts : List Token} {e : Expr}
    (h : Derives phrase levels ts e) : e.WellFormed := by
  induction h with
  | operand _ ih => exact ih
  | binary _ _ _ ihl ihr => exact .binary _ ihl ihr
  | not _ ih => exact .not ih
  | negate _ ih => exact .negate ih
  | plain _ ih => exact ih
  | primary _ ih => exact ih
  | member _ _ ih => exact .member ih _
  | subscript _ _ ih ihk => exact .subscript ih ihk
  | constant hconstant => cases hconstant <;> exact .literal trivial
  | number digits => exact .literal (scalar_numberValue digits)
  | quoted mark raw => exact .literal trivial
  | model => exact .model
  | index => exact .index
  | group _ ih => exact ih
  | call _ harity ih =>
      refine .call ?_ (by rw [List.length_map, harity])
      rw [List.forall_mem_map]
      exact ih

end Grammar

theorem wellFormed_of_parse {source : String} {p : Compiled} (h : parse source = .ok p) :
    p.expr.WellFormed := by
  obtain ⟨-, _, -, -, _, _, _, _, _, _, hderives⟩ := program_of_parse h
  exact hderives.wellFormed

end Predicate

end Curator
