import Curator.Proofs.Predicate.Soundness

/-! # The size of an expression

An expression has no more nodes than the tokens from which it is derived: each node has a token of
its own. The height is a path of nodes, so it is no more either.
-/

namespace Curator.Predicate

namespace Expr

mutual

def size : Expr → Nat
  | .literal _ => 1
  | .model => 1
  | .index => 1
  | .member object _ => object.size + 1
  | .subscript object key => object.size + key.size + 1
  | .not operand => operand.size + 1
  | .negate operand => operand.size + 1
  | .binary _ left right => left.size + right.size + 1
  | .call _ arguments => sizes arguments + 1
termination_by structural e => e

def sizes : List Expr → Nat
  | [] => 0
  | e :: rest => e.size + sizes rest
termination_by structural es => es

end

mutual

/-- The number of nodes on the longest path from the root. -/
def height : Expr → Nat
  | .literal _ => 1
  | .model => 1
  | .index => 1
  | .member object _ => object.height + 1
  | .subscript object key => max object.height key.height + 1
  | .not operand => operand.height + 1
  | .negate operand => operand.height + 1
  | .binary _ left right => max left.height right.height + 1
  | .call _ arguments => tallest arguments + 1
termination_by structural e => e

def tallest : List Expr → Nat
  | [] => 0
  | e :: rest => max e.height (tallest rest)
termination_by structural es => es

end

mutual

theorem height_le_size : (e : Expr) → e.height ≤ e.size
  | .literal _ => Nat.le_refl _
  | .model => Nat.le_refl _
  | .index => Nat.le_refl _
  | .member object _ => Nat.succ_le_succ object.height_le_size
  | .subscript object key => by
      have hobject := object.height_le_size
      have hkey := key.height_le_size
      simp only [height, size]
      omega
  | .not operand => Nat.succ_le_succ operand.height_le_size
  | .negate operand => Nat.succ_le_succ operand.height_le_size
  | .binary _ left right => by
      have hleft := left.height_le_size
      have hright := right.height_le_size
      simp only [height, size]
      omega
  | .call _ arguments => Nat.succ_le_succ (tallest_le_sizes arguments)
termination_by structural e => e

theorem tallest_le_sizes : (es : List Expr) → tallest es ≤ sizes es
  | [] => Nat.le_refl _
  | e :: rest => by
      have hfirst := e.height_le_size
      have hrest := tallest_le_sizes rest
      simp only [tallest, sizes]
      omega
termination_by structural es => es

end

end Expr

namespace Grammar

open Curator.Predicate.Expr

theorem sizes_le_separated {arguments : List (List Token × Expr)}
    (h : ∀ a ∈ arguments, a.2.size ≤ a.1.length) :
    sizes (arguments.map Prod.snd) ≤ (separated arguments).length := by
  induction arguments with
  | nil => exact Nat.zero_le _
  | cons a arguments ih =>
      obtain ⟨ha, hrest⟩ := List.forall_mem_cons.mp h
      by_cases hmore : arguments = []
      · subst hmore
        simpa [separated_singleton, sizes] using ha
      · have hlater := ih hrest
        simp only [separated_cons a hmore, List.map_cons, sizes, List.length_append,
          List.length_cons]
        omega

/-- By induction on the derivation: a rule with a node of its own has a token of its own. -/
theorem Derives.size_le {phrase : Phrase} {levels : Nat} {ts : List Token} {e : Expr}
    (h : Derives phrase levels ts e) : e.size ≤ ts.length := by
  induction h with
  | operand _ ih => exact ih
  | binary _ _ _ ihl ihr =>
      simp only [size, List.length_append, List.length_cons]
      omega
  | not _ ih => exact Nat.succ_le_succ ih
  | negate _ ih => exact Nat.succ_le_succ ih
  | plain _ ih => exact ih
  | primary _ ih => exact ih
  | member _ _ ih =>
      simp only [size, List.length_append, List.length_cons]
      omega
  | subscript _ _ ih ihk =>
      simp only [size, List.length_append, List.length_cons]
      omega
  | group _ ih =>
      simp only [List.length_append, List.length_cons]
      omega
  | call _ _ ih =>
      have harguments := sizes_le_separated ih
      simp only [size, List.length_append, List.length_cons]
      omega
  | _ => exact Nat.le_refl _

end Grammar

/-- A predicate that was read has no more nodes than tokens. -/
theorem size_le_of_parse {source : String} {p : Compiled} (h : parse source = .ok p) :
    p.expr.size ≤ maxTokens := by
  obtain ⟨-, tokens, -, hlength, opening, body, closing, htokens, -, -, hderives⟩ :=
    program_of_parse h
  have hbody : body.length ≤ tokens.length := by
    rw [← List.length_map (f := Located.token), htokens]
    simp only [List.length_append]
    omega
  exact Nat.le_trans hderives.size_le (Nat.le_trans hbody hlength)

end Curator.Predicate
