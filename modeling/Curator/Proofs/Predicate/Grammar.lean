import Curator.Predicate.Parser

/-! # The grammar of predicates

What a list of tokens may be derived as, with the expression that the derivation
denotes. The grammar says nothing of how it is read: the chains of operators are
left-recursive, and the arguments of a call are any list of phrases with commas
between them. A derivation carries a number of levels, one more in the conclusion of
`unary` than in its premise, so `Derives phrase levels` holds of the derivations no
path of which nests more than `levels` of them.
-/

namespace Curator.Predicate.Grammar

/-- The levels of binary operators, the loosest first. -/
inductive Tier where
  | or | and | equality | comparison

inductive Phrase where
  | tier (t : Tier)
  | unary
  | suffixed
  | primary

/-- What the operators of a level stand between. -/
def Tier.operand : Tier → Phrase
  | or => .tier .and
  | and => .tier .equality
  | equality => .tier .comparison
  | comparison => .unary

inductive Operator : Tier → Symbol → BinaryOp → Prop where
  | or : Operator .or .or .or
  | and : Operator .and .and .and
  | equal : Operator .equality .equal .equal
  | strictEqual : Operator .equality .strictEqual .equal
  | notEqual : Operator .equality .notEqual .notEqual
  | strictNotEqual : Operator .equality .strictNotEqual .notEqual
  | less : Operator .comparison .less .less
  | lessEqual : Operator .comparison .lessEqual .lessEqual
  | greater : Operator .comparison .greater .greater
  | greaterEqual : Operator .comparison .greaterEqual .greaterEqual

/-- The tokens that name a property after a dot. -/
inductive PropertyName : Token → String → Prop where
  | ident (name : String) : PropertyName (.ident name) name
  | keyword (k : Keyword) : PropertyName (.keyword k) k.spelling

inductive Constant : Keyword → Json → Prop where
  | yes : Constant .yes (.bool true)
  | no : Constant .no (.bool false)
  | null : Constant .null .null
  | undefined : Constant .undefined .null

def numberValue (digits : String) : Json :=
  (Parser.numberLiteral digits.toList).getD .null

/-- The tokens of some arguments with commas between them. -/
def separated (arguments : List (List Token × Expr)) : List Token :=
  [Token.symbol .comma].intercalate (arguments.map Prod.fst)

/-- `Derives phrase levels tokens e`: the tokens derive the phrase, the derivation
denotes `e`, and no path of it nests more than `levels` unary phrases. -/
inductive Derives : Phrase → Nat → List Token → Expr → Prop where
  | operand {t : Tier} {levels : Nat} {ts : List Token} {e : Expr} :
      Derives t.operand levels ts e → Derives (.tier t) levels ts e
  | binary {t : Tier} {levels : Nat} {ls rs : List Token} {left right : Expr} {s : Symbol}
      {op : BinaryOp} :
      Derives (.tier t) levels ls left → Operator t s op → Derives t.operand levels rs right →
      Derives (.tier t) levels (ls ++ .symbol s :: rs) (.binary op left right)
  | not {levels : Nat} {ts : List Token} {e : Expr} :
      Derives .unary levels ts e → Derives .unary (levels + 1) (.symbol .bang :: ts) (.not e)
  | negate {levels : Nat} {ts : List Token} {e : Expr} :
      Derives .unary levels ts e → Derives .unary (levels + 1) (.symbol .minus :: ts) (.negate e)
  | plain {levels : Nat} {ts : List Token} {e : Expr} :
      Derives .suffixed levels ts e → Derives .unary (levels + 1) ts e
  | primary {levels : Nat} {ts : List Token} {e : Expr} :
      Derives .primary levels ts e → Derives .suffixed levels ts e
  | member {levels : Nat} {ts : List Token} {e : Expr} {token : Token} {name : String} :
      Derives .suffixed levels ts e → PropertyName token name →
      Derives .suffixed levels (ts ++ [.symbol .dot, token]) (.member e name)
  | subscript {levels : Nat} {ts ks : List Token} {e key : Expr} :
      Derives .suffixed levels ts e → Derives (.tier .or) levels ks key →
      Derives .suffixed levels (ts ++ .symbol .openBracket :: ks ++ [.symbol .closeBracket])
        (.subscript e key)
  | constant {levels : Nat} {k : Keyword} {value : Json} :
      Constant k value → Derives .primary levels [.keyword k] (.literal value)
  | number {levels : Nat} (digits : String) :
      Derives .primary levels [.number digits] (.literal (numberValue digits))
  | quoted {levels : Nat} (mark : Quote) (raw : String) :
      Derives .primary levels [.quoted mark raw]
        (.literal (.string (String.ofList (unescape raw.toList))))
  | model {levels : Nat} : Derives .primary levels [.ident "model"] .model
  | index {levels : Nat} : Derives .primary levels [.ident "index"] .index
  | group {levels : Nat} {ts : List Token} {e : Expr} :
      Derives (.tier .or) levels ts e →
      Derives .primary levels (.symbol .openParen :: ts ++ [.symbol .closeParen]) e
  | call {levels : Nat} {f : Builtin} {arguments : List (List Token × Expr)} :
      (∀ a ∈ arguments, Derives (.tier .or) levels a.1 a.2) → arguments.length = f.arity →
      Derives .primary levels
        (.ident f.spelling :: .symbol .openParen :: separated arguments ++ [.symbol .closeParen])
        (.call f (arguments.map Prod.snd))

/-- The tokens of a whole predicate: an expression, with `return` before it or not and
a semicolon after it or not. -/
def Program (levels : Nat) (ts : List Token) (e : Expr) : Prop :=
  ∃ opening body closing : List Token, ts = opening ++ body ++ closing ∧
    (opening = [] ∨ opening = [.keyword .returns]) ∧
    (closing = [] ∨ closing = [.symbol .semicolon]) ∧ Derives (.tier .or) levels body e

theorem separated_singleton (a : List Token × Expr) : separated [a] = a.1 := by
  simp [separated]

theorem separated_cons (a : List Token × Expr) {arguments : List (List Token × Expr)}
    (h : arguments ≠ []) :
    separated (a :: arguments) = a.1 ++ .symbol .comma :: separated arguments := by
  cases arguments with
  | nil => exact absurd rfl h
  | cons b arguments => simp [separated, List.intercalate_cons_cons]

/-- There is a comma before each argument but the first. -/
theorem length_le_separated (arguments : List (List Token × Expr)) :
    arguments.length ≤ (separated arguments).length + 1 := by
  induction arguments with
  | nil => simp
  | cons a arguments ih =>
      cases arguments with
      | nil => simp
      | cons b arguments =>
          rw [separated_cons a (List.cons_ne_nil _ _)]
          simp only [List.length_cons, List.length_append] at ih ⊢
          omega

theorem subset_separated {arguments : List (List Token × Expr)} {a : List Token × Expr}
    (ha : a ∈ arguments) : a.1 ⊆ separated arguments := by
  induction arguments with
  | nil => cases ha
  | cons b arguments ih =>
      by_cases hmore : arguments = []
      · subst hmore
        rw [separated_singleton, List.mem_singleton.mp ha]
        exact List.Subset.refl _
      · rw [separated_cons b hmore]
        cases ha with
        | head => exact List.subset_append_left _ _
        | tail _ hlater =>
            exact fun t ht => List.mem_append_right _ (List.mem_cons_of_mem _ (ih hlater ht))

/-! ## How phrases begin -/

def Opens (token : Token) : Prop := token ≠ .symbol .closeParen ∧ token ≠ .keyword .returns

def OpensPlain (token : Token) : Prop := token ≠ .symbol .bang ∧ token ≠ .symbol .minus

/-- Every phrase has a first token, which is none that the reader takes for something
else. -/
theorem Derives.exists_first {phrase : Phrase} {levels : Nat} {ts : List Token} {e : Expr}
    (h : Derives phrase levels ts e) :
    ∃ token rest, ts = token :: rest ∧ Opens token ∧
      (phrase = .suffixed ∨ phrase = .primary → OpensPlain token) := by
  induction h with
  | @operand t _ _ _ _ ih =>
      obtain ⟨token, rest, rfl, hopens, -⟩ := ih
      exact ⟨token, rest, rfl, hopens, by simp⟩
  | binary _ _ _ ih _ =>
      obtain ⟨token, rest, rfl, hopens, -⟩ := ih
      exact ⟨token, _, rfl, hopens, by simp⟩
  | plain _ ih =>
      obtain ⟨token, rest, rfl, hopens, -⟩ := ih
      exact ⟨token, rest, rfl, hopens, by simp⟩
  | primary _ ih =>
      obtain ⟨token, rest, rfl, hopens, hplain⟩ := ih
      exact ⟨token, rest, rfl, hopens, fun _ => hplain (.inr rfl)⟩
  | member _ _ ih =>
      obtain ⟨token, rest, rfl, hopens, hplain⟩ := ih
      exact ⟨token, _, rfl, hopens, fun _ => hplain (.inl rfl)⟩
  | subscript _ _ ih _ =>
      obtain ⟨token, rest, rfl, hopens, hplain⟩ := ih
      exact ⟨token, _, rfl, hopens, fun _ => hplain (.inl rfl)⟩
  | constant hconstant =>
      cases hconstant <;> exact ⟨_, _, rfl, by simp [Opens], by simp [OpensPlain]⟩
  | _ => exact ⟨_, _, rfl, by simp [Opens], by simp [OpensPlain]⟩

/-- Arguments begin as the first of them does. -/
theorem exists_first_separated {levels : Nat} {arguments : List (List Token × Expr)}
    (hne : arguments ≠ []) (h : ∀ a ∈ arguments, Derives (.tier .or) levels a.1 a.2) :
    ∃ token rest, separated arguments = token :: rest ∧ Opens token := by
  cases arguments with
  | nil => exact absurd rfl hne
  | cons a arguments =>
      obtain ⟨token, rest, hfirst, hopens, -⟩ := (h a (by simp)).exists_first
      by_cases hmore : arguments = []
      · subst hmore
        exact ⟨token, rest, by rw [separated_singleton, hfirst], hopens⟩
      · exact ⟨token, _, by rw [separated_cons a hmore, hfirst]; rfl, hopens⟩

theorem Derives.length_pos {phrase : Phrase} {levels : Nat} {ts : List Token} {e : Expr}
    (h : Derives phrase levels ts e) : 0 < ts.length := by
  obtain ⟨token, rest, rfl, -, -⟩ := h.exists_first
  simp

/-! ## How phrases end -/

/-- The tokens that carry on a phrase after which they stand. -/
inductive Continues : Phrase → Token → Prop where
  | dot : Continues .suffixed (.symbol .dot)
  | bracket : Continues .suffixed (.symbol .openBracket)
  | suffix {token : Token} : Continues .suffixed token → Continues .unary token
  | operator {t : Tier} {s : Symbol} {op : BinaryOp} :
      Operator t s op → Continues (.tier t) (.symbol s)
  | operand {t : Tier} {token : Token} : Continues t.operand token → Continues (.tier t) token

/-- The symbols that close a phrase or stand between two. -/
def Closes (s : Symbol) : Prop :=
  s = .closeParen ∨ s = .closeBracket ∨ s = .comma ∨ s = .semicolon

theorem Closes.not_continues {s : Symbol} (hs : Closes s) (phrase : Phrase) :
    ¬ Continues phrase (.symbol s) := by
  intro h
  generalize htoken : Token.symbol s = token at h
  induction h with
  | operator h =>
      cases htoken
      cases h <;> simp [Closes] at hs
  | suffix _ ih => exact ih htoken
  | operand _ ih => exact ih htoken
  | _ =>
      cases htoken
      simp [Closes] at hs

def Phrase.tightness : Phrase → Nat
  | .tier .or => 0
  | .tier .and => 1
  | .tier .equality => 2
  | .tier .comparison => 3
  | _ => 4

theorem Tier.tightness_operand (t : Tier) :
    t.operand.tightness = (Phrase.tier t).tightness + 1 := by
  cases t <;> rfl

theorem Operator.tier_eq {t u : Tier} {s : Symbol} {op oq : BinaryOp} (h : Operator t s op)
    (h' : Operator u s oq) : t = u := by
  cases h <;> cases h' <;> rfl

/-- An operator carries on no phrase that binds more tightly than its own level. -/
theorem Continues.tightness_le {phrase : Phrase} {s : Symbol}
    (h : Continues phrase (.symbol s)) {t : Tier} {op : BinaryOp} (ho : Operator t s op) :
    phrase.tightness ≤ (Phrase.tier t).tightness := by
  generalize hs : Token.symbol s = token at h
  induction h with
  | dot => cases hs; cases ho
  | bracket => cases hs; cases ho
  | suffix _ ih => exact ih hs
  | operator h =>
      cases hs
      exact h.tier_eq ho ▸ Nat.le_refl _
  | @operand u _ _ ih =>
      have hinner := ih hs
      rw [u.tightness_operand] at hinner
      omega

theorem Operator.not_continues_operand {t : Tier} {s : Symbol} {op : BinaryOp}
    (h : Operator t s op) : ¬ Continues t.operand (.symbol s) := by
  intro hcontinues
  have hle := hcontinues.tightness_le h
  rw [t.tightness_operand] at hle
  omega

end Curator.Predicate.Grammar
