import Curator.Proofs.Predicate.Numerals
import Curator.Proofs.Predicate.Soundness

/-! # What is derivable is read

The reader never goes back, so it finds a derivation only if each token can carry on no
more than one phrase. A phrase with operators or suffixes is read up to a state of its
loop, which the next token may carry on; where none does the loop ends. This makes the
left recursion of the grammar an induction that the loops can follow.
-/

namespace Curator.Predicate.Parser

open Grammar

def Stops (phrase : Phrase) : List Located → Prop
  | [] => True
  | t :: _ => ¬ Continues phrase t.token

/-! ## Tokens with their places -/

theorem exists_around {taken : List Located} {before after : List Token} {token : Token}
    (h : taken.map Located.token = before ++ token :: after) :
    ∃ (ls : List Located) (t : Located) (rs : List Located), taken = ls ++ t :: rs ∧
      ls.map Located.token = before ∧ t.token = token ∧ rs.map Located.token = after := by
  obtain ⟨ls, ts, rfl, hls, hts⟩ := List.map_eq_append_iff.mp h
  obtain ⟨t, rs, rfl, ht, hrs⟩ := List.map_eq_cons_iff.mp hts
  exact ⟨ls, t, rs, rfl, hls, ht, hrs⟩

theorem exists_enclosed {taken : List Located} {opening closing : Token} {inside : List Token}
    (h : taken.map Located.token = opening :: (inside ++ [closing])) :
    ∃ (o : Located) (ts : List Located) (c : Located), taken = o :: (ts ++ [c]) ∧
      o.token = opening ∧ ts.map Located.token = inside ∧ c.token = closing := by
  obtain ⟨o, os, rfl, ho, hos⟩ := List.map_eq_cons_iff.mp h
  obtain ⟨ts, c, rest, rfl, hts, hc, hrest⟩ := exists_around hos
  rw [List.map_eq_nil_iff.mp hrest]
  exact ⟨o, ts, c, rfl, ho, hts, hc⟩

/-! ## Steps of the loops -/

theorem expect_cons {stop : Nat} {s : Symbol} {t : Located} (h : t.token = .symbol s)
    (rest : List Located) : expect stop s (t :: rest) = .ok rest :=
  expect_eq_ok_iff.mpr ⟨t, rfl, h⟩

theorem chainFrom_operator {t : Tier} {operand : List Located → Parsed} {s : Symbol} {op : BinaryOp}
    (hop : Operator t s op) {o : Located} (ho : o.token = .symbol s) {ts rest : List Located}
    {right : Expr} (hright : operand ts = .ok (right, rest)) (fuel : Nat) (left : Expr) :
    chainFrom (operator? t) operand (fuel + 1) left (o :: ts) =
      chainFrom (operator? t) operand fuel (.binary op left right) rest := by
  rw [chainFrom, operator?_eq_some_iff.mpr ⟨s, ho, hop⟩, hright]
  rfl

theorem chainFrom_stop {t : Tier} {operand : List Located → Parsed} {rest : List Located}
    (h : Stops (.tier t) rest) (fuel : Nat) (e : Expr) :
    chainFrom (operator? t) operand fuel e rest = .ok (e, rest) := by
  cases rest with
  | nil => cases fuel <;> rfl
  | cons o rest =>
      cases fuel with
      | zero => rfl
      | succ fuel =>
          cases hop : operator? t o.token with
          | none => rw [chainFrom, hop]
          | some op =>
              obtain ⟨s, hs, hoperator⟩ := operator?_eq_some_iff.mp hop
              exact absurd (hs ▸ .operator hoperator) h

theorem suffixesFrom_member {stop : Nat} {inner : List Located → Parsed} {d n : Located}
    (hd : d.token = .symbol .dot) {name : String} (hn : PropertyName n.token name) (fuel : Nat)
    (object : Expr) (rest : List Located) :
    suffixesFrom stop inner (fuel + 1) object (d :: n :: rest) =
      suffixesFrom stop inner fuel (.member object name) rest := by
  rw [suffixesFrom.eq_def]
  simp only [hd, propertyName?_eq_some_iff.mpr hn]

theorem suffixesFrom_subscript {stop : Nat} {inner : List Located → Parsed} {o c : Located}
    (ho : o.token = .symbol .openBracket) (hc : c.token = .symbol .closeBracket)
    {ts rest : List Located} {key : Expr} (hkey : inner ts = .ok (key, c :: rest)) (fuel : Nat)
    (object : Expr) :
    suffixesFrom stop inner (fuel + 1) object (o :: ts) =
      suffixesFrom stop inner fuel (.subscript object key) rest := by
  rw [suffixesFrom.eq_def]
  simp only [ho, hkey]
  change (expect stop .closeBracket (c :: rest) >>= _) = _
  rw [expect_cons hc]
  rfl

theorem suffixesFrom_stop {stop : Nat} {inner : List Located → Parsed} {rest : List Located}
    (h : Stops .suffixed rest) (fuel : Nat) (e : Expr) :
    suffixesFrom stop inner fuel e rest = .ok (e, rest) := by
  cases rest with
  | nil => cases fuel <;> rfl
  | cons t rest =>
      cases fuel with
      | zero => rfl
      | succ fuel =>
          rw [suffixesFrom.eq_def]
          simp only
          split
          · next hdot => exact absurd (hdot ▸ .dot) h
          · next hbracket => exact absurd (hbracket ▸ .bracket) h
          · rfl

/-! ## Completeness -/

/-- The reader takes just these tokens, whatever follows them, for the phrase. A chain
and a list of suffixes are read up to a state of their loop, with fuel for the tokens that
follow. -/
def Takes (stop levels : Nat) : Phrase → List Located → Expr → Prop
  | .tier t, taken, e => ∀ rest, Stops t.operand rest → ∃ fuel, rest.length ≤ fuel ∧
      reader stop levels (.tier t) (taken ++ rest) =
        chainFrom (operator? t) (reader stop levels t.operand) fuel e rest
  | .unary, taken, e => ∀ rest, Stops .unary rest →
      reader stop levels .unary (taken ++ rest) = .ok (e, rest)
  | .suffixed, taken, e => ∀ rest, ∃ fuel, rest.length ≤ fuel ∧
      reader stop levels .suffixed (taken ++ rest) =
        suffixesFrom stop (expression (unary stop levels)) fuel e rest
  | .primary, taken, e => ∀ rest, reader stop levels .primary (taken ++ rest) = .ok (e, rest)

variable {stop levels : Nat}

/-- Where no token carries the phrase on, it is read as a whole. -/
theorem Takes.reader_eq {phrase : Phrase} {taken : List Located} {e : Expr}
    (h : Takes stop levels phrase taken e) {rest : List Located} (hrest : Stops phrase rest) :
    reader stop levels phrase (taken ++ rest) = .ok (e, rest) := by
  cases phrase with
  | tier t =>
      have hoperand : Stops t.operand rest := by
        cases rest with
        | nil => trivial
        | cons _ _ => exact fun hcontinues => hrest (.operand hcontinues)
      obtain ⟨fuel, -, hread⟩ := h rest hoperand
      rw [hread, chainFrom_stop hrest]
  | unary => exact h rest hrest
  | suffixed =>
      obtain ⟨fuel, -, hread⟩ := h rest
      rw [hread, suffixesFrom_stop hrest]
  | primary => exact h rest

theorem stops_of_symbol {phrase : Phrase} {s : Symbol} (h : ¬ Continues phrase (.symbol s))
    {t : Located} (ht : t.token = .symbol s) (rest : List Located) : Stops phrase (t :: rest) :=
  fun hcontinues => h (ht ▸ hcontinues)

/-- An expression is read up to a symbol that closes it. -/
theorem Takes.expression_eq {taken : List Located} {e : Expr}
    (h : Takes stop levels (.tier .or) taken e) {s : Symbol} (hs : Closes s) {c : Located}
    (hc : c.token = .symbol s) (rest : List Located) :
    expression (unary stop levels) (taken ++ c :: rest) = .ok (e, c :: rest) :=
  h.reader_eq (stops_of_symbol (hs.not_continues _) hc rest)

theorem primary_call {inner : List Located → Parsed} {f : Builtin} {t : Located}
    (ht : t.token = .ident f.spelling) (rest : List Located) :
    primary stop inner (t :: rest) = call stop inner f t.start rest := by
  rw [primary, ht]
  cases f <;> rfl

theorem unary_plain {t : Located} (ht : OpensPlain t.token) (rest : List Located) :
    unary stop (levels + 1) (t :: rest) =
      suffixed stop (expression (unary stop levels)) (t :: rest) := by
  rw [unary.eq_def]
  simp only
  split
  · next heq =>
      cases heq
      exact absurd rfl ht.1
  · next heq =>
      cases heq
      exact absurd rfl ht.2
  · rfl

theorem primary_group {inner : List Located → Parsed} {o c : Located}
    (ho : o.token = .symbol .openParen) (hc : c.token = .symbol .closeParen)
    {ts rest : List Located} {e : Expr} (h : inner ts = .ok (e, c :: rest)) :
    primary stop inner (o :: ts) = .ok (e, rest) := by
  rw [primary, ho]
  simp only [bind, Except.bind, h, expect_cons hc]
  rfl

theorem stops_suffixed {rest : List Located} (h : Stops .unary rest) : Stops .suffixed rest := by
  cases rest with
  | nil => trivial
  | cons t rest => exact fun hcontinues => h (.suffix hcontinues)

/-- The reader takes each of the arguments up to a symbol that closes it. -/
def TakesEach (inner : List Located → Parsed) (given : List (List Token × Expr)) : Prop :=
  ∀ a ∈ given, ∀ taken : List Located, taken.map Located.token = a.1 →
    ∀ (s : Symbol) (c : Located) (rest : List Located), Closes s → c.token = .symbol s →
      inner (taken ++ c :: rest) = .ok (a.2, c :: rest)

theorem argumentsFrom_complete {inner : List Located → Parsed} {given : List (List Token × Expr)}
    (hne : given ≠ []) (hread : TakesEach inner given) {taken : List Located}
    (htaken : taken.map Located.token = separated given) {c : Located}
    (hc : c.token = .symbol .closeParen) (rest : List Located) {fuel : Nat}
    (hfuel : given.length ≤ fuel) :
    argumentsFrom inner fuel (taken ++ c :: rest) = .ok (given.map Prod.snd, c :: rest) := by
  induction given generalizing taken fuel with
  | nil => exact absurd rfl hne
  | cons a given ih =>
      rw [List.length_cons] at hfuel
      obtain ⟨fuel, rfl⟩ : ∃ n, fuel = n + 1 := Nat.exists_eq_add_one.mpr (by omega)
      by_cases hmore : given = []
      · subst hmore
        rw [separated_singleton] at htaken
        have hfirst := hread a (by simp) taken htaken _ c rest (.inl rfl) hc
        rw [argumentsFrom, hfirst]
        simp only [bind, Except.bind, hc, reduceCtorEq, Token.symbol.injEq, if_false]
        rfl
      · rw [separated_cons a hmore] at htaken
        obtain ⟨first, comma, others, rfl, hfirst, hcomma, hothers⟩ := exists_around htaken
        have hfirst := hread a (by simp) first hfirst _ comma (others ++ c :: rest)
          (.inr (.inr (.inl rfl))) hcomma
        have hothers := ih hmore (fun b hb => hread b (by simp [hb])) hothers
          (Nat.le_of_succ_le_succ hfuel)
        rw [List.append_assoc, List.cons_append, argumentsFrom, hfirst]
        simp only [bind, Except.bind, hcomma, if_true, hothers]
        rfl

theorem arguments_complete {inner : List Located → Parsed} {given : List (List Token × Expr)}
    (hne : given ≠ []) (hread : TakesEach inner given)
    (hderives : ∀ a ∈ given, Derives (.tier .or) levels a.1 a.2) {taken : List Located}
    (htaken : taken.map Located.token = separated given) {c : Located}
    (hc : c.token = .symbol .closeParen) (rest : List Located) :
    arguments inner (taken ++ c :: rest) = .ok (given.map Prod.snd, c :: rest) := by
  obtain ⟨token, tokens, hfirst, hopens⟩ := exists_first_separated hne hderives
  obtain ⟨t, ts, rfl, rfl, hts⟩ := List.map_eq_cons_iff.mp (htaken.trans hfirst)
  have hfuel : given.length ≤ (t :: ts ++ c :: rest).length := by
    have hle := length_le_separated given
    rw [← htaken, List.length_map] at hle
    rw [List.length_append, @List.length_cons _ c rest]
    omega
  have hall := argumentsFrom_complete hne hread htaken hc rest hfuel
  rw [List.cons_append] at hall ⊢
  rw [arguments, if_neg hopens.1, hall]

theorem call_complete {inner : List Located → Parsed} {f : Builtin} {o c : Located}
    (ho : o.token = .symbol .openParen) (hc : c.token = .symbol .closeParen)
    {ts rest : List Located} {es : List Expr}
    (hes : arguments inner ts = .ok (es, c :: rest)) (harity : es.length = f.arity)
    (position : Nat) :
    call stop inner f position (o :: ts) = .ok (.call f es, rest) := by
  rw [call, expect_cons ho]
  simp only [bind, Except.bind, hes, expect_cons hc, if_pos harity]
  rfl

/-! ## One rule at a time -/

theorem exists_fuel_of_cons {t : Located} {ts : List Located} {fuel : Nat}
    (h : (t :: ts).length ≤ fuel) : ∃ n, fuel = n + 1 ∧ ts.length ≤ n := by
  rw [List.length_cons] at h
  exact ⟨fuel - 1, by omega, by omega⟩

theorem Takes.operand {t : Tier} {taken : List Located} {e : Expr}
    (h : Takes stop levels t.operand taken e) : Takes stop levels (.tier t) taken e := by
  intro rest hrest
  refine ⟨rest.length, Nat.le_refl _, ?_⟩
  rw [reader_tier, chain, h.reader_eq hrest]
  rfl

/-- The operator carries on none of its operands, so the left one is read up to it, with fuel
left to take it. -/
theorem Takes.binary {t : Tier} {s : Symbol} {op : BinaryOp} {ls rs : List Located} {o : Located}
    {left right : Expr} (hl : Takes stop levels (.tier t) ls left) (hop : Operator t s op)
    (ho : o.token = .symbol s) (hr : Takes stop levels t.operand rs right) :
    Takes stop levels (.tier t) (ls ++ o :: rs) (.binary op left right) := by
  intro rest hrest
  have hstops := stops_of_symbol hop.not_continues_operand ho (rs ++ rest)
  obtain ⟨fuel, hfuel, hread⟩ := hl (o :: (rs ++ rest)) hstops
  obtain ⟨fuel, rfl, hleft⟩ := exists_fuel_of_cons hfuel
  have hright := hr.reader_eq hrest
  rw [List.length_append] at hleft
  refine ⟨fuel, by omega, ?_⟩
  rw [List.append_assoc, List.cons_append, hread, chainFrom_operator hop ho hright]

theorem Takes.not {ts : List Located} {e : Expr} {o : Located}
    (h : Takes stop levels .unary ts e) (ho : o.token = .symbol .bang) :
    Takes stop (levels + 1) .unary (o :: ts) (.not e) := by
  intro rest hrest
  have hread : unary stop levels (ts ++ rest) = .ok (e, rest) := h rest hrest
  cases o
  cases ho
  rw [reader, List.cons_append, unary, hread]
  rfl

theorem Takes.negate {ts : List Located} {e : Expr} {o : Located}
    (h : Takes stop levels .unary ts e) (ho : o.token = .symbol .minus) :
    Takes stop (levels + 1) .unary (o :: ts) (.negate e) := by
  intro rest hrest
  have hread : unary stop levels (ts ++ rest) = .ok (e, rest) := h rest hrest
  cases o
  cases ho
  rw [reader, List.cons_append, unary, hread]
  rfl

theorem Takes.plain {t : Located} {ts : List Located} {e : Expr}
    (h : Takes stop levels .suffixed (t :: ts) e) (ht : OpensPlain t.token) :
    Takes stop (levels + 1) .unary (t :: ts) e := by
  intro rest hrest
  rw [reader, List.cons_append, unary_plain ht]
  exact h.reader_eq (stops_suffixed hrest)

theorem Takes.primary {taken : List Located} {e : Expr} (h : Takes stop levels .primary taken e) :
    Takes stop levels .suffixed taken e := by
  intro rest
  have hread : Parser.primary stop (expression (unary stop levels)) (taken ++ rest) =
      .ok (e, rest) := h rest
  refine ⟨rest.length, Nat.le_refl _, ?_⟩
  rw [reader, suffixed, hread]
  rfl

theorem Takes.member {ts : List Located} {d n : Located} {e : Expr} {name : String}
    (h : Takes stop levels .suffixed ts e) (hd : d.token = .symbol .dot)
    (hn : PropertyName n.token name) :
    Takes stop levels .suffixed (ts ++ [d, n]) (.member e name) := by
  intro rest
  obtain ⟨fuel, hfuel, hread⟩ := h (d :: n :: rest)
  obtain ⟨fuel, rfl, hleft⟩ := exists_fuel_of_cons hfuel
  rw [List.length_cons] at hleft
  refine ⟨fuel, by omega, ?_⟩
  rw [List.append_assoc, List.cons_append, List.singleton_append, hread,
    suffixesFrom_member hd hn]

theorem Takes.subscript {ts ks : List Located} {o c : Located} {e key : Expr}
    (h : Takes stop levels .suffixed ts e) (ho : o.token = .symbol .openBracket)
    (hkey : Takes stop levels (.tier .or) ks key) (hc : c.token = .symbol .closeBracket) :
    Takes stop levels .suffixed (ts ++ o :: (ks ++ [c])) (.subscript e key) := by
  intro rest
  have hinside := hkey.expression_eq (.inr (.inl rfl)) hc rest
  obtain ⟨fuel, hfuel, hread⟩ := h (o :: (ks ++ c :: rest))
  obtain ⟨fuel, rfl, hleft⟩ := exists_fuel_of_cons hfuel
  rw [List.length_append, List.length_cons] at hleft
  refine ⟨fuel, by omega, ?_⟩
  rw [List.append_assoc, List.cons_append, List.append_assoc, List.singleton_append, hread,
    suffixesFrom_subscript ho hc hinside]

theorem Takes.group {ts : List Located} {o c : Located} {e : Expr}
    (h : Takes stop levels (.tier .or) ts e) (ho : o.token = .symbol .openParen)
    (hc : c.token = .symbol .closeParen) :
    Takes stop levels .primary (o :: (ts ++ [c])) e := by
  intro rest
  have hinside := h.expression_eq (.inl rfl) hc rest
  rw [reader, List.cons_append, List.append_assoc, List.singleton_append,
    primary_group ho hc hinside]

theorem takes_call {f : Builtin} {t o c : Located} {ts : List Located}
    {given : List (List Token × Expr)} (ht : t.token = .ident f.spelling)
    (ho : o.token = .symbol .openParen) (hc : c.token = .symbol .closeParen)
    (hts : ts.map Located.token = separated given)
    (hread : TakesEach (expression (unary stop levels)) given)
    (hderives : ∀ a ∈ given, Derives (.tier .or) levels a.1 a.2)
    (harity : given.length = f.arity) :
    Takes stop levels .primary (t :: o :: (ts ++ [c])) (.call f (given.map Prod.snd)) := by
  intro rest
  have hne : given ≠ [] := by
    rintro rfl
    cases f <;> cases harity
  have hgiven := arguments_complete hne hread hderives hts hc rest
  rw [reader, List.cons_append, List.cons_append, List.append_assoc, List.singleton_append,
    primary_call ht, call_complete ho hc hgiven (by rw [List.length_map, harity])]

theorem takesEach_of_takes {given : List (List Token × Expr)}
    (h : ∀ a ∈ given, ∀ taken : List Located, taken.map Located.token = a.1 →
      Takes stop levels (.tier .or) taken a.2) :
    TakesEach (expression (unary stop levels)) given :=
  fun a ha taken htaken _ _ rest hs hc => (h a ha taken htaken).expression_eq hs hc rest

/-- A primary expression of one token is read at once. -/
theorem takes_one {t : Located} {e : Expr}
    (h : ∀ rest, Parser.primary stop (expression (unary stop levels)) (t :: rest) =
      .ok (e, rest)) : Takes stop levels .primary [t] e := fun rest => h rest

theorem takes_constant {t : Located} {k : Keyword} {value : Json} (ht : t.token = .keyword k)
    (h : Constant k value) : Takes stop levels .primary [t] (.literal value) := by
  refine takes_one fun rest => ?_
  rw [primary, ht]
  cases h <;> rfl

theorem takes_number {t : Located} {digits : String} (ht : t.token = .number digits)
    (h : (numberLiteral digits.toList).isSome) :
    Takes stop levels .primary [t] (.literal (numberValue digits)) := by
  obtain ⟨value, hvalue⟩ := Option.isSome_iff_exists.mp h
  refine takes_one fun rest => ?_
  rw [primary, ht]
  simp only [hvalue, numberValue, Option.getD_some]

/-! ## Derivations -/

/-- By induction on the derivation: the tokens of its conclusion are taken apart as the rule
puts them together. -/
theorem takes_of_derives {phrase : Phrase} {ts : List Token} {e : Expr}
    (h : Derives phrase levels ts e) (hvalued : Valued ts) {taken : List Located}
    (htaken : taken.map Located.token = ts) : Takes stop levels phrase taken e := by
  induction h generalizing taken with
  | operand _ ih => exact (ih hvalued htaken).operand
  | binary _ hop _ ihl ihr =>
      obtain ⟨ls, o, rs, rfl, hls, ho, hrs⟩ := exists_around htaken
      have hl := ihl (hvalued.mono (by simp)) hls
      have hr := ihr (hvalued.mono (by simp)) hrs
      exact hl.binary hop ho hr
  | not _ ih =>
      obtain ⟨o, ts, rfl, ho, hts⟩ := List.map_eq_cons_iff.mp htaken
      exact (ih (hvalued.mono (by simp)) hts).not ho
  | negate _ ih =>
      obtain ⟨o, ts, rfl, ho, hts⟩ := List.map_eq_cons_iff.mp htaken
      exact (ih (hvalued.mono (by simp)) hts).negate ho
  | plain hsuffixed ih =>
      -- no suffixed expression begins with a unary operator
      obtain ⟨token, tokens, rfl, -, hplain⟩ := hsuffixed.exists_first
      obtain ⟨t, ts, rfl, rfl, hts⟩ := List.map_eq_cons_iff.mp htaken
      exact (ih hvalued htaken).plain (hplain (.inl rfl))
  | primary _ ih => exact (ih hvalued htaken).primary
  | member _ hname ih =>
      obtain ⟨ts, d, ns, rfl, hts, hd, hns⟩ := exists_around htaken
      obtain ⟨n, rfl, rfl⟩ := List.map_eq_singleton_iff.mp hns
      exact (ih (hvalued.mono (by simp)) hts).member hd hname
  | subscript _ _ ih ihk =>
      rw [List.append_assoc] at htaken
      obtain ⟨ts, os, rfl, hts, hos⟩ := List.map_eq_append_iff.mp htaken
      obtain ⟨o, ks, c, rfl, ho, hks, hc⟩ := exists_enclosed hos
      have hkey := ihk (hvalued.mono fun t ht => by simp [ht]) hks
      exact (ih (hvalued.mono (by simp)) hts).subscript ho hkey hc
  | constant hconstant =>
      obtain ⟨t, rfl, ht⟩ := List.map_eq_singleton_iff.mp htaken
      exact takes_constant ht hconstant
  | number digits =>
      obtain ⟨t, rfl, ht⟩ := List.map_eq_singleton_iff.mp htaken
      exact takes_number ht (hvalued digits (by simp))
  | quoted mark raw =>
      obtain ⟨t, rfl, ht⟩ := List.map_eq_singleton_iff.mp htaken
      exact takes_one fun rest => by rw [primary, ht]
  | model | index =>
      obtain ⟨t, rfl, ht⟩ := List.map_eq_singleton_iff.mp htaken
      exact takes_one fun rest => by rw [primary, ht]; rfl
  | group _ ih =>
      obtain ⟨o, ts, c, rfl, ho, hts, hc⟩ := exists_enclosed htaken
      exact (ih (hvalued.mono (by simp)) hts).group ho hc
  | call hgiven harity ih =>
      obtain ⟨t, os, rfl, ht, hos⟩ := List.map_eq_cons_iff.mp htaken
      obtain ⟨o, ts, c, rfl, ho, hts, hc⟩ := exists_enclosed hos
      refine takes_call ht ho hc hts (takesEach_of_takes fun a ha taken htaken => ?_) hgiven harity
      exact ih a ha (hvalued.mono fun t ht => by simp [subset_separated ha ht]) htaken

/-- The grammar is unambiguous: both derivations denote what the reader gives. -/
theorem derives_unique {phrase : Phrase} {ts : List Token} {e e' : Expr} (hvalued : Valued ts)
    (h : Derives phrase levels ts e) (h' : Derives phrase levels ts e') : e = e' := by
  have htokens : (ts.map fun t => (⟨t, 0, 0⟩ : Located)).map Located.token = ts := by
    rw [List.map_map]
    exact List.map_id ts
  have hend : Stops phrase [] := trivial
  have hread := (@takes_of_derives 0 _ _ _ _ h hvalued _ htokens).reader_eq hend
  have hread' := (@takes_of_derives 0 _ _ _ _ h' hvalued _ htokens).reader_eq hend
  cases hread.symm.trans hread'
  rfl

theorem skip_cons {token : Token} {t : Located} (h : t.token = token) (rest : List Located) :
    skip token (t :: rest) = rest := by
  rw [skip, if_pos h]

/-- No expression begins with `return`, so only the word before it is passed over. -/
theorem skip_returns {opening body : List Token} {os taken : List Located} {e : Expr}
    (hopening : opening = [] ∨ opening = [.keyword .returns])
    (hderives : Derives (.tier .or) levels body e) (hos : os.map Located.token = opening)
    (htaken : taken.map Located.token = body) (rest : List Located) :
    skip (.keyword .returns) (os ++ taken ++ rest) = taken ++ rest := by
  rcases hopening with rfl | rfl
  · rw [List.map_eq_nil_iff.mp hos]
    obtain ⟨token, tokens, rfl, hopens, -⟩ := hderives.exists_first
    obtain ⟨t, ts, rfl, rfl, -⟩ := List.map_eq_cons_iff.mp htaken
    rw [List.nil_append, List.cons_append, skip, if_neg hopens.2]
  · obtain ⟨o, rfl, ho⟩ := List.map_eq_singleton_iff.mp hos
    rw [List.singleton_append, List.cons_append, skip_cons ho]

theorem program_complete {ts : List Located} {e : Expr} (hvalued : Valued (ts.map Located.token))
    (h : Program maxNesting (ts.map Located.token) e) : program stop ts = .ok e := by
  obtain ⟨opening, body, closing, hts, hopening, hclosing, hderives⟩ := h
  rw [hts] at hvalued
  obtain ⟨front, back, rfl, hfront, hback⟩ := List.map_eq_append_iff.mp hts
  obtain ⟨os, taken, rfl, hos, htaken⟩ := List.map_eq_append_iff.mp hfront
  have hbody : Valued body := hvalued.mono fun t ht => by simp [ht]
  have htakes := @takes_of_derives stop _ _ _ _ hderives hbody _ htaken
  have hread : expression (unary stop maxNesting) (taken ++ back) = .ok (e, back) ∧
      skip (.symbol .semicolon) back = [] := by
    rcases hclosing with rfl | rfl
    · rw [List.map_eq_nil_iff.mp hback]
      exact ⟨htakes.reader_eq trivial, rfl⟩
    · obtain ⟨c, rfl, hc⟩ := List.map_eq_singleton_iff.mp hback
      exact ⟨htakes.expression_eq (.inr (.inr (.inr rfl))) hc [], skip_cons hc []⟩
  rw [program, skip_returns hopening hderives hos htaken, hread.1]
  simp only [bind, Except.bind, hread.2]
  rfl

end Curator.Predicate.Parser

namespace Curator.Predicate

open Grammar

theorem parse_of_program {source : String} {tokens : List Located} {e : Expr}
    (h : tokenize source = .ok tokens) (hlength : tokens.length ≤ maxTokens)
    (hprogram : Program maxNesting (tokens.map Located.token) e) :
    parse source = .ok ⟨source, e⟩ := by
  have hnone : tokens[maxTokens]? = none := List.getElem?_eq_none_iff.mpr hlength
  rw [parse, h]
  simp only [hnone, Parser.program_complete (valued_tokenize h) hprogram]

/-- A predicate is what the grammar derives from the tokens of its source, if they are not
too many and no path of the derivation nests too many unary phrases. -/
theorem parse_eq_ok_iff {source : String} {tokens : List Located}
    (h : tokenize source = .ok tokens) (p : Compiled) :
    parse source = .ok p ↔
      p.source = source ∧ tokens.length ≤ 1024 ∧
        Program 64 (tokens.map Located.token) p.expr := by
  constructor
  · intro hparse
    obtain ⟨hsource, read, hread, hlength, hprogram⟩ := program_of_parse hparse
    cases h.symm.trans hread
    exact ⟨hsource, hlength, hprogram⟩
  · rintro ⟨hsource, hlength, hprogram⟩
    cases p
    cases hsource
    exact parse_of_program h hlength hprogram

/-- The operators bind as tightly as they should, and the looser ones group to the left. -/
theorem parse_of_mixed_operators :
    parse "index || !index && model < index || model;" =
      .ok ⟨"index || !index && model < index || model;",
        .binary .or
          (.binary .or .index (.binary .and (.not .index) (.binary .less .model .index)))
          .model⟩ := by
  have htokens : tokenize "index || !index && model < index || model;" =
      .ok [⟨.ident "index", 0, 5⟩, ⟨.symbol .or, 6, 8⟩, ⟨.symbol .bang, 9, 10⟩,
        ⟨.ident "index", 10, 15⟩, ⟨.symbol .and, 16, 18⟩, ⟨.ident "model", 19, 24⟩,
        ⟨.symbol .less, 25, 26⟩, ⟨.ident "index", 27, 32⟩, ⟨.symbol .or, 33, 35⟩,
        ⟨.ident "model", 36, 41⟩, ⟨.symbol .semicolon, 41, 42⟩] := by
    decide +kernel
  have hindex : Derives .unary 64 [.ident "index"] .index := .plain (.primary .index)
  have hmodel : Derives (.tier .comparison) 64 [.ident "model"] .model :=
    .operand (.plain (.primary .model))
  have hless : Derives (.tier .comparison) 64 [.ident "model", .symbol .less, .ident "index"]
      (.binary .less .model .index) := .binary hmodel .less hindex
  have hnot : Derives (.tier .and) 64 [.symbol .bang, .ident "index"] (.not .index) :=
    .operand (.operand (.operand (.not (.plain (.primary .index)))))
  have hand := Derives.binary hnot .and (.operand hless)
  have hfirst : Derives (.tier .or) 64 [.ident "index"] .index :=
    .operand (.operand (.operand (.operand hindex)))
  have hlast : Derives (.tier .and) 64 [.ident "model"] .model := .operand (.operand hmodel)
  have hall := (hfirst.binary .or hand).binary .or hlast
  exact (parse_eq_ok_iff htokens _).mpr
    ⟨rfl, by decide, [], _, [.symbol .semicolon], rfl, .inl rfl, .inr rfl, hall⟩

end Curator.Predicate
