import Curator.Proofs.Except
import Curator.Proofs.Predicate.Grammar

/-! # What the reader reads is derivable

A reader of expressions is sound for a phrase when the tokens that it takes derive the
phrase and denote the expression that it gives. Chains keep this by induction on their
fuel, with the tokens before the chain as a phrase of the same level, and the whole
reader keeps it by induction on the levels that may still open.
-/

namespace Curator.Predicate.Parser

open Grammar

/-! ## Readers by phrase -/

def operator? : Tier → Token → Option BinaryOp
  | .or => orOp?
  | .and => andOp?
  | .equality => equalityOp?
  | .comparison => comparisonOp?

theorem operator?_eq_some_iff {t : Tier} {token : Token} {op : BinaryOp} :
    operator? t token = some op ↔ ∃ s, token = .symbol s ∧ Operator t s op := by
  constructor
  · intro h
    cases t <;> simp only [operator?, orOp?, andOp?, equalityOp?, comparisonOp?] at h <;>
      split at h <;> cases h <;> exact ⟨_, rfl, by constructor⟩
  · rintro ⟨s, rfl, h⟩
    cases h <;> rfl

theorem propertyName?_eq_some_iff {token : Token} {name : String} :
    propertyName? token = some name ↔ PropertyName token name := by
  constructor
  · intro h
    unfold propertyName? at h
    split at h <;> cases h <;> constructor
  · intro h
    cases h <;> rfl

theorem expect_eq_ok_iff {stop : Nat} {s : Symbol} {ts rest : List Located} :
    expect stop s ts = .ok rest ↔ ∃ t, ts = t :: rest ∧ t.token = .symbol s := by
  cases ts with
  | nil => simp [expect]
  | cons t rest' =>
      simp only [expect, List.cons.injEq]
      split
      · next h => exact ⟨fun h' => ⟨t, ⟨rfl, by cases h'; rfl⟩, h⟩, fun ⟨_, ⟨_, h'⟩, _⟩ => h' ▸ rfl⟩
      · next h => exact ⟨nofun, fun ⟨_, ⟨h', _⟩, hs⟩ => absurd (h' ▸ hs) h⟩

def suffixed (stop : Nat) (inner : List Located → Parsed) (ts : List Located) : Parsed := do
  let (object, rest) ← primary stop inner ts
  suffixesFrom stop inner rest.length object rest

def tier (unary : List Located → Parsed) : Tier → List Located → Parsed
  | .or => expression unary
  | .and => chain andOp? (chain equalityOp? (chain comparisonOp? unary))
  | .equality => chain equalityOp? (chain comparisonOp? unary)
  | .comparison => chain comparisonOp? unary

/-- The reader of a phrase in which at most so many unary levels may open. -/
def reader (stop levels : Nat) : Phrase → List Located → Parsed
  | .tier t => tier (unary stop levels) t
  | .unary => unary stop levels
  | .suffixed => suffixed stop (expression (unary stop levels))
  | .primary => primary stop (expression (unary stop levels))

theorem reader_tier (stop levels : Nat) (t : Tier) :
    reader stop levels (.tier t) = chain (operator? t) (reader stop levels t.operand) := by
  cases t <;> rfl

/-! ## Soundness -/

/-- The tokens that the reader takes derive what it gives. -/
def Sound (read : List Located → Parsed) (derives : List Token → Expr → Prop) : Prop :=
  ∀ ⦃ts : List Located⦄ ⦃e : Expr⦄ ⦃rest : List Located⦄, read ts = .ok (e, rest) →
    ∃ taken, ts = taken ++ rest ∧ derives (taken.map Located.token) e

variable {stop levels : Nat} {inner : List Located → Parsed}

theorem chainFrom_sound {t : Tier} {operand : List Located → Parsed}
    (hoperand : Sound operand (Derives t.operand levels)) {fuel : Nat} {left e : Expr}
    {ts rest : List Located} {front : List Token} (hfront : Derives (.tier t) levels front left)
    (h : chainFrom (operator? t) operand fuel left ts = .ok (e, rest)) :
    ∃ taken, ts = taken ++ rest ∧
      Derives (.tier t) levels (front ++ taken.map Located.token) e := by
  induction fuel generalizing left ts front with
  | zero =>
      cases ts <;> cases h <;> exact ⟨[], rfl, by simpa using hfront⟩
  | succ fuel ih =>
      cases ts with
      | nil =>
          cases h
          exact ⟨[], rfl, by simpa using hfront⟩
      | cons o ts =>
          rw [chainFrom] at h
          split at h
          · next op hop =>
              obtain ⟨s, hs, hoperator⟩ := operator?_eq_some_iff.mp hop
              obtain ⟨⟨right, between⟩, hright, hmore⟩ := bind_eq_ok_iff.mp h
              obtain ⟨taken, rfl, hderives⟩ := hoperand hright
              -- what was read so far is the left operand of the next operator
              obtain ⟨more, rfl, hwhole⟩ := ih (.binary hfront hoperator hderives) hmore
              refine ⟨o :: taken ++ more, by simp, ?_⟩
              simpa [hs] using hwhole
          · cases h
            exact ⟨[], rfl, by simpa using hfront⟩

theorem chain_sound {t : Tier} {operand : List Located → Parsed}
    (hoperand : Sound operand (Derives t.operand levels)) :
    Sound (chain (operator? t) operand) (Derives (.tier t) levels) := by
  intro ts e rest h
  obtain ⟨⟨left, between⟩, hleft, hmore⟩ := bind_eq_ok_iff.mp h
  obtain ⟨taken, rfl, hderives⟩ := hoperand hleft
  obtain ⟨more, rfl, hwhole⟩ := chainFrom_sound hoperand (.operand hderives) hmore
  exact ⟨taken ++ more, by simp, by simpa using hwhole⟩

theorem tier_sound (hunary : Sound (unary stop levels) (Derives .unary levels)) (t : Tier) :
    Sound (reader stop levels (.tier t)) (Derives (.tier t) levels) := by
  have hcomparison : Sound (reader stop levels (.tier .comparison)) _ :=
    @chain_sound _ .comparison _ hunary
  have hequality : Sound (reader stop levels (.tier .equality)) _ :=
    @chain_sound _ .equality _ hcomparison
  have hand : Sound (reader stop levels (.tier .and)) _ := @chain_sound _ .and _ hequality
  cases t with
  | or => exact @chain_sound _ .or _ hand
  | and => exact hand
  | equality => exact hequality
  | comparison => exact hcomparison

theorem suffixesFrom_sound (hinner : Sound inner (Derives (.tier .or) levels)) {fuel : Nat}
    {object e : Expr} {ts rest : List Located} {front : List Token}
    (hfront : Derives .suffixed levels front object)
    (h : suffixesFrom stop inner fuel object ts = .ok (e, rest)) :
    ∃ taken, ts = taken ++ rest ∧
      Derives .suffixed levels (front ++ taken.map Located.token) e := by
  induction fuel generalizing object ts front with
  | zero =>
      cases h
      exact ⟨[], rfl, by simpa using hfront⟩
  | succ fuel ih =>
      cases ts with
      | nil =>
          cases h
          exact ⟨[], rfl, by simpa using hfront⟩
      | cons t ts =>
          rw [suffixesFrom.eq_def] at h
          simp only at h
          split at h
          · next htoken =>
              cases ts with
              | nil => cases h
              | cons n ts =>
                  simp only at h
                  split at h
                  · next name hname =>
                      have hmember := Derives.member hfront (propertyName?_eq_some_iff.mp hname)
                      obtain ⟨more, rfl, hwhole⟩ := ih hmember h
                      refine ⟨t :: n :: more, rfl, ?_⟩
                      simpa [htoken] using hwhole
                  · cases h
          · next htoken =>
              obtain ⟨⟨key, between⟩, hkey, hclose⟩ := bind_eq_ok_iff.mp h
              obtain ⟨after, hexpect, hmore⟩ := bind_eq_ok_iff.mp hclose
              obtain ⟨taken, rfl, hderives⟩ := hinner hkey
              obtain ⟨c, rfl, hc⟩ := expect_eq_ok_iff.mp hexpect
              obtain ⟨more, rfl, hwhole⟩ := ih (.subscript hfront hderives) hmore
              refine ⟨t :: taken ++ c :: more, by simp, ?_⟩
              simpa [htoken, hc] using hwhole
          · cases h
            exact ⟨[], rfl, by simpa using hfront⟩

/-- What is read as arguments and does not end the source is a list of them. -/
theorem argumentsFrom_sound (hinner : Sound inner (Derives (.tier .or) levels)) {fuel : Nat}
    {ts rest : List Located} {es : List Expr} (hfuel : ts.length ≤ fuel) (hrest : rest ≠ [])
    (h : argumentsFrom inner fuel ts = .ok (es, rest)) :
    ∃ taken given, ts = taken ++ rest ∧ given ≠ [] ∧
      taken.map Located.token = separated given ∧ es = given.map Prod.snd ∧
      ∀ a ∈ given, Derives (.tier .or) levels a.1 a.2 := by
  induction fuel generalizing ts rest es with
  | zero =>
      cases h
      exact absurd (List.eq_nil_of_length_eq_zero (Nat.le_zero.mp hfuel)) hrest
  | succ fuel ih =>
      obtain ⟨⟨first, between⟩, hfirst, hmore⟩ := bind_eq_ok_iff.mp h
      obtain ⟨taken, rfl, hderives⟩ := hinner hfirst
      -- an argument takes a token at least, so the fuel lasts
      have hpos := hderives.length_pos
      -- the one argument there is, where no comma follows it
      have hlast : ∃ last given, taken ++ between = last ++ between ∧ given ≠ [] ∧
          last.map Located.token = separated given ∧ [first] = given.map Prod.snd ∧
          ∀ a ∈ given, Derives (.tier .or) levels a.1 a.2 :=
        ⟨taken, [(taken.map Located.token, first)], rfl, by simp, by rw [separated_singleton],
          rfl, by simpa using hderives⟩
      cases between with
      | nil =>
          cases hmore
          exact hlast
      | cons t between =>
          simp only at hmore
          split at hmore
          · next hcomma =>
              obtain ⟨⟨others, after⟩, hothers, hreturn⟩ := bind_eq_ok_iff.mp hmore
              cases hreturn
              have hfuel' : between.length ≤ fuel := by
                simp only [List.length_append, List.length_cons, List.length_map] at hfuel hpos
                omega
              obtain ⟨more, given, rfl, hne, hmap, rfl, hall⟩ := ih hfuel' hrest hothers
              refine ⟨taken ++ t :: more, (taken.map Located.token, first) :: given,
                by simp, by simp, ?_, rfl, ?_⟩
              · rw [separated_cons _ hne, ← hmap]
                simp [hcomma]
              · simpa using ⟨hderives, fun a b hab => hall (a, b) hab⟩
          · cases hmore
            exact hlast

theorem arguments_sound (hinner : Sound inner (Derives (.tier .or) levels))
    {ts rest : List Located} {es : List Expr} (hes : es ≠ []) (hrest : rest ≠ [])
    (h : arguments inner ts = .ok (es, rest)) :
    ∃ taken given, ts = taken ++ rest ∧ taken.map Located.token = separated given ∧
      es = given.map Prod.snd ∧ ∀ a ∈ given, Derives (.tier .or) levels a.1 a.2 := by
  cases ts with
  | nil =>
      obtain ⟨taken, given, hread⟩ := argumentsFrom_sound hinner (Nat.zero_le 1) hrest h
      exact ⟨taken, given, hread.1, hread.2.2⟩
  | cons t ts =>
      rw [arguments] at h
      split at h
      · cases h
        exact absurd rfl hes
      · obtain ⟨taken, given, hread⟩ := argumentsFrom_sound hinner (Nat.le_refl _) hrest h
        exact ⟨taken, given, hread.1, hread.2.2⟩

theorem call_sound (hinner : Sound inner (Derives (.tier .or) levels)) {f : Builtin}
    {name : Located} (hname : name.token = .ident f.spelling) {position : Nat}
    {ts rest : List Located} {e : Expr} (h : call stop inner f position ts = .ok (e, rest)) :
    ∃ taken, name :: ts = taken ++ rest ∧ Derives .primary levels (taken.map Located.token) e := by
  obtain ⟨ts', hopen, hcall⟩ := bind_eq_ok_iff.mp h
  obtain ⟨⟨es, after⟩, hes, hend⟩ := bind_eq_ok_iff.mp hcall
  obtain ⟨rest', hclose, hreturn⟩ := bind_eq_ok_iff.mp hend
  obtain ⟨o, rfl, ho⟩ := expect_eq_ok_iff.mp hopen
  obtain ⟨c, rfl, hc⟩ := expect_eq_ok_iff.mp hclose
  split at hreturn
  · next harity =>
      cases hreturn
      have hne : es ≠ [] := by
        rintro rfl
        cases f <;> cases harity
      obtain ⟨taken, given, rfl, hmap, rfl, hall⟩ := arguments_sound hinner hne (by simp) hes
      have hderives := Derives.call hall (by simpa using harity)
      rw [← hmap] at hderives
      exact ⟨name :: o :: taken ++ [c], by simp, by simpa [hname, ho, hc] using hderives⟩
  · cases hreturn

theorem group_sound (hinner : Sound inner (Derives (.tier .or) levels)) {o : Located}
    (ho : o.token = .symbol .openParen) {ts between rest : List Located} {e : Expr}
    (hinside : inner ts = .ok (e, between)) (hclose : expect stop .closeParen between = .ok rest) :
    ∃ taken, o :: ts = taken ++ rest ∧ Derives .primary levels (taken.map Located.token) e := by
  obtain ⟨taken, rfl, hderives⟩ := hinner hinside
  obtain ⟨c, rfl, hc⟩ := expect_eq_ok_iff.mp hclose
  exact ⟨o :: taken ++ [c], by simp, by simpa [ho, hc] using Derives.group hderives⟩

/-- Most primary expressions are one token. -/
theorem token_sound {t : Located} {ts rest : List Located} {value e : Expr}
    (hderives : Derives .primary levels [t.token] value)
    (h : (Except.ok (value, ts) : Parsed) = .ok (e, rest)) :
    ∃ taken, t :: ts = taken ++ rest ∧ Derives .primary levels (taken.map Located.token) e := by
  cases h
  exact ⟨[t], rfl, hderives⟩

theorem primary_sound (hinner : Sound inner (Derives (.tier .or) levels)) :
    Sound (primary stop inner) (Derives .primary levels) := by
  intro ts e rest h
  cases ts with
  | nil => cases h
  | cons t ts =>
      rw [primary] at h
      split at h
      · next htoken => exact token_sound (htoken ▸ .constant .yes) h
      · next htoken => exact token_sound (htoken ▸ .constant .no) h
      · next htoken => exact token_sound (htoken ▸ .constant .null) h
      · next htoken => exact token_sound (htoken ▸ .constant .undefined) h
      · next digits htoken =>
          split at h
          · next value hvalue =>
              have hnumber := @Derives.number levels digits
              rw [numberValue, hvalue] at hnumber
              exact token_sound (htoken ▸ hnumber) h
          · cases h
      · next htoken => exact token_sound (htoken ▸ .quoted _ _) h
      · next name htoken =>
          split at h
          · next hname => exact token_sound (htoken ▸ hname ▸ .model) h
          · split at h
            · next hname => exact token_sound (htoken ▸ hname ▸ .index) h
            · split at h
              · next f hf =>
                  have hspelling := List.find?_some hf
                  exact call_sound hinner (by rw [htoken, eq_of_beq hspelling]) h
              · cases h
      · next htoken =>
          obtain ⟨⟨inside, after⟩, hinside, hend⟩ := bind_eq_ok_iff.mp h
          obtain ⟨rest', hclose, hreturn⟩ := bind_eq_ok_iff.mp hend
          cases hreturn
          exact group_sound hinner htoken hinside hclose
      · cases h

theorem suffixed_sound (hinner : Sound inner (Derives (.tier .or) levels)) :
    Sound (suffixed stop inner) (Derives .suffixed levels) := by
  intro ts e rest h
  obtain ⟨⟨object, between⟩, hobject, hmore⟩ := bind_eq_ok_iff.mp h
  obtain ⟨taken, rfl, hderives⟩ := primary_sound hinner hobject
  obtain ⟨more, rfl, hwhole⟩ := suffixesFrom_sound hinner (.primary hderives) hmore
  exact ⟨taken ++ more, by simp, by simpa using hwhole⟩

/-- By induction on the levels: the expressions inside an operand are read with one
less. -/
theorem unary_sound (stop levels : Nat) : Sound (unary stop levels) (Derives .unary levels) := by
  induction levels with
  | zero =>
      intro ts e rest h
      cases h
  | succ levels ih =>
      intro ts e rest h
      rw [unary.eq_def] at h
      simp only at h
      split at h
      · obtain ⟨⟨operand, after⟩, hoperand, hreturn⟩ := bind_eq_ok_iff.mp h
        obtain ⟨taken, rfl, hderives⟩ := ih hoperand
        cases hreturn
        exact ⟨_ :: taken, rfl, .not hderives⟩
      · obtain ⟨⟨operand, after⟩, hoperand, hreturn⟩ := bind_eq_ok_iff.mp h
        obtain ⟨taken, rfl, hderives⟩ := ih hoperand
        cases hreturn
        exact ⟨_ :: taken, rfl, .negate hderives⟩
      · obtain ⟨taken, rfl, hderives⟩ := suffixed_sound (tier_sound ih .or) h
        exact ⟨taken, rfl, .plain hderives⟩

theorem expression_sound (stop levels : Nat) :
    Sound (expression (unary stop levels)) (Derives (.tier .or) levels) :=
  tier_sound (unary_sound stop levels) .or

theorem skip_eq (token : Token) (ts : List Located) :
    ∃ skipped, ts = skipped ++ skip token ts ∧
      (skipped.map Located.token = [] ∨ skipped.map Located.token = [token]) := by
  cases ts with
  | nil => exact ⟨[], rfl, .inl rfl⟩
  | cons t rest =>
      rw [skip]
      split
      · next h => exact ⟨[t], rfl, .inr (by simp [h])⟩
      · exact ⟨[], rfl, .inl rfl⟩

/-- What is read as a program is one, nested no more than predicates may be. -/
theorem program_sound {ts : List Located} {e : Expr} (h : program stop ts = .ok e) :
    Program maxNesting (ts.map Located.token) e := by
  obtain ⟨⟨e', rest⟩, hread, hend⟩ := bind_eq_ok_iff.mp h
  obtain ⟨taken, htaken, hderives⟩ := expression_sound stop maxNesting hread
  obtain ⟨opening, hopening, hopens⟩ := skip_eq (.keyword .returns) ts
  obtain ⟨closing, hclosing, hcloses⟩ := skip_eq (.symbol .semicolon) rest
  simp only at hend
  split at hend
  · next hnone =>
      cases hend
      rw [hnone, List.append_nil] at hclosing
      refine ⟨opening.map Located.token, taken.map Located.token, closing.map Located.token, ?_,
        hopens, hcloses, hderives⟩
      rw [hopening, htaken, hclosing]
      simp
  · cases hend

end Curator.Predicate.Parser

namespace Curator.Predicate

/-- A predicate that has been read has not too many tokens and is derived from them. -/
theorem program_of_parse {source : String} {p : Compiled} (h : parse source = .ok p) :
    p.source = source ∧ ∃ tokens, tokenize source = .ok tokens ∧ tokens.length ≤ maxTokens ∧
      Grammar.Program maxNesting (tokens.map Located.token) p.expr := by
  unfold parse at h
  split at h
  · cases h
  · next tokens htokens =>
      split at h
      · cases h
      · next hnone =>
          split at h
          · next e hprogram =>
              cases h
              exact ⟨rfl, tokens, htokens, List.getElem?_eq_none_iff.mp hnone,
                Parser.program_sound hprogram⟩
          · cases h

end Curator.Predicate
