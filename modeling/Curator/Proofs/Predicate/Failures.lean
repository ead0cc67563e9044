import Curator.Proofs.Binary64
import Curator.Proofs.Predicate.Numerals
import Curator.Proofs.Predicate.WellFormed

/-! # Failures that do not arise

Calls have as many arguments as their function takes, and every number has a nearest float, so
the evaluator never meets a call that is short of arguments or two numbers without an order. The
reader never meets a numeral without a value, since the lexer cuts none.
-/

namespace Curator.Predicate

/-! ## Evaluating -/

/-- The failures of expressions that cannot be read. -/
inductive EvalFailure.Internal : EvalFailure → Prop where
  | noArguments (f : Builtin) : Internal (.noArguments f)
  | containsNeedsTwo : Internal .containsNeedsTwo
  | notComparable : Internal .notComparable

/-- The failures that an expression which was read can have where a position is given or not. -/
inductive EvalFailure.Raised (index : Option Nat) : EvalFailure → Prop where
  | indexOutsideRule (h : index = none) : Raised index .indexOutsideRule
  | cannotNegate (kind : Json.Kind) : Raised index (.cannotNegate kind)
  | invalidIndex (n : Number) : Raised index (.invalidIndex n)
  | cannotIndexWith (kind : Json.Kind) : Raised index (.cannotIndexWith kind)
  | cannotCompare (left right : Json.Kind) : Raised index (.cannotCompare left right)
  | lengthOf (kind : Json.Kind) : Raised index (.lengthOf kind)
  | containsOn (haystack needle : Json.Kind) : Raised index (.containsOn haystack needle)

abbrev Raises (index : Option Nat) {α : Type} (x : Except EvalFailure α) : Prop :=
  Ensures (fun _ => True) (EvalFailure.Raised index) x

variable {document : Json} {index : Option Nat}

theorem raises_select (object key : Json) : Raises index (select object key) := by
  unfold select
  split
  · trivial
  · split
    · exact .invalidIndex _
    · split <;> trivial
  · trivial
  · exact .cannotIndexWith _

theorem raises_negate (value : Json) : Raises index (negate value) := by
  unfold negate
  split
  · split
    · trivial
    · exact .cannotNegate _
  · exact .cannotNegate _

theorem raises_len (value : Json) : Raises index (len value) := by
  unfold len
  split
  · trivial
  · trivial
  · trivial
  · exact .lengthOf _

theorem raises_contains (haystack needle : Json) : Raises index (contains haystack needle) := by
  unfold contains
  split
  · trivial
  · trivial
  · trivial
  · trivial
  · exact .containsOn _ _

/-- Every number has a nearest float, so two numbers always compare. -/
theorem raises_order (left right : Json) : Raises index (order left right) := by
  unfold order
  split
  · next a b =>
      obtain ⟨x, hx⟩ := a.exists_toBinary64?
      obtain ⟨y, hy⟩ := b.exists_toBinary64?
      rw [hx, hy]
      trivial
  · trivial
  · exact .cannotCompare _ _

theorem raises_binary {left right : Expr} (op : BinaryOp)
    (hl : Raises index (eval document index left)) (hr : Raises index (eval document index right)) :
    Raises index (eval document index (.binary op left right)) := by
  have hright : Raises index (eval document index right >>= fun b => pure (Json.bool b.truthy)) :=
    hr.bind fun _ _ => trivial
  have hequal : ∀ same : Json → Json → Bool,
      Raises index (eval document index left >>= fun a =>
        eval document index right >>= fun b => pure (Json.bool (same a b))) :=
    fun same => hl.bind fun _ _ => hr.bind fun _ _ => trivial
  have hordered : Raises index (eval document index left >>= fun a =>
      eval document index right >>= fun b =>
        order a b >>= fun c => pure (Json.bool (op.accepts c))) :=
    hl.bind fun a _ => hr.bind fun b _ => (raises_order a b).bind fun _ _ => trivial
  cases op with
  | or =>
      refine hl.bind fun a _ => ?_
      split
      · trivial
      · exact hright
  | and =>
      refine hl.bind fun a _ => ?_
      split
      · exact hright
      · trivial
  | equal => exact hequal fun a b => a.looselyEqual b
  | notEqual => exact hequal fun a b => !a.looselyEqual b
  | less => exact hordered
  | lessEqual => exact hordered
  | greater => exact hordered
  | greaterEqual => exact hordered

/-- A function is called with one argument at least, and `contains` with two. -/
theorem raises_call {f : Builtin} {arguments : List Expr} (harity : arguments.length = f.arity)
    (h : ∀ a ∈ arguments, Raises index (eval document index a)) :
    Raises index (eval document index (.call f arguments)) := by
  cases f with
  | contains =>
      obtain ⟨a, b, rfl⟩ := List.length_eq_two.mp harity
      exact (h a (by simp)).bind fun haystack _ =>
        (h b (by simp)).bind fun needle _ => raises_contains haystack needle
  | present =>
      obtain ⟨a, rfl⟩ := List.length_eq_one_iff.mp harity
      exact (h a (by simp)).bind fun _ _ => trivial
  | empty =>
      obtain ⟨a, rfl⟩ := List.length_eq_one_iff.mp harity
      exact (h a (by simp)).bind fun _ _ => trivial
  | len =>
      obtain ⟨a, rfl⟩ := List.length_eq_one_iff.mp harity
      exact (h a (by simp)).bind fun value _ => raises_len value

/-- By induction on the expression, a case for each form. -/
theorem raises_eval {e : Expr} (h : e.WellFormed) : Raises index (eval document index e) := by
  induction h with
  | literal => trivial
  | model => trivial
  | index =>
      cases index with
      | none => exact .indexOutsideRule rfl
      | some i => trivial
  | member _ name ih => exact ih.bind fun _ _ => trivial
  | subscript _ _ ih ihk =>
      exact ih.bind fun object _ => ihk.bind fun key _ => raises_select object key
  | not _ ih => exact ih.bind fun _ _ => trivial
  | negate _ ih => exact ih.bind fun value _ => raises_negate value
  | binary op _ _ ihl ihr => exact raises_binary op ihl ihr
  | call _ harity ih => exact raises_call harity ih

theorem raised_of_holds {p : Compiled} {failure : EvalFailure} (h : p.expr.WellFormed)
    (hfails : p.holds document index = .error failure) : failure.Raised index := by
  have hraises : Raises index (p.holds document index) :=
    (raises_eval h).bind fun _ _ => trivial
  rwa [hfails] at hraises

/-! ## Messages -/

/-- How the messages of failures that do arise begin, but for that of a position not given. -/
def openings : List String :=
  ["cannot negate a ", "invalid array index ", "cannot index with a ", "cannot compare ",
    "len() of a ", "contains() on a "]

theorem toList_prefix_append (s t : String) : s.toList <+: (s ++ t).toList := by
  rw [String.toList_append]
  exact List.prefix_append _ _

theorem EvalFailure.Raised.opens {failure : EvalFailure} (h : failure.Raised index) :
    failure = .indexOutsideRule ∧ index = none ∨
      ∃ opening ∈ openings, opening.toList <+: failure.message.toList := by
  cases h with
  | indexOutsideRule h => exact .inl ⟨rfl, h⟩
  | cannotNegate kind =>
      exact .inr ⟨"cannot negate a ", by simp [openings], toList_prefix_append _ _⟩
  | invalidIndex n =>
      exact .inr ⟨"invalid array index ", by simp [openings], toList_prefix_append _ _⟩
  | cannotIndexWith kind =>
      exact .inr ⟨"cannot index with a ", by simp [openings], toList_prefix_append _ _⟩
  | cannotCompare left right =>
      refine .inr ⟨"cannot compare ", by simp [openings], ?_⟩
      exact ((toList_prefix_append _ left.name).trans (toList_prefix_append _ _)).trans
        (toList_prefix_append _ _)
  | lengthOf kind => exact .inr ⟨"len() of a ", by simp [openings], toList_prefix_append _ _⟩
  | containsOn haystack needle =>
      refine .inr ⟨"contains() on a ", by simp [openings], ?_⟩
      exact ((toList_prefix_append _ haystack.name).trans (toList_prefix_append _ _)).trans
        (toList_prefix_append _ _)

theorem EvalFailure.Internal.message_ne_indexOutsideRule {failure : EvalFailure}
    (h : failure.Internal) : failure.message ≠ EvalFailure.indexOutsideRule.message := by
  cases h with
  | noArguments function => cases function <;> decide
  | containsNeedsTwo => decide
  | notComparable => decide

theorem not_opens {opening : String} (hopening : opening ∈ openings) {failure : EvalFailure}
    (h : failure.Internal ∨ failure = .indexOutsideRule) :
    ¬ opening.toList <+: failure.message.toList := by
  revert opening
  obtain h | rfl := h
  · cases h with
    | noArguments function => cases function <;> decide
    | containsNeedsTwo => decide
    | notComparable => decide
  · decide

/-! ## Reading -/

namespace Parser

/-- Each numeral that is left has a value, and no failure is about a numeral. -/
abbrev Legible {α : Type} (left : α → List Located) (x : Except ParseError α) : Prop :=
  Ensures (fun a => Valued ((left a).map Located.token))
    (fun e => ∀ text, e.reason ≠ .invalidNumber text) x

theorem legible_error {α : Type} {left : α → List Located} {e : ParseError}
    (h : ∀ text, e.reason ≠ .invalidNumber text) : Legible left (.error e) := h

def LegibleReader {α : Type} (read : List Located → Except ParseError (α × List Located)) : Prop :=
  ∀ ⦃ts : List Located⦄, Valued (ts.map Located.token) → Legible Prod.snd (read ts)

variable {stop : Nat} {inner : List Located → Parsed} {ts : List Located}

theorem valued_rest {t : Located} (h : Valued ((t :: ts).map Located.token)) :
    Valued (ts.map Located.token) :=
  h.mono (List.subset_cons_self _ _)

theorem legible_expect (s : Symbol) (h : Valued (ts.map Located.token)) :
    Legible id (expect stop s ts) := by
  cases ts with
  | nil => exact legible_error (by simp)
  | cons t rest =>
      rw [expect]
      split
      · exact valued_rest h
      · exact legible_error (by simp)

theorem legible_chainFrom {op? : Token → Option BinaryOp} (hoperand : LegibleReader inner)
    {fuel : Nat} {left : Expr} (h : Valued (ts.map Located.token)) :
    Legible Prod.snd (chainFrom op? inner fuel left ts) := by
  induction fuel generalizing left ts with
  | zero => cases ts <;> exact h
  | succ fuel ih =>
      cases ts with
      | nil => exact h
      | cons t rest =>
          rw [chainFrom]
          split
          · exact (hoperand (valued_rest h)).bind fun _ => ih
          · exact h

theorem legible_chain {op? : Token → Option BinaryOp} (hoperand : LegibleReader inner) :
    LegibleReader (chain op? inner) :=
  fun _ h => (hoperand h).bind fun _ => legible_chainFrom hoperand

theorem legible_expression (hunary : LegibleReader inner) : LegibleReader (expression inner) :=
  legible_chain (legible_chain (legible_chain (legible_chain hunary)))

theorem legible_suffixesFrom (hinner : LegibleReader inner) {fuel : Nat} {object : Expr}
    (h : Valued (ts.map Located.token)) :
    Legible Prod.snd (suffixesFrom stop inner fuel object ts) := by
  induction fuel generalizing object ts with
  | zero => exact h
  | succ fuel ih =>
      cases ts with
      | nil => exact h
      | cons t rest =>
          rw [suffixesFrom.eq_def]
          simp only
          split
          · cases rest with
            | nil => exact legible_error (by simp)
            | cons n rest =>
                simp only
                split
                · exact ih (valued_rest (valued_rest h))
                · exact legible_error (by simp)
          · exact (hinner (valued_rest h)).bind fun _ hrest =>
              (legible_expect .closeBracket hrest).bind fun _ => ih
          · exact h

theorem legible_argumentsFrom (hinner : LegibleReader inner) {fuel : Nat}
    (h : Valued (ts.map Located.token)) : Legible Prod.snd (argumentsFrom inner fuel ts) := by
  induction fuel generalizing ts with
  | zero => exact h
  | succ fuel ih =>
      refine (hinner h).bind fun (first, rest) hrest => ?_
      cases rest with
      | nil => exact hrest
      | cons t rest =>
          simp only
          split
          · exact (ih (valued_rest hrest)).bind fun _ hmore => hmore
          · exact hrest

theorem legible_arguments (hinner : LegibleReader inner) : LegibleReader (arguments inner) := by
  intro ts h
  cases ts with
  | nil => exact legible_argumentsFrom hinner h
  | cons t rest =>
      rw [arguments]
      split
      · exact h
      · exact legible_argumentsFrom hinner h

theorem legible_call (hinner : LegibleReader inner) (f : Builtin) (position : Nat) :
    LegibleReader (call stop inner f position) := by
  intro ts h
  refine (legible_expect .openParen h).bind fun _ hopen => ?_
  refine (legible_arguments hinner hopen).bind fun _ hgiven => ?_
  refine (legible_expect .closeParen hgiven).bind fun _ hclose => ?_
  split
  · exact hclose
  · exact legible_error (by simp)

/-- The one reader that takes a numeral. -/
theorem legible_primary (hinner : LegibleReader inner) : LegibleReader (primary stop inner) := by
  intro ts h
  cases ts with
  | nil => exact legible_error (by simp)
  | cons t rest =>
      have hrest := valued_rest h
      rw [primary]
      split
      · exact hrest
      · exact hrest
      · exact hrest
      · exact hrest
      · next digits hdigits =>
          obtain ⟨value, hvalue⟩ := Option.isSome_iff_exists.mp (h digits (by simp [hdigits]))
          rw [hvalue]
          exact hrest
      · exact hrest
      · split
        · exact hrest
        · split
          · exact hrest
          · split
            · exact legible_call hinner _ _ hrest
            · exact legible_error (by simp)
      · exact (hinner hrest).bind fun _ hinside =>
          (legible_expect .closeParen hinside).bind fun _ hclose => hclose
      · exact legible_error (by simp)

/-- By induction on the levels that may still open. -/
theorem legible_unary (stop levels : Nat) : LegibleReader (unary stop levels) := by
  induction levels with
  | zero => exact fun _ _ => legible_error (by simp)
  | succ levels ih =>
      intro ts h
      rw [unary.eq_def]
      simp only
      split
      · exact (ih (valued_rest h)).bind fun _ hrest => hrest
      · exact (ih (valued_rest h)).bind fun _ hrest => hrest
      · exact (legible_primary (legible_expression ih) h).bind fun _ =>
          legible_suffixesFrom (legible_expression ih)

theorem legible_program (h : Valued (ts.map Located.token)) :
    Ensures (fun _ => True) (fun e => ∀ text, e.reason ≠ .invalidNumber text) (program stop ts) := by
  obtain ⟨skipped, hskipped, -⟩ := skip_eq (.keyword .returns) ts
  have hbody : Valued ((skip (.keyword .returns) ts).map Located.token) := by
    rw [hskipped, List.map_append] at h
    exact h.mono (List.subset_append_right _ _)
  refine (legible_expression (legible_unary stop maxNesting) hbody).bind fun (e, rest) _ => ?_
  simp only
  split
  · trivial
  · exact fun _ => by simp

end Parser

theorem head?_append {s : String} {c : Char} (h : s.toList.head? = some c) (t : String) :
    (s ++ t).toList.head? = some c := by
  rw [String.toList_append, List.head?_append, h]
  rfl

theorem ParseFailure.exists_initial {reason : ParseFailure}
    (h : ∀ text, reason ≠ .invalidNumber text) :
    ∃ c, c ≠ 'i' ∧ reason.message.toList.head? = some c := by
  have htitle : ∀ {title : String} {c : Char}, title.toList.head? = some c → ∀ count bound : String,
      (title ++ " takes " ++ bound ++ " argument(s), got " ++ count).toList.head? = some c :=
    fun hc count bound => head?_append (head?_append (head?_append (head?_append hc _) _) _) _
  cases reason with
  | tooLong => exact ⟨'p', by decide, rfl⟩
  | tooDeep => exact ⟨'e', by decide, rfl⟩
  | expectedExpression => exact ⟨'e', by decide, rfl⟩
  | invalidNumber text => exact absurd rfl (h text)
  | unknownIdentifier name => exact ⟨'u', by decide, head?_append (head?_append rfl _) _⟩
  | unexpectedToken token => exact ⟨'u', by decide, head?_append rfl _⟩
  | arity function count =>
      cases function with
      | present => exact ⟨'E', by decide, htitle rfl _ _⟩
      | empty => exact ⟨'E', by decide, htitle rfl _ _⟩
      | len => exact ⟨'L', by decide, htitle rfl _ _⟩
      | contains => exact ⟨'C', by decide, htitle rfl _ _⟩
  | expected symbol => exact ⟨'e', by decide, head?_append (head?_append rfl _) _⟩
  | expectedProperty => exact ⟨'e', by decide, rfl⟩
  | trailingInput => exact ⟨'u', by decide, rfl⟩

theorem ParseFailure.message_ne_invalidNumber {reason : ParseFailure}
    (h : ∀ text, reason ≠ .invalidNumber text) (text : String) :
    reason.message ≠ (ParseFailure.invalidNumber text).message := by
  obtain ⟨c, hc, hinitial⟩ := ParseFailure.exists_initial h
  intro heq
  rw [heq] at hinitial
  have hi : (ParseFailure.invalidNumber text).message.toList.head? = some 'i' :=
    head?_append (head?_append rfl _) _
  exact hc (Option.some.inj (hinitial.symm.trans hi))

theorem reason_of_parse {source : String} {position : Nat} {reason : ParseFailure}
    (h : parse source = .error (.parse position reason)) (text : String) :
    reason ≠ .invalidNumber text := by
  unfold parse at h
  split at h
  · cases h
  · next tokens htokens =>
      split at h
      · cases h
        simp
      · have hprogram := @Parser.legible_program source.utf8ByteSize _ (valued_tokenize htokens)
        split at h
        · cases h
        · next e he =>
            cases h
            rw [he] at hprogram
            exact hprogram text

/-- Reading a source fails at a place in it. -/
theorem located_of_parse {source : String} {failure : Failure}
    (h : parse source = .error failure) :
    (∃ position, failure = .lex position) ∨
      ∃ position reason, failure = .parse position reason := by
  unfold parse at h
  split at h
  · next position _ =>
      cases h
      exact .inl ⟨position, rfl⟩
  · split at h
    · cases h
      exact .inr ⟨_, _, rfl⟩
    · split at h
      · cases h
      · cases h
        exact .inr ⟨_, _, rfl⟩

/-- The failures that the evaluator and the reader have for what they take for impossible do not
arise: no predicate that was read calls a function with too few arguments or compares two numbers
without an order, `index` fails in it only where no position is given, and no source fails to be
read for a numeral without a value. -/
theorem internal_failures_unreachable (source : String) :
    (∀ p, parse source = .ok p → ∀ document index failure,
      p.holds document index = .error failure →
        (∀ internal : EvalFailure, internal.Internal → failure.message ≠ internal.message) ∧
          (failure.message = EvalFailure.indexOutsideRule.message → index = none)) ∧
      ∀ failure, parse source = .error failure →
        (∃ position, failure = .lex position) ∨
          ∃ position reason, failure = .parse position reason ∧
            ∀ text, reason.message ≠ (ParseFailure.invalidNumber text).message := by
  refine ⟨fun p hp document index failure hfails => ?_, fun failure hfails => ?_⟩
  · have hraised := raised_of_holds (wellFormed_of_parse hp) hfails
    constructor
    · intro internal hinternal heq
      obtain ⟨rfl, -⟩ | ⟨opening, hopening, hprefix⟩ := hraised.opens
      · exact hinternal.message_ne_indexOutsideRule heq.symm
      · rw [heq] at hprefix
        exact not_opens hopening (.inl hinternal) hprefix
    · intro heq
      obtain ⟨rfl, hindex⟩ | ⟨opening, hopening, hprefix⟩ := hraised.opens
      · exact hindex
      · rw [heq] at hprefix
        exact absurd hprefix (not_opens hopening (.inr rfl))
  · obtain hlex | ⟨position, reason, rfl⟩ := located_of_parse hfails
    · exact .inl hlex
    · exact .inr ⟨position, reason, rfl, fun text =>
        ParseFailure.message_ne_invalidNumber (reason_of_parse hfails) text⟩

theorem internal_failures_unreachable_of_contains :
    (EvalFailure.indexOutsideRule.message ≠ EvalFailure.containsNeedsTwo.message ∧
      (EvalFailure.indexOutsideRule.message = EvalFailure.indexOutsideRule.message →
        (none : Option Nat) = none)) ∧
      ParseFailure.expectedProperty.message ≠ (ParseFailure.invalidNumber "1.").message := by
  have hread : parse "contains(model, index)" =
      .ok ⟨"contains(model, index)", .call .contains [.model, .index]⟩ := by
    rfl
  have hfails : parse "1.5.0" = .error (.parse 4 .expectedProperty) := by
    rfl
  obtain ⟨hinternal, hindex⟩ :=
    (internal_failures_unreachable "contains(model, index)").1 _ hread .null none _ rfl
  refine ⟨⟨hinternal _ .containsNeedsTwo, hindex⟩, ?_⟩
  obtain ⟨position, hlex⟩ | ⟨position, reason, heq, hmessage⟩ :=
    (internal_failures_unreachable "1.5.0").2 _ hfails
  · cases hlex
  · cases heq
    exact hmessage "1."

end Curator.Predicate
