import Curator.Predicate.Eval
import Curator.Proofs.Predicate.Size

/-! # How deep reading and evaluating go

The reader and the evaluator with a counter of the levels that are open. The counter is a state
that outlives a failure: a level is opened before an operand is read and closed after it, and the
reader asks the counter, not its own recursion, whether one more level may open. They give what the
plain ones give, leave the counter as they found it, and never have more levels open than the limit.
-/

namespace Curator.Predicate

variable {ε ε' α β : Type}

/-- The number of open levels, and the greatest that there has been. -/
structure Levels where
  opened : Nat
  deepest : Nat

namespace Levels

def up (levels : Levels) : Levels :=
  ⟨levels.opened + 1, max levels.deepest (levels.opened + 1)⟩

def down (levels : Levels) : Levels :=
  { levels with opened := levels.opened - 1 }

end Levels

/-- A computation that counts levels, also where it fails. -/
abbrev Counted (ε : Type) := ExceptT ε (StateM Levels)

namespace Counted

/-- Goes one level deeper and comes back, with a result or a failure. -/
def nested (x : Counted ε α) : Counted ε α :=
  ExceptT.mk do
    modify Levels.up
    let result ← x.run
    modify Levels.down
    return result

/-- With so many levels open, the counting computation gives what the plain one gives and leaves as
many open, and there are never more open than the limit. -/
def Tracks (opened limit : Nat) (x : Counted ε α) (plain : Except ε α) : Prop :=
  ∀ deepest, ∃ deepest' ≤ max deepest limit,
    x.run.run ⟨opened, deepest⟩ = (plain, ⟨opened, deepest'⟩)

namespace Tracks

variable {opened limit : Nat} {x : Counted ε α} {plain : Except ε α}

theorem pure (a : α) : Tracks opened limit (Pure.pure a : Counted ε α) (.ok a) :=
  fun deepest => ⟨deepest, Nat.le_max_left _ _, rfl⟩

theorem throw (e : ε) : Tracks opened limit (throw e : Counted ε α) (.error e) :=
  fun deepest => ⟨deepest, Nat.le_max_left _ _, rfl⟩

theorem ofExcept (plain : Except ε α) : Tracks opened limit (ofExcept plain) plain := by
  cases plain with
  | error e => exact .throw e
  | ok a => exact .pure a

theorem bind {f : α → Counted ε β} {g : α → Except ε β} (h : Tracks opened limit x plain)
    (hf : ∀ a, Tracks opened limit (f a) (g a)) :
    Tracks opened limit (x >>= f) (plain >>= g) := by
  intro deepest
  obtain ⟨between, hbetween, hx⟩ := h deepest
  cases plain with
  | error e =>
      refine ⟨between, hbetween, ?_⟩
      rw [ExceptT.run_bind, StateT.run_bind, hx]
      rfl
  | ok a =>
      obtain ⟨after, hafter, hfa⟩ := hf a between
      refine ⟨after, by omega, ?_⟩
      rw [ExceptT.run_bind, StateT.run_bind, hx]
      exact hfa

/-- What a computation does may depend on the number of open levels. -/
theorem get {f : Levels → Counted ε α}
    (h : ∀ deepest, Tracks opened limit (f ⟨opened, deepest⟩) plain) :
    Tracks opened limit (get >>= f) plain :=
  fun deepest => h deepest deepest

theorem adapt (h : Tracks opened limit x plain) (f : ε → ε') :
    Tracks opened limit (ExceptT.adapt f x) (plain.mapError f) := by
  intro deepest
  obtain ⟨after, hafter, hx⟩ := h deepest
  refine ⟨after, hafter, ?_⟩
  show (fun (result, levels) => (Except.mapError f result, levels)) (x.run.run ⟨opened, deepest⟩) = _
  rw [hx]

theorem nested (h : Tracks (opened + 1) limit x plain) (hlimit : opened < limit) :
    Tracks opened limit (nested x) plain := by
  intro deepest
  obtain ⟨after, hafter, hx⟩ := h (max deepest (opened + 1))
  refine ⟨after, by omega, ?_⟩
  have hdeeper : x.run.run (Levels.up ⟨opened, deepest⟩) = (plain, ⟨opened + 1, after⟩) := hx
  show (do
    let (result, levels) ← x.run.run (Levels.up ⟨opened, deepest⟩)
    return (result, levels.down) : Id (Except ε α × Levels)) = _
  rw [hdeeper]
  rfl

end Tracks

end Counted

/-! ## Reading with a counter -/

namespace Counting

open Counted Grammar
open Curator.Predicate.Parser (orOp? andOp? equalityOp? comparisonOp? propertyName? numberLiteral
  here skip)

abbrev Reading := Counted ParseError (Expr × List Located)

def expect (stop : Nat) (s : Symbol) (ts : List Located) : Counted ParseError (List Located) :=
  ofExcept (Parser.expect stop s ts)

def chainFrom (op? : Token → Option BinaryOp) (operand : List Located → Reading) :
    Nat → Expr → List Located → Reading
  | _, left, [] => return (left, [])
  | 0, left, ts => return (left, ts)
  | fuel + 1, left, t :: rest =>
    match op? t.token with
    | some op => do
      let (right, rest) ← operand rest
      chainFrom op? operand fuel (.binary op left right) rest
    | none => return (left, t :: rest)

def chain (op? : Token → Option BinaryOp) (operand : List Located → Reading)
    (ts : List Located) : Reading := do
  let (left, rest) ← operand ts
  chainFrom op? operand rest.length left rest

def tier (unary : List Located → Reading) : Tier → List Located → Reading
  | .or => chain orOp? (chain andOp? (chain equalityOp? (chain comparisonOp? unary)))
  | .and => chain andOp? (chain equalityOp? (chain comparisonOp? unary))
  | .equality => chain equalityOp? (chain comparisonOp? unary)
  | .comparison => chain comparisonOp? unary

def suffixesFrom (stop : Nat) (inner : List Located → Reading) :
    Nat → Expr → List Located → Reading
  | 0, object, ts => return (object, ts)
  | _, object, [] => return (object, [])
  | fuel + 1, object, t :: rest =>
    match t.token with
    | .symbol .dot =>
      match rest with
      | [] => throw ⟨stop, .expectedProperty⟩
      | n :: rest =>
        match propertyName? n.token with
        | some name => suffixesFrom stop inner fuel (.member object name) rest
        | none => throw ⟨n.start, .expectedProperty⟩
    | .symbol .openBracket => do
      let (key, rest) ← inner rest
      let rest ← expect stop .closeBracket rest
      suffixesFrom stop inner fuel (.subscript object key) rest
    | _ => return (object, t :: rest)

def argumentsFrom (inner : List Located → Reading) :
    Nat → List Located → Counted ParseError (List Expr × List Located)
  | 0, ts => return ([], ts)
  | fuel + 1, ts => do
    let (first, rest) ← inner ts
    match rest with
    | t :: rest =>
      if t.token = .symbol .comma then do
        let (more, rest) ← argumentsFrom inner fuel rest
        return (first :: more, rest)
      else return ([first], t :: rest)
    | [] => return ([first], [])

def arguments (inner : List Located → Reading) :
    List Located → Counted ParseError (List Expr × List Located)
  | t :: rest =>
    if t.token = .symbol .closeParen then return ([], t :: rest)
    else argumentsFrom inner (t :: rest).length (t :: rest)
  | [] => argumentsFrom inner 1 []

def call (stop : Nat) (inner : List Located → Reading) (function : Builtin) (position : Nat)
    (ts : List Located) : Reading := do
  let ts ← expect stop .openParen ts
  let (given, ts) ← arguments inner ts
  let ts ← expect stop .closeParen ts
  if given.length = function.arity then return (.call function given, ts)
  else throw ⟨position, .arity function given.length⟩

def primary (stop : Nat) (inner : List Located → Reading) : List Located → Reading
  | [] => throw ⟨stop, .expectedExpression⟩
  | t :: rest =>
    match t.token with
    | .keyword .yes => return (.literal (.bool true), rest)
    | .keyword .no => return (.literal (.bool false), rest)
    | .keyword .null => return (.literal .null, rest)
    | .keyword .undefined => return (.literal .null, rest)
    | .number digits =>
      match numberLiteral digits.toList with
      | some value => return (.literal value, rest)
      | none => throw ⟨t.start, .invalidNumber digits⟩
    | .quoted _ raw => return (.literal (.string (String.ofList (unescape raw.toList))), rest)
    | .ident name =>
      if name = "model" then return (.model, rest)
      else if name = "index" then return (.index, rest)
      else
        match Builtin.ofName? name with
        | some function => call stop inner function t.start rest
        | none => throw ⟨t.start, .unknownIdentifier name⟩
    | .symbol .openParen => do
      let (inside, rest) ← inner rest
      let rest ← expect stop .closeParen rest
      return (inside, rest)
    | other => throw ⟨t.start, .unexpectedToken other⟩

def suffixed (stop : Nat) (inner : List Located → Reading) (ts : List Located) : Reading := do
  let (object, rest) ← primary stop inner ts
  suffixesFrom stop inner rest.length object rest

def operand (stop : Nat) (unary : List Located → Reading) : List Located → Reading
  | ⟨.symbol .bang, _, _⟩ :: rest => do
    let (operand, rest) ← unary rest
    return (.not operand, rest)
  | ⟨.symbol .minus, _, _⟩ :: rest => do
    let (operand, rest) ← unary rest
    return (.negate operand, rest)
  | ts => suffixed stop (tier unary .or) ts

/-- Reads a unary expression one level deeper, if the counter allows one more. The recursion is
cut off after so many rounds by `beyond`, which is never reached. -/
def unary (beyond : List Located → Reading) (stop : Nat) : Nat → List Located → Reading
  | 0, ts => beyond ts
  | rounds + 1, ts => do
    let levels ← get
    if maxNesting ≤ levels.opened then throw ⟨here stop ts, .tooDeep⟩
    else nested (operand stop (unary beyond stop rounds) ts)

def reader (beyond : List Located → Reading) (stop rounds : Nat) : Phrase → List Located → Reading
  | .tier t => tier (unary beyond stop rounds) t
  | .unary => unary beyond stop rounds
  | .suffixed => suffixed stop (tier (unary beyond stop rounds) .or)
  | .primary => primary stop (tier (unary beyond stop rounds) .or)

def program (beyond : List Located → Reading) (stop : Nat) (ts : List Located) :
    Counted ParseError Expr := do
  let (e, rest) ← tier (unary beyond stop (maxNesting + 1)) .or (skip (.keyword .returns) ts)
  match skip (.symbol .semicolon) rest with
  | [] => return e
  | t :: _ => throw ⟨t.start, .trailingInput⟩

def parse (beyond : List Located → Reading) (source : String) : Counted Failure Compiled :=
  match tokenize source with
  | .error position => throw (.lex position)
  | .ok tokens =>
    match tokens[maxTokens]? with
    | some t => throw (.parse t.start .tooLong)
    | none => do
      let e ← (program beyond source.utf8ByteSize tokens).adapt
        fun e => .parse e.position e.reason
      return ⟨source, e⟩

/-! ## The counter follows the reader -/

/-- Tracks on all tokens, with the limit of nesting. -/
def Follows (opened : Nat) (read : List Located → Reading) (plain : List Located → Parsed) : Prop :=
  ∀ ts, Tracks opened maxNesting (read ts) (plain ts)

variable {opened stop : Nat} {inner : List Located → Reading} {plain : List Located → Parsed}

theorem chainFrom_tracks (op? : Token → Option BinaryOp) (h : Follows opened inner plain)
    (fuel : Nat) (left : Expr) (ts : List Located) :
    Tracks opened maxNesting (chainFrom op? inner fuel left ts)
      (Parser.chainFrom op? plain fuel left ts) := by
  induction fuel generalizing left ts with
  | zero => cases ts <;> exact .pure _
  | succ fuel ih =>
      cases ts with
      | nil => exact .pure _
      | cons t rest =>
          rw [chainFrom, Parser.chainFrom]
          cases op? t.token with
          | none => exact .pure _
          | some op => exact (h rest).bind fun _ => ih _ _

theorem chain_follows (op? : Token → Option BinaryOp) (h : Follows opened inner plain) :
    Follows opened (chain op? inner) (Parser.chain op? plain) :=
  fun ts => (h ts).bind fun _ => chainFrom_tracks op? h _ _ _

theorem tier_follows (h : Follows opened inner plain) (t : Tier) :
    Follows opened (tier inner t) (Parser.tier plain t) := by
  have hcomparison := chain_follows comparisonOp? h
  have hequality := chain_follows equalityOp? hcomparison
  have hand := chain_follows andOp? hequality
  cases t with
  | or => exact chain_follows orOp? hand
  | and => exact hand
  | equality => exact hequality
  | comparison => exact hcomparison

theorem suffixesFrom_tracks (h : Follows opened inner plain) (fuel : Nat) (object : Expr)
    (ts : List Located) :
    Tracks opened maxNesting (suffixesFrom stop inner fuel object ts)
      (Parser.suffixesFrom stop plain fuel object ts) := by
  induction fuel generalizing object ts with
  | zero => exact .pure _
  | succ fuel ih =>
      cases ts with
      | nil => exact .pure _
      | cons t rest =>
          rw [suffixesFrom.eq_def, Parser.suffixesFrom.eq_def]
          simp only
          generalize t.token = token
          cases token with
          | symbol s =>
              cases s with
              | dot =>
                  cases rest with
                  | nil => exact .throw _
                  | cons n rest =>
                      simp only
                      cases propertyName? n.token with
                      | none => exact .throw _
                      | some name => exact ih _ _
              | openBracket =>
                  exact (h rest).bind fun _ => (Tracks.ofExcept _).bind fun _ => ih _ _
              | _ => exact .pure _
          | _ => exact .pure _

theorem argumentsFrom_tracks (h : Follows opened inner plain) (fuel : Nat) (ts : List Located) :
    Tracks opened maxNesting (argumentsFrom inner fuel ts) (Parser.argumentsFrom plain fuel ts) := by
  induction fuel generalizing ts with
  | zero => exact .pure _
  | succ fuel ih =>
      refine (h ts).bind fun (first, rest) => ?_
      cases rest with
      | nil => exact .pure _
      | cons t rest =>
          simp only
          split
          · exact (ih rest).bind fun _ => .pure _
          · exact .pure _

theorem arguments_tracks (h : Follows opened inner plain) (ts : List Located) :
    Tracks opened maxNesting (arguments inner ts) (Parser.arguments plain ts) := by
  cases ts with
  | nil => exact argumentsFrom_tracks h 1 []
  | cons t rest =>
      rw [arguments, Parser.arguments]
      split
      · exact .pure _
      · exact argumentsFrom_tracks h _ _

theorem call_follows (h : Follows opened inner plain) (f : Builtin) (position : Nat) :
    Follows opened (call stop inner f position) (Parser.call stop plain f position) := by
  intro ts
  refine (Tracks.ofExcept _).bind fun _ => (arguments_tracks h _).bind fun _ => ?_
  refine (Tracks.ofExcept _).bind fun _ => ?_
  split
  · exact .pure _
  · exact .throw _

theorem primary_follows (h : Follows opened inner plain) :
    Follows opened (primary stop inner) (Parser.primary stop plain) := by
  intro ts
  cases ts with
  | nil => exact .throw _
  | cons t rest =>
      rw [primary, Parser.primary]
      generalize t.token = token
      cases token with
      | keyword k =>
          cases k with
          | returns => exact .throw _
          | _ => exact .pure _
      | number digits =>
          simp only
          cases numberLiteral digits.toList with
          | none => exact .throw _
          | some value => exact .pure _
      | quoted mark raw => exact .pure _
      | ident name =>
          simp only
          split
          · exact .pure _
          · split
            · exact .pure _
            · cases Builtin.ofName? name with
              | none => exact .throw _
              | some f => exact call_follows h f t.start rest
      | symbol s =>
          cases s with
          | openParen => exact (h rest).bind fun _ => (Tracks.ofExcept _).bind fun _ => .pure _
          | _ => exact .throw _

theorem suffixed_follows (h : Follows opened inner plain) :
    Follows opened (suffixed stop inner) (Parser.suffixed stop plain) :=
  fun ts => (primary_follows h ts).bind fun _ => suffixesFrom_tracks h _ _ _

theorem operand_tracks {levels : Nat} (h : Follows opened inner (Parser.unary stop levels))
    (ts : List Located) :
    Tracks opened maxNesting (operand stop inner ts) (Parser.unary stop (levels + 1) ts) := by
  have hplain : Tracks opened maxNesting (suffixed stop (tier inner .or) ts) _ :=
    suffixed_follows (tier_follows h .or) ts
  cases ts with
  | nil => exact hplain
  | cons t rest =>
      obtain ⟨token, start, stop'⟩ := t
      cases token with
      | symbol s =>
          cases s with
          | bang => exact (h rest).bind fun _ => .pure _
          | minus => exact (h rest).bind fun _ => .pure _
          | _ => exact hplain
      | _ => exact hplain

/-- By induction on the rounds. The plain reader is told how many levels may still open, and the
counting one finds out. -/
theorem unary_follows (beyond : List Located → Reading) (stop : Nat) {opened rounds : Nat}
    (hrounds : maxNesting - opened < rounds) :
    Follows opened (unary beyond stop rounds) (Parser.unary stop (maxNesting - opened)) := by
  induction rounds generalizing opened with
  | zero => omega
  | succ rounds ih =>
      intro ts
      refine Tracks.get fun _ => ?_
      by_cases hfull : maxNesting ≤ opened
      · rw [if_pos hfull, Nat.sub_eq_zero_of_le hfull]
        exact .throw _
      · have hlevels : maxNesting - opened = maxNesting - (opened + 1) + 1 := by omega
        rw [if_neg hfull, hlevels]
        exact (operand_tracks (ih (by omega)) ts).nested (by omega)

theorem reader_follows (beyond : List Located → Reading) (stop : Nat) {opened rounds : Nat}
    (hrounds : maxNesting - opened < rounds) (phrase : Phrase) :
    Follows opened (reader beyond stop rounds phrase)
      (Parser.reader stop (maxNesting - opened) phrase) := by
  have hunary := unary_follows beyond stop hrounds
  cases phrase with
  | tier t => exact tier_follows hunary t
  | unary => exact hunary
  | suffixed => exact suffixed_follows (tier_follows hunary .or)
  | primary => exact primary_follows (tier_follows hunary .or)

theorem program_tracks (beyond : List Located → Reading) (stop : Nat) (ts : List Located) :
    Tracks 0 maxNesting (program beyond stop ts) (Parser.program stop ts) := by
  have hread : Follows 0 (reader beyond stop (maxNesting + 1) (.tier .or)) _ :=
    reader_follows beyond stop (Nat.lt_succ_self maxNesting) (.tier .or)
  refine (hread (skip (.keyword .returns) ts)).bind fun (e, rest) => ?_
  simp only
  cases skip (.symbol .semicolon) rest with
  | nil => exact .pure _
  | cons t _ => exact .throw _

theorem parse_tracks (beyond : List Located → Reading) (source : String) :
    Tracks 0 maxNesting (parse beyond source) (Predicate.parse source) := by
  unfold parse Predicate.parse
  cases tokenize source with
  | error position => exact .throw _
  | ok tokens =>
    simp only
    cases tokens[maxTokens]? with
    | some t => exact .throw _
    | none =>
      have hprogram := ((program_tracks beyond source.utf8ByteSize tokens).adapt
        fun e => Failure.parse e.position e.reason).bind fun e => .pure (Compiled.mk source e)
      simp only
      cases hplain : Parser.program source.utf8ByteSize tokens with
      | error e => rwa [hplain] at hprogram
      | ok e => rwa [hplain] at hprogram

/-! ## Evaluating with a counter -/

/-- The value of an expression, one level deeper for each expression within. -/
def eval (document : Json) (index : Option Nat) : Expr → Counted EvalFailure Json
  | .literal value => nested (return value)
  | .model => nested (return document)
  | .index => nested do
    match index with
    | some i => return .number (.ofCount i)
    | none => throw .indexOutsideRule
  | .member object name => nested do
    let object ← eval document index object
    return property object name
  | .subscript object key => nested do
    let object ← eval document index object
    let key ← eval document index key
    ofExcept (select object key)
  | .not operand => nested do
    let value ← eval document index operand
    return .bool (!value.truthy)
  | .negate operand => nested do
    let value ← eval document index operand
    ofExcept (negate value)
  | .binary .or left right => nested do
    let a ← eval document index left
    if a.truthy then return .bool true
    else
      let b ← eval document index right
      return .bool b.truthy
  | .binary .and left right => nested do
    let a ← eval document index left
    if a.truthy then
      let b ← eval document index right
      return .bool b.truthy
    else return .bool false
  | .binary .equal left right => nested do
    let a ← eval document index left
    let b ← eval document index right
    return .bool (a.looselyEqual b)
  | .binary .notEqual left right => nested do
    let a ← eval document index left
    let b ← eval document index right
    return .bool (!a.looselyEqual b)
  | .binary op left right => nested do
    let a ← eval document index left
    let b ← eval document index right
    let c ← ofExcept (order a b)
    return .bool (op.accepts c)
  | .call function [] => nested (throw (.noArguments function))
  | .call .present (a :: _) => nested do
    let a ← eval document index a
    return .bool (a.kind != .null)
  | .call .empty (a :: _) => nested do
    let a ← eval document index a
    return .bool a.isVoid
  | .call .len (a :: _) => nested do
    let a ← eval document index a
    ofExcept (len a)
  | .call .contains [a] => nested do
    let _ ← eval document index a
    throw .containsNeedsTwo
  | .call .contains (a :: b :: _) => nested do
    let a ← eval document index a
    let b ← eval document index b
    ofExcept (contains a b)
termination_by structural e => e

/-! ## The counter follows the evaluator -/

section

variable (document : Json) (index : Option Nat) {limit : Nat}

/-- A binary operator evaluates its sides one level deeper, or only the left one. -/
theorem binary_tracks {left right : Expr} (op : BinaryOp) (hlimit : opened < limit)
    (hl : Tracks (opened + 1) limit (eval document index left) (Predicate.eval document index left))
    (hr : Tracks (opened + 1) limit (eval document index right)
      (Predicate.eval document index right)) :
    Tracks opened limit (eval document index (.binary op left right))
      (Predicate.eval document index (.binary op left right)) := by
  have hright := hr.bind fun b => Tracks.pure (Json.bool b.truthy)
  have hordered := hl.bind fun a => hr.bind fun b =>
    (Tracks.ofExcept (order a b)).bind fun c => Tracks.pure (Json.bool (op.accepts c))
  cases op with
  | or =>
      refine (hl.bind fun a => ?_).nested hlimit
      split
      · exact .pure _
      · exact hright
  | and =>
      refine (hl.bind fun a => ?_).nested hlimit
      split
      · exact hright
      · exact .pure _
  | equal => exact (hl.bind fun a => hr.bind fun b => .pure _).nested hlimit
  | notEqual => exact (hl.bind fun a => hr.bind fun b => .pure _).nested hlimit
  | less => exact hordered.nested hlimit
  | lessEqual => exact hordered.nested hlimit
  | greater => exact hordered.nested hlimit
  | greaterEqual => exact hordered.nested hlimit

/-- A function evaluates its arguments one level deeper, at most the first two of them. -/
theorem call_tracks {a : Expr} (f : Builtin) (rest : List Expr) (hlimit : opened < limit)
    (ha : Tracks (opened + 1) limit (eval document index a) (Predicate.eval document index a))
    (hsecond : ∀ b ∈ rest.head?,
      Tracks (opened + 1) limit (eval document index b) (Predicate.eval document index b)) :
    Tracks opened limit (eval document index (.call f (a :: rest)))
      (Predicate.eval document index (.call f (a :: rest))) := by
  cases f with
  | present => exact (ha.bind fun _ => .pure _).nested hlimit
  | empty => exact (ha.bind fun _ => .pure _).nested hlimit
  | len => exact (ha.bind fun _ => .ofExcept _).nested hlimit
  | contains =>
      cases rest with
      | nil => exact (ha.bind fun _ => .throw _).nested hlimit
      | cons b rest =>
          have hb := hsecond b rfl
          exact (ha.bind fun _ => hb.bind fun _ => .ofExcept _).nested hlimit

/-- By recursion on the expression. A level is open for each node on the way to where it is. -/
theorem eval_tracks : (e : Expr) → (opened : Nat) → opened + e.height ≤ limit →
    Tracks opened limit (eval document index e) (Predicate.eval document index e)
  | .literal value, _, h => (Tracks.pure value).nested h
  | .model, _, h => (Tracks.pure document).nested h
  | .index, _, h => by
      refine Tracks.nested ?_ h
      cases index with
      | none => exact .throw _
      | some i => exact .pure _
  | .member object name, opened, h => by
      simp only [Expr.height] at h
      have hobject := eval_tracks object (opened + 1) (by omega)
      exact (hobject.bind fun _ => .pure _).nested (by omega)
  | .subscript object key, opened, h => by
      simp only [Expr.height] at h
      have hobject := eval_tracks object (opened + 1) (by omega)
      have hkey := eval_tracks key (opened + 1) (by omega)
      exact (hobject.bind fun _ => hkey.bind fun _ => .ofExcept _).nested (by omega)
  | .not operand, opened, h => by
      simp only [Expr.height] at h
      have hoperand := eval_tracks operand (opened + 1) (by omega)
      exact (hoperand.bind fun _ => .pure _).nested (by omega)
  | .negate operand, opened, h => by
      simp only [Expr.height] at h
      have hoperand := eval_tracks operand (opened + 1) (by omega)
      exact (hoperand.bind fun _ => .ofExcept _).nested (by omega)
  | .binary op left right, opened, h => by
      simp only [Expr.height] at h
      have hleft := eval_tracks left (opened + 1) (by omega)
      have hright := eval_tracks right (opened + 1) (by omega)
      exact binary_tracks document index op (by omega) hleft hright
  | .call f [], opened, h => by
      simp only [Expr.height] at h
      cases f <;> exact (Tracks.throw _).nested (by omega)
  | .call f [a], opened, h => by
      simp only [Expr.height, Expr.tallest] at h
      have ha := eval_tracks a (opened + 1) (by omega)
      exact call_tracks document index f [] (by omega) ha (fun _ hb => by cases hb)
  | .call f (a :: b :: rest), opened, h => by
      simp only [Expr.height, Expr.tallest] at h
      have ha := eval_tracks a (opened + 1) (by omega)
      have hb := eval_tracks b (opened + 1) (by omega)
      exact call_tracks document index f (b :: rest) (by omega) ha
        (fun _ hc => Option.some.inj hc ▸ hb)
termination_by structural e => e

end

end Counting

/-- A predicate that is read has no more nodes than predicates may have tokens, and at most that
height, so that its evaluation never has more levels open. Reading any source, accepted or not,
never has more than 64 unary levels open, and each phrase within leaves as many open as it found. -/
theorem nesting_bounded (source : String) :
    (∀ p, parse source = .ok p →
      p.expr.size ≤ 1024 ∧ p.expr.height ≤ p.expr.size ∧
        ∀ document index,
          Counted.Tracks 0 1024 (Counting.eval document index p.expr) (eval document index p.expr)) ∧
      ∀ beyond, Counted.Tracks 0 64 (Counting.parse beyond source) (parse source) ∧
        ∀ stop rounds phrase ts opened, 64 < rounds →
          Counted.Tracks opened 64 (Counting.reader beyond stop rounds phrase ts)
            (Parser.reader stop (64 - opened) phrase ts) := by
  refine ⟨fun p hp => ?_, fun beyond => ⟨Counting.parse_tracks beyond source, ?_⟩⟩
  · have hsize : p.expr.size ≤ 1024 := size_le_of_parse hp
    have hheight := p.expr.height_le_size
    exact ⟨hsize, hheight, fun document index => Counting.eval_tracks document index _ 0 (by omega)⟩
  · intro stop rounds phrase ts opened hrounds
    have hleft : maxNesting - opened < rounds := by
      simp only [maxNesting]
      omega
    exact Counting.reader_follows beyond stop hleft phrase ts

theorem nesting_bounded_of_not_member :
    let e : Expr := .not (.member .model "a")
    let refuse : List Located → Counting.Reading := fun _ => throw ⟨0, .tooDeep⟩
    (e.size ≤ 1024 ∧ e.height ≤ e.size ∧
      Counted.Tracks 0 1024 (Counting.eval (.object [("a", .null)]) none e) (.ok (.bool true))) ∧
      Counted.Tracks 0 64 (Counting.parse refuse "!(model.a)") (.ok ⟨"!(model.a)", e⟩) ∧
        Counted.Tracks 64 64 (Counting.reader refuse 0 65 .unary []) (.error ⟨0, .tooDeep⟩) := by
  intro e refuse
  have hread : parse "!(model.a)" = .ok ⟨"!(model.a)", e⟩ := by
    rfl
  obtain ⟨hpredicate, hreading⟩ := nesting_bounded "!(model.a)"
  obtain ⟨hsize, hheight, heval⟩ := hpredicate _ hread
  obtain ⟨hparse, hphrase⟩ := hreading refuse
  rw [hread] at hparse
  exact ⟨⟨hsize, hheight, heval _ none⟩, hparse, hphrase 0 65 .unary [] 64 (by decide)⟩

end Curator.Predicate
