import Curator.Proofs.Visibility.Elements
import Curator.Proofs.Visibility.RuleSet

/-! # What becomes of every rule

The rules of a set take their turns in the order of their pointers. Each is skipped, with its reason
in the report, or it asks, and every call that fails is recorded. A failure hides nothing, so it
might as well have been a no.
-/

namespace Curator

/-- Says no where the evaluator fails. -/
def Evaluator.lenient {σ : Type} (evaluator : Evaluator σ) : Evaluator σ :=
  ⟨fun source document index state =>
    let asked := evaluator.ask source document index state
    match asked.1 with
    | .ok answer => (.ok answer, asked.2)
    | .error _ => (.ok false, asked.2)⟩

namespace Visibility

def Skipped.fault? (s : Skipped) : Option RuleSet.Fault :=
  match s.reason with
  | .nestedWildcard count => some (.nestedWildcard s.path count)
  | .missingArray _ => none

/-- The turn of a rule: the document as it is by then, and what the rule asks. -/
structure Turn where
  path : String
  predicate : String
  document : Json
  calls : List Call

def Turn.skipped? (turn : Turn) : Option Skipped :=
  let p := Pointer.parse turn.path
  match p.wildcards with
  | [] => none
  | [place] =>
    match Json.itemCount? (turn.document.get? (p.take place)) with
    | some _ => none
    | none => some ⟨turn.path, .missingArray (Pointer.render (p.take place))⟩
  | many => some ⟨turn.path, .nestedWildcard many.length⟩

def Turn.failed (turn : Turn) : List Failed := turn.calls.filterMap (Call.failure? turn.path)

namespace Turn

variable {turn : Turn} {container rest : Pointer}

theorem skipped?_of_plain (h : (Pointer.parse turn.path).wildcards = []) :
    turn.skipped? = none := by
  simp only [skipped?, h]

theorem skipped?_of_nested (h : 2 ≤ (Pointer.parse turn.path).wildcards.length) :
    turn.skipped? =
      some ⟨turn.path, .nestedWildcard (Pointer.parse turn.path).wildcards.length⟩ := by
  obtain ⟨first, second, more, hwild⟩ := Pointer.exists_of_two_le_wildcards h
  simp only [skipped?, hwild]

theorem skipped?_of_wildcard (hpath : Pointer.parse turn.path = container ++ .wildcard :: rest)
    (hcontainer : container.wildcards = []) (hwild : rest.wildcards = []) :
    turn.skipped? =
      match Json.itemCount? (turn.document.get? container) with
      | some _ => none
      | none => some ⟨turn.path, .missingArray container.render⟩ := by
  simp only [skipped?, hpath, Pointer.wildcards_append_wildcard hcontainer hwild, List.take_left]

theorem path_of_skipped? {s : Skipped} (h : turn.skipped? = some s) : s.path = turn.path := by
  unfold skipped? at h
  dsimp only at h
  split at h
  · cases h
  · split at h
    · cases h
    · cases h
      rfl
  · cases h
    rfl

/-- The fault of a rule with several wildcards shows in its turn. -/
theorem skipped?_bind_fault? (turn : Turn) :
    turn.skipped?.bind Skipped.fault? =
      if 1 < (Pointer.parse turn.path).wildcards.length then
        some (.nestedWildcard turn.path (Pointer.parse turn.path).wildcards.length)
      else none := by
  rcases (Pointer.parse turn.path).wildcards_cases with
    hplain | ⟨container, rest, hpath, hcontainer, hwild⟩ | hnested
  · rw [skipped?_of_plain hplain, hplain]
    rfl
  · rw [skipped?_of_wildcard hpath hcontainer hwild, hpath,
      Pointer.wildcards_append_wildcard hcontainer hwild]
    split <;> rfl
  · rw [skipped?_of_nested hnested]
    exact (if_pos hnested).symm

theorem filter_skipped? (turn : Turn) (path : String) :
    turn.skipped?.toList.filter (fun s => s.path = path) =
      if turn.path = path then turn.skipped?.toList else [] := by
  cases hskipped : turn.skipped? with
  | none => simp
  | some s => simp [List.filter_cons, path_of_skipped? hskipped]

/-- Where no two turns are for one pointer, each is among the skipped ones once or not at all. -/
theorem filter_skipped {turns : List Turn} (hdistinct : turns.Pairwise fun a b => a.path ≠ b.path)
    (hturn : turn ∈ turns) :
    (turns.filterMap skipped?).filter (fun s => s.path = turn.path) = turn.skipped?.toList := by
  rw [List.filterMap_eq_flatMap_toList, List.filter_flatMap]
  simp only [filter_skipped?]
  induction turns with
  | nil => cases hturn
  | cons first rest ih =>
      obtain ⟨hfirst, hrest⟩ := List.pairwise_cons.mp hdistinct
      rw [List.flatMap_cons]
      rcases List.mem_cons.mp hturn with rfl | hlater
      · have hothers : (rest.flatMap fun other =>
            if other.path = turn.path then other.skipped?.toList else []) = [] :=
          List.flatMap_eq_nil_iff.mpr fun other hother => if_neg (hfirst other hother).symm
        rw [if_pos rfl, hothers, List.append_nil]
      · rw [if_neg (hfirst turn hlater), List.nil_append, ih hrest hlater]

/-- What becomes of a rule in its turn, given the rules that were skipped. One with several
wildcards is skipped and asks nothing. One with a single wildcard is skipped and asks nothing where
it finds no array, and else asks about each element in order. One without wildcards asks once. -/
structure Accounted (skipped : List Skipped) (turn : Turn) : Prop where
  nested : 2 ≤ (Pointer.parse turn.path).wildcards.length →
    turn.calls = [] ∧ skipped.filter (fun s => s.path = turn.path) =
      [⟨turn.path, .nestedWildcard (Pointer.parse turn.path).wildcards.length⟩]
  missing : ∀ container rest : Pointer, Pointer.parse turn.path = container ++ .wildcard :: rest →
    container.wildcards = [] → rest.wildcards = [] →
    (∀ items, turn.document.get? container ≠ some (.array items)) →
    turn.calls = [] ∧ skipped.filter (fun s => s.path = turn.path) =
      [⟨turn.path, .missingArray container.render⟩]
  elements : ∀ (container rest : Pointer) items,
    Pointer.parse turn.path = container ++ .wildcard :: rest →
    container.wildcards = [] → rest.wildcards = [] →
    turn.document.get? container = some (.array items) →
    turn.calls.map Call.index = (List.range items.length).map some ∧
      skipped.filter (fun s => s.path = turn.path) = []
  plain : (Pointer.parse turn.path).wildcards = [] →
    (∃ answer, turn.calls = [⟨turn.predicate, turn.document, none, answer⟩]) ∧
      skipped.filter (fun s => s.path = turn.path) = []

end Turn

namespace Run

variable {σ : Type} {evaluator : Evaluator σ} {path : String}

def turn (evaluator : Evaluator σ) (run : Run σ) (rule : String × String) : Turn :=
  ⟨rule.1, rule.2, run.document, run.calls evaluator rule⟩

def turns (evaluator : Evaluator σ) : List (String × String) → Run σ → List Turn
  | [], _ => []
  | rule :: rest, run =>
    run.turn evaluator rule :: turns evaluator rest (Run.apply evaluator run rule)

/-! ## One turn -/

theorem apply_plain (hplain : (Pointer.parse path).wildcards = []) (evaluator : Evaluator σ)
    (run : Run σ) (predicate : String) :
    Run.apply evaluator run (path, predicate) =
      run.hideAt evaluator path predicate none (Pointer.parse path) := by
  simp only [Run.apply, hplain]
  rfl

theorem calls_plain (hplain : (Pointer.parse path).wildcards = []) (evaluator : Evaluator σ)
    (run : Run σ) (predicate : String) :
    run.calls evaluator (path, predicate) = [run.call evaluator predicate none] := by
  rw [calls, apply_plain hplain, hideAt_withLog]
  rfl

theorem apply_nested (hnested : 2 ≤ (Pointer.parse path).wildcards.length)
    (evaluator : Evaluator σ) (run : Run σ) (predicate : String) :
    Run.apply evaluator run (path, predicate) =
      run.skip path (.nestedWildcard (Pointer.parse path).wildcards.length) := by
  obtain ⟨first, second, more, hwild⟩ := Pointer.exists_of_two_le_wildcards hnested
  simp only [Run.apply, hwild]

theorem calls_nested (hnested : 2 ≤ (Pointer.parse path).wildcards.length)
    (evaluator : Evaluator σ) (run : Run σ) (predicate : String) :
    run.calls evaluator (path, predicate) = [] := by
  rw [calls, apply_nested hnested]
  rfl

/-- In its turn a rule is put among the skipped ones, or not, and its failed calls among those that
failed. -/
theorem report_apply (evaluator : Evaluator σ) (run : Run σ) (rule : String × String) :
    (Run.apply evaluator run rule).report.skipped =
        run.report.skipped ++ (run.turn evaluator rule).skipped?.toList ∧
      (Run.apply evaluator run rule).report.failed =
        run.report.failed ++ (run.turn evaluator rule).failed := by
  obtain ⟨path, predicate⟩ := rule
  unfold Turn.failed
  rcases (Pointer.parse path).wildcards_cases with
    hplain | ⟨container, rest, hpath, hcontainer, hwild⟩ | hnested
  · have hskipped : (run.turn evaluator (path, predicate)).skipped? = none :=
      Turn.skipped?_of_plain hplain
    rw [hskipped, apply_plain hplain, report_hideAt]
    refine ⟨(List.append_nil _).symm, ?_⟩
    simp only [turn, calls_plain hplain, List.filterMap_cons, List.filterMap_nil]
    cases (run.call evaluator predicate none).failure? path <;> rfl
  · have hskipped : (run.turn evaluator (path, predicate)).skipped? = _ :=
      Turn.skipped?_of_wildcard hpath hcontainer hwild
    rw [hskipped]
    by_cases harray : ∃ items, run.document.get? container = some (.array items)
    · obtain ⟨items, hitems⟩ := harray
      obtain ⟨-, removed, hreport⟩ :=
        report_of_array evaluator predicate hpath hcontainer hwild hitems
      rw [hreport]
      simp only [turn, hitems, Json.itemCount?, Option.toList_none, List.append_nil, and_self]
    · have hnone := not_exists.mp harray
      rw [apply_of_no_array hpath hcontainer hwild evaluator predicate hnone]
      simp only [turn, calls_of_no_array hpath hcontainer hwild evaluator predicate hnone,
        Json.itemCount?_eq_none hnone, skip, Option.toList_some, List.filterMap_nil,
        List.append_nil, and_self]
  · have hskipped : (run.turn evaluator (path, predicate)).skipped? = _ :=
      Turn.skipped?_of_nested hnested
    rw [hskipped, apply_nested hnested]
    simp only [turn, calls_nested hnested, skip, Option.toList_some, List.filterMap_nil,
      List.append_nil, and_self]

/-! ## All turns -/

theorem map_rule_turns (evaluator : Evaluator σ) (rules : List (String × String)) (run : Run σ) :
    (turns evaluator rules run).map (fun turn => (turn.path, turn.predicate)) = rules := by
  induction rules generalizing run with
  | nil => rfl
  | cons rule rest ih => exact congrArg _ (ih _)

theorem forall_mem_turns {P : Turn → Prop} (h : ∀ run rule, P (turn evaluator run rule))
    (rules : List (String × String)) (run : Run σ) :
    ∀ turn ∈ turns evaluator rules run, P turn := by
  induction rules generalizing run with
  | nil => exact fun _ => nofun
  | cons rule rest ih => exact List.forall_mem_cons.mpr ⟨h run rule, ih _⟩

/-- What is logged is what is asked in the turns, in their order. -/
theorem foldl_withLog (evaluator : Evaluator σ) (rules : List (String × String)) (run : Run σ)
    (log : List Call) :
    rules.foldl (Run.apply evaluator.logged) (run.withLog log) =
      (rules.foldl (Run.apply evaluator) run).withLog
        (log ++ (turns evaluator rules run).flatMap Turn.calls) := by
  induction rules generalizing run log with
  | nil => rw [turns, List.flatMap_nil, List.append_nil]; rfl
  | cons rule rest ih =>
      rw [List.foldl_cons, List.foldl_cons, apply_withLog, ih, turns, List.flatMap_cons,
        List.append_assoc]
      rfl

/-- The skipped rules and the failed calls of a run are those of its turns. -/
theorem report_foldl (evaluator : Evaluator σ) (rules : List (String × String)) (run : Run σ) :
    (rules.foldl (Run.apply evaluator) run).report.skipped =
        run.report.skipped ++ (turns evaluator rules run).filterMap Turn.skipped? ∧
      (rules.foldl (Run.apply evaluator) run).report.failed =
        run.report.failed ++ (turns evaluator rules run).flatMap Turn.failed := by
  induction rules generalizing run with
  | nil => exact ⟨(List.append_nil _).symm, (List.append_nil _).symm⟩
  | cons rule rest ih =>
      obtain ⟨hskipped, hfailed⟩ := report_apply evaluator run rule
      obtain ⟨hrest, hrest'⟩ := ih (Run.apply evaluator run rule)
      rw [List.foldl_cons, hrest, hrest', hskipped, hfailed, turns, List.filterMap_cons,
        List.flatMap_cons, List.append_assoc, List.append_assoc]
      refine ⟨?_, rfl⟩
      cases (run.turn evaluator rule).skipped? <;> rfl

/-! ## Failures are noes -/

def forgiven (run : Run σ) : Run σ := { run with report := { run.report with failed := [] } }

theorem ask_forgiven (run : Run σ) (path predicate : String) (index : Option Nat) :
    run.forgiven.ask evaluator.lenient path predicate index =
      ((run.ask evaluator path predicate index).1,
        (run.ask evaluator path predicate index).2.forgiven) := by
  simp only [ask, forgiven, Evaluator.lenient]
  cases evaluator.ask predicate run.document index run.state with
  | mk outcome state => cases outcome <;> rfl

theorem remove_forgiven (run : Run σ) (p : Pointer) :
    run.forgiven.remove p = (run.remove p).forgiven := by
  unfold remove forgiven
  dsimp only
  cases run.document.remove? p <;> rfl

theorem related_lenient : Related evaluator evaluator.lenient (fun _ => True)
    fun run lenient => lenient = run.forgiven where
  ask := by
    rintro run _ path predicate index rfl
    rw [ask_forgiven]
    exact ⟨rfl, rfl⟩
  remove := by
    rintro run _ p - rfl
    exact remove_forgiven run p
  skip := by
    rintro run _ path reason rfl
    rfl
  itemCount := by
    rintro run _ p rfl
    rfl
  plain := fun _ => trivial
  resolved := fun _ _ _ _ _ _ _ => trivial

theorem accounted_turn {skipped : List Skipped} (evaluator : Evaluator σ) (run : Run σ)
    (rule : String × String)
    (h : skipped.filter (fun s => s.path = rule.1) = (run.turn evaluator rule).skipped?.toList) :
    (run.turn evaluator rule).Accounted skipped := by
  obtain ⟨path, predicate⟩ := rule
  constructor
  case nested =>
    intro hnested
    refine ⟨calls_nested hnested evaluator run predicate, h.trans ?_⟩
    rw [Turn.skipped?_of_nested hnested]
    rfl
  case missing =>
    intro container rest hpath hcontainer hwild hnone
    refine ⟨calls_of_no_array hpath hcontainer hwild evaluator predicate hnone, h.trans ?_⟩
    rw [Turn.skipped?_of_wildcard hpath hcontainer hwild, Json.itemCount?_eq_none hnone]
    rfl
  case elements =>
    intro container rest items hpath hcontainer hwild hitems
    refine ⟨?_, h.trans ?_⟩
    · rw [List.range_eq_range']
      exact (report_of_array evaluator predicate hpath hcontainer hwild hitems).1
    · rw [Turn.skipped?_of_wildcard hpath hcontainer hwild, hitems]
      rfl
  case plain =>
    intro hplain
    refine ⟨⟨_, calls_plain hplain evaluator run predicate⟩, h.trans ?_⟩
    rw [Turn.skipped?_of_plain hplain]
    rfl

end Run

/-- The rules of a set take their turns in the byte order of their pointers, and the log of the
evaluator holds what they ask in their turns. Each rule is skipped once or not at all, as its turn
has it, and the rules skipped for their wildcards are those that the set itself finds fault with.
The failures in the report are the calls that failed, in order. With an evaluator that says no where
this one fails, hiding does the same but for the failures. -/
theorem accounted_hide {σ : Type} {rules : RuleSet} (hrules : rules.Built) (evaluator : Evaluator σ)
    (document : Json) (state : σ) :
    let run := hide evaluator rules document state
    let turns := Run.turns evaluator rules.rules ⟨document, .empty, state⟩
    turns.map (fun turn => (turn.path, turn.predicate)) = rules.rules ∧
      (turns.Pairwise fun a b => ByteOrder.lt a.path b.path = true) ∧
      hide evaluator.logged rules document (state, []) = run.withLog (turns.flatMap Turn.calls) ∧
      run.report.skipped = turns.filterMap Turn.skipped? ∧
      (∀ turn ∈ turns, turn.Accounted run.report.skipped) ∧
      run.report.skipped.filterMap Skipped.fault? = rules.unsupported ∧
      run.report.failed =
        turns.flatMap (fun turn => turn.calls.filterMap (Call.failure? turn.path)) ∧
      hide evaluator.lenient rules document state =
        { run with report := { run.report with failed := [] } } := by
  intro run turns
  have hmap : turns.map (fun turn => (turn.path, turn.predicate)) = rules.rules :=
    Run.map_rule_turns evaluator rules.rules _
  have hascending : turns.Pairwise fun a b => ByteOrder.lt a.path b.path = true := by
    have hbuilt := hrules.ascending
    rw [RuleSet.Ascending, ← hmap, List.pairwise_map] at hbuilt
    exact hbuilt
  obtain ⟨hskipped, hfailed⟩ := Run.report_foldl evaluator rules.rules ⟨document, .empty, state⟩
  refine ⟨hmap, hascending, ?_, hskipped, ?_, ?_, hfailed, ?_⟩
  · exact Run.foldl_withLog evaluator rules.rules ⟨document, .empty, state⟩ []
  · -- Pointers that ascend are distinct, so what is skipped under one is from one turn.
    have hdistinct : turns.Pairwise fun a b => a.path ≠ b.path :=
      hascending.imp fun hlt => ByteOrder.ne_of_lt hlt
    have haccounted : ∀ turn ∈ turns,
        run.report.skipped.filter (fun s => s.path = turn.path) = turn.skipped?.toList →
          turn.Accounted run.report.skipped :=
      Run.forall_mem_turns (Run.accounted_turn evaluator) rules.rules _
    intro turn hturn
    refine haccounted turn hturn ?_
    rw [← Turn.filter_skipped hdistinct hturn]
    exact congrArg _ hskipped
  · have hfaults : turns.filterMap (fun turn => turn.skipped?.bind Skipped.fault?) =
        rules.unsupported := by
      simp only [Turn.skipped?_bind_fault?]
      rw [RuleSet.unsupported, ← hmap, List.filterMap_map]
      rfl
    rw [← hfaults, ← List.filterMap_filterMap]
    exact congrArg _ hskipped
  · exact Run.related_lenient.hide rules rfl

/-- Four rules out of order: one with two wildcards, one for an array, one for none, and one whose
predicate fails. -/
theorem accounted_hide_of_unordered :
    let evaluator : Evaluator Unit := .ofFunction fun source _ _ =>
      if source = "broken" then .error (.other "no such rule") else .ok true
    let rules := RuleSet.ofList
      [("/note", "broken"), ("/items/-/-", "hidden"), ("/items/-", "hidden"), ("/a/-", "hidden")]
    let document := Json.object [("a", .null), ("items", .array [.null]), ("note", .null)]
    let run := hide evaluator rules document ()
    rules.Built ∧
      run.report.skipped = [⟨"/a/-", .missingArray "/a"⟩, ⟨"/items/-/-", .nestedWildcard 2⟩] ∧
      run.report.skipped.filterMap Skipped.fault? = rules.unsupported ∧
      run.report.failed = [⟨"/note", none, "no such rule"⟩] ∧
      hide evaluator.lenient rules document () =
        { run with report := { run.report with failed := [] } } := by
  intro evaluator rules document run
  have hrules : rules.Built := RuleSet.built_ofList _
  obtain ⟨-, -, -, -, -, hfaults, -, hlenient⟩ := accounted_hide hrules evaluator document ()
  refine ⟨hrules, ?_, hfaults, ?_, hlenient⟩
  · simp only [run, document, rules, evaluator]
    decide +kernel
  · simp only [run, document, rules, evaluator]
    decide +kernel

end Visibility

end Curator
