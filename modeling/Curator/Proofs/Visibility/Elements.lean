import Curator.Proofs.Pointer.Removing
import Curator.Proofs.Pointer.Wildcards
import Curator.Proofs.Visibility.Calls

/-! # Rules over the elements of an array

A rule with steps behind its wildcard asks about one element after another, each time about the
document in which the elements before are as the rule leaves them. A rule that ends in its wildcard
asks about every element of the document as it was and then leaves out those for which the answer
was yes. Neither touches anything outside the array.
-/

namespace Curator

namespace Call

/-- What a call about an element leaves of it, when the rule goes on below the wildcard. -/
def leaves (rest : Pointer) (item : Json) (call : Call) : Json :=
  if call.holds then (item.removeInPlace rest).1 else item

def takesOut (rest : Pointer) (item : Json) (call : Call) : Bool :=
  call.holds && (item.get? rest).isSome

end Call

namespace Visibility.Run

variable {σ : Type} {evaluator : Evaluator σ} {path predicate : String} {run start next : Run σ}
  {container rest p : Pointer} {done items more : List Json} {item : Json} {calls : List Call}

/-! ## One call and what it removes -/

theorem remove_eq (run : Run σ) (p : Pointer) :
    run.remove p =
      { run with
        document := (run.document.removeInPlace p).1
        report := { run.report with
          removed := run.report.removed ++
            if (run.document.removeInPlace p).2.isSome then [p.render] else [] } } := by
  rw [Json.removeInPlace_eq]
  unfold remove
  cases run.document.remove? p with
  | none => simp [Json.afterRemoval]
  | some r => rfl

def hideAt (evaluator : Evaluator σ) (path predicate : String) (index : Option Nat) (p : Pointer)
    (run : Run σ) : Run σ :=
  let (hidden, run) := run.ask evaluator path predicate index
  if hidden then run.remove p else run

theorem hideAt_withLog (run : Run σ) (log : List Call) (path predicate : String)
    (index : Option Nat) (p : Pointer) :
    (run.withLog log).hideAt evaluator.logged path predicate index p =
      (run.hideAt evaluator path predicate index p).withLog
        (log ++ [run.call evaluator predicate index]) := by
  simp only [hideAt, ask_withLog, remove_withLog]
  split <;> rfl

theorem document_hideAt (run : Run σ) (path predicate : String) (index : Option Nat)
    (p : Pointer) :
    (run.hideAt evaluator path predicate index p).document =
      if (run.call evaluator predicate index).holds then (run.document.removeInPlace p).1
      else run.document := by
  simp only [hideAt, ask_fst]
  split
  · rw [remove_eq, document_ask]
  · rw [document_ask]

theorem report_hideAt (run : Run σ) (path predicate : String) (index : Option Nat)
    (p : Pointer) :
    (run.hideAt evaluator path predicate index p).report =
      { run.report with
        removed := run.report.removed ++
          if (run.call evaluator predicate index).holds &&
            (run.document.removeInPlace p).2.isSome then [p.render] else []
        failed := run.report.failed ++
          ((run.call evaluator predicate index).failure? path).toList } := by
  simp only [hideAt, ask_fst]
  split
  · next hholds => rw [remove_eq, document_ask, report_ask, hholds, Bool.true_and]
  · next hholds => simp [report_ask, hholds]

theorem length_of_indices {first count : Nat}
    (h : calls.map Call.index = (List.range' first count).map some) : calls.length = count := by
  have hlength := congrArg List.length h
  simpa using hlength

/-! ## One element after another -/

/-- What a rule that goes on behind its wildcard has asked and done about the elements behind those
that are done. -/
structure Swept (site : Site container) (rest : Pointer) (path predicate : String) (start : Run σ)
    (done items : List Json) (calls : List Call) (next : Run σ) : Prop where
  indices : calls.map Call.index = (List.range' done.length items.length).map some
  sources : ∀ call ∈ calls, call.source = predicate
  documents : ∀ j call, calls[j]? = some call → call.document = site.plug
    (.array (done ++ ((List.zipWith (Call.leaves rest) items calls).take j ++ items.drop j)))
  document : next.document =
    site.plug (.array (done ++ List.zipWith (Call.leaves rest) items calls))
  report : next.report = { start.report with
    removed := start.report.removed ++
      ((items.zip calls).findIdxs (fun (item, call) => call.takesOut rest item) done.length).map
        fun j => Pointer.render (container ++ .index j :: rest)
    failed := start.report.failed ++ calls.filterMap (Call.failure? path) }

theorem Swept.length_calls {site : Site container}
    (h : Swept site rest path predicate start done items calls next) :
    calls.length = items.length :=
  length_of_indices h.indices

theorem swept_nil (site : Site container) (hstart : start.document = site.plug (.array done)) :
    Swept site rest path predicate start done [] [] start where
  indices := rfl
  sources := fun _ => nofun
  documents := fun _ _ => nofun
  document := by simp [hstart]
  report := by simp

/-- A removal below an element changes this element alone. -/
theorem removeInPlace_below (site : Site container) (hrest : rest ≠ []) (done more : List Json)
    (item : Json) :
    (site.plug (.array (done ++ item :: more))).removeInPlace
        (container ++ .index done.length :: rest) =
      (site.plug (.array (done ++ (item.removeInPlace rest).1 :: more)),
        (item.removeInPlace rest).2) := by
  have hsplit : container ++ Segment.index done.length :: rest =
      (container ++ [.index done.length]) ++ rest := by simp
  rw [hsplit]
  exact Json.removeInPlace_plug (site.item done more) hrest item

theorem swept_cons {site : Site container} (hrest : rest ≠ [])
    (hstart : start.document = site.plug (.array (done ++ item :: more)))
    (h : Swept site rest path predicate
      (start.hideAt evaluator path predicate (some done.length)
        (container ++ .index done.length :: rest))
      (done ++ [(start.call evaluator predicate (some done.length)).leaves rest item]) more calls
      next) :
    Swept site rest path predicate start done (item :: more)
      (start.call evaluator predicate (some done.length) :: calls) next where
  indices := by
    have hmore := h.indices
    rw [List.length_append, List.length_singleton] at hmore
    rw [List.map_cons, hmore, List.length_cons, List.range'_succ, List.map_cons]
    rfl
  sources := List.forall_mem_cons.mpr ⟨rfl, h.sources⟩
  documents := by
    intro j call hcall
    cases j with
    | zero =>
        cases hcall
        exact hstart
    | succ j =>
        rw [h.documents j call hcall]
        simp
  document := by
    rw [h.document]
    simp
  report := by
    rw [h.report, report_hideAt, hstart, removeInPlace_below site hrest,
      Json.isSome_removeInPlace hrest]
    simp only [List.zip_cons_cons, List.findIdxs_cons, List.filterMap_cons, List.length_append,
      List.length_singleton, Call.takesOut]
    cases (start.call evaluator predicate (some done.length)).failure? path <;> split <;> simp

/-- The loop over the elements behind those that are done. -/
theorem exists_swept (evaluator : Evaluator σ) (path predicate : String) (site : Site container)
    (hrest : rest ≠ []) (hp : ∀ j, p.resolve [j] = container ++ .index j :: rest) (done : List Json)
    (hstart : start.document = site.plug (.array (done ++ items))) (log : List Call) :
    ∃ calls next,
      hideBelow evaluator.logged path predicate p (List.range' done.length items.length)
        (start.withLog log) = withLog next (log ++ calls) ∧
      Swept site rest path predicate start done items calls next := by
  -- On the elements to come; a call moves one of them to those that are done.
  induction items generalizing start done log with
  | nil =>
      rw [List.append_nil] at hstart
      exact ⟨[], start, by rw [List.append_nil]; rfl, swept_nil site hstart⟩
  | cons item more ih =>
      let call := start.call evaluator predicate (some done.length)
      let mid := start.hideAt evaluator path predicate (some done.length)
        (container ++ .index done.length :: rest)
      have hmid : mid.document =
          site.plug (.array ((done ++ [call.leaves rest item]) ++ more)) := by
        simp only [mid, document_hideAt, hstart, removeInPlace_below site hrest]
        unfold Call.leaves
        split <;> simp [*]
      obtain ⟨calls, next, hloop, hswept⟩ := ih _ hmid (log ++ [call])
      refine ⟨call :: calls, next, ?_, swept_cons hrest hstart hswept⟩
      have hstep : (start.withLog log).hideAt evaluator.logged path predicate (some done.length)
          (p.resolve [done.length]) = mid.withLog (log ++ [call]) := by
        rw [hp, hideAt_withLog]
      rw [List.length_append, List.length_singleton, ← hstep] at hloop
      rw [List.length_cons, List.range'_succ, List.append_cons]
      exact hloop

/-! ## All elements first -/

/-- What asking about some positions in a row comes to, before anything is removed. -/
structure Asked (path predicate : String) (start : Run σ) (first count : Nat) (calls : List Call)
    (next : Run σ) : Prop where
  indices : calls.map Call.index = (List.range' first count).map some
  questions : ∀ call ∈ calls, call.source = predicate ∧ call.document = start.document
  document : next.document = start.document
  report : next.report =
    { start.report with failed := start.report.failed ++ calls.filterMap (Call.failure? path) }

theorem exists_asked (evaluator : Evaluator σ) (path predicate : String) (first count : Nat)
    (start : Run σ) (log : List Call) :
    ∃ calls next,
      matching evaluator.logged path predicate (List.range' first count) (start.withLog log) =
        (calls.findIdxs Call.holds first, withLog next (log ++ calls)) ∧
      Asked path predicate start first count calls next := by
  induction count generalizing first start log with
  | zero => exact ⟨[], start, by rw [List.append_nil]; rfl, rfl, fun _ => nofun, rfl, by simp⟩
  | succ count ih =>
      let call := start.call evaluator predicate (some first)
      let mid := (start.ask evaluator path predicate (some first)).2
      obtain ⟨calls, next, hloop, hasked⟩ := ih (first + 1) mid (log ++ [call])
      have hdocument : mid.document = start.document :=
        document_ask start path predicate (some first)
      refine ⟨call :: calls, next, ?_, ?_, ?_, ?_, ?_⟩
      · rw [List.append_assoc, List.singleton_append] at hloop
        rw [List.range'_succ, matching, ask_withLog, ask_fst, List.findIdxs_cons]
        simp only [call, mid] at hloop ⊢
        rw [hloop]
      · rw [List.map_cons, hasked.indices, List.range'_succ, List.map_cons]
        rfl
      · refine List.forall_mem_cons.mpr ⟨⟨rfl, rfl⟩, fun other hother => ?_⟩
        rw [← hdocument]
        exact hasked.questions other hother
      · rw [hasked.document, hdocument]
      · rw [hasked.report, report_ask, List.filterMap_cons]
        cases call.failure? path <;> simp [*]

def kept (items : List Json) (calls : List Call) : List Json :=
  ((items.zip calls).filter fun (_, call) => !call.holds).map Prod.fst

/-- An element that is removed leaves those around it. -/
theorem remove_element (site : Site container) (before after : List Json) (item : Json)
    (hrun : run.document = site.plug (.array (before ++ item :: after))) :
    run.remove (container ++ [.index before.length]) =
      { run with
        document := site.plug (.array (before ++ after))
        report := { run.report with
          removed := run.report.removed ++
            [Pointer.render (container ++ [.index before.length])] } } := by
  have hitem : Json.removeInPlace (.array (before ++ item :: after)) [.index before.length] =
      (.array (before ++ after), some item) := by
    rw [Json.removeInPlace_eq, Json.remove?_item]
    rfl
  rw [remove_eq, hrun, Json.removeInPlace_plug site (by simp), hitem]
  rfl

/-- Removing from the last position to the first takes out just what was asked for: what is removed
behind an element does not move it. -/
theorem foldr_remove (site : Site container) (hp : ∀ j, p.resolve [j] = container ++ [.index j])
    (before : List Json) (hlength : calls.length = items.length)
    (hrun : run.document = site.plug (.array (before ++ items))) :
    (calls.findIdxs Call.holds before.length).foldr (fun j run => run.remove (p.resolve [j])) run =
      { run with
        document := site.plug (.array (before ++ kept items calls))
        report := { run.report with
          removed := run.report.removed ++
            (calls.findIdxs Call.holds before.length).reverse.map
              fun j => Pointer.render (container ++ [.index j]) } } := by
  -- Those behind go first, while this one still has its position.
  induction items generalizing before calls with
  | nil =>
      obtain rfl := List.length_eq_zero_iff.mp hlength
      rw [List.append_nil] at hrun
      simp [kept, ← hrun]
  | cons item more ih =>
      obtain ⟨call, others, rfl⟩ := List.exists_cons_of_length_eq_add_one hlength
      have hmore : others.length = more.length := Nat.succ.inj hlength
      rw [List.append_cons] at hrun
      have hbehind := ih _ hmore hrun
      rw [List.length_append, List.length_singleton] at hbehind
      rw [List.findIdxs_cons]
      split
      · next hholds =>
          rw [List.foldr_cons, hbehind, hp, remove_element site before (kept more others) item]
          · simp [kept, hholds]
          · simp
      · next hholds =>
          rw [hbehind]
          simp [kept, hholds]

/-! ## One rule -/

theorem get?_withLog (site : Site container) {value : Json}
    (hstart : start.document = site.plug value) (log : List Call) :
    (start.withLog log).document.get? container = some value := by
  change start.document.get? container = _
  rw [hstart, site.get?_plug_self]

section

variable (hpath : Pointer.parse path = container ++ .wildcard :: rest)
  (hcontainer : container.wildcards = []) (hwild : rest.wildcards = [])

include hpath hcontainer hwild

theorem apply_of_wildcard (evaluator : Evaluator σ) (run : Run σ) (predicate : String) :
    Run.apply evaluator run (path, predicate) =
      hideWildcard evaluator path predicate (container ++ .wildcard :: rest) container.length
        run := by
  simp only [Run.apply, hpath, Pointer.wildcards_append_wildcard hcontainer hwild]

theorem apply_of_array (evaluator : Evaluator σ) (predicate : String)
    (hitems : run.document.get? container = some (.array items)) :
    Run.apply evaluator run (path, predicate) =
      if rest = [] then
        hideElements evaluator path predicate (container ++ .wildcard :: rest)
          (List.range' 0 items.length) run
      else
        hideBelow evaluator path predicate (container ++ .wildcard :: rest)
          (List.range' 0 items.length) run := by
  have hlast : container.length + 1 = (container ++ .wildcard :: rest).length ↔ rest = [] := by
    rw [← List.length_eq_zero_iff, List.length_append, List.length_cons]
    omega
  rw [apply_of_wildcard hpath hcontainer hwild, hideWildcard_eq, List.take_left, hitems]
  simp only [Json.itemCount?, hlast, List.range_eq_range']

theorem apply_of_no_array (evaluator : Evaluator σ) (predicate : String)
    (hitems : ∀ items, run.document.get? container ≠ some (.array items)) :
    Run.apply evaluator run (path, predicate) = run.skip path (.missingArray container.render) := by
  rw [apply_of_wildcard hpath hcontainer hwild, hideWildcard_eq, List.take_left,
    Json.itemCount?_eq_none hitems]

theorem calls_of_no_array (evaluator : Evaluator σ) (predicate : String)
    (hitems : ∀ items, run.document.get? container ≠ some (.array items)) :
    run.calls evaluator (path, predicate) = [] := by
  have hlogged : ∀ items, (run.withLog []).document.get? container ≠ some (.array items) := hitems
  rw [calls, apply_of_no_array hpath hcontainer hwild evaluator.logged predicate hlogged]
  rfl

theorem unchanged_of_no_array (evaluator : Evaluator σ) (predicate : String)
    (hitems : ∀ items, run.document.get? container ≠ some (.array items)) :
    run.calls evaluator (path, predicate) = [] ∧
      (Run.apply evaluator run (path, predicate)).document = run.document ∧
      (Run.apply evaluator run (path, predicate)).report.removed = run.report.removed := by
  refine ⟨calls_of_no_array hpath hcontainer hwild evaluator predicate hitems, ?_⟩
  rw [apply_of_no_array hpath hcontainer hwild evaluator predicate hitems]
  exact ⟨rfl, rfl⟩

/-- A rule with steps behind its wildcard takes the elements of its array one after another. -/
theorem swept_apply (evaluator : Evaluator σ) (predicate : String) (hrest : rest ≠ [])
    (site : Site container) (hstart : start.document = site.plug (.array items)) :
    Swept site rest path predicate start [] items (start.calls evaluator (path, predicate))
      (Run.apply evaluator start (path, predicate)) := by
  have hitems := get?_withLog site hstart []
  obtain ⟨calls, next, hloop, hswept⟩ := exists_swept evaluator path predicate site hrest
    (Pointer.resolve_append_wildcard hcontainer rest) [] hstart []
  have hlogged := apply_withLog evaluator start [] (path, predicate)
  rw [apply_of_array hpath hcontainer hwild evaluator.logged predicate hitems, if_neg hrest]
    at hlogged
  obtain ⟨hnext, hcalls⟩ := withLog_inj (hlogged.symm.trans hloop)
  rw [List.nil_append, List.nil_append] at hcalls
  rw [hnext, hcalls]
  exact hswept

theorem unchanged_of_no_element (evaluator : Evaluator σ) (predicate : String) (hrest : rest ≠ [])
    (hempty : ∀ item items, run.document.get? container ≠ some (.array (item :: items))) :
    run.calls evaluator (path, predicate) = [] ∧
      (Run.apply evaluator run (path, predicate)).document = run.document ∧
      (Run.apply evaluator run (path, predicate)).report.removed = run.report.removed := by
  by_cases harray : run.document.get? container = some (.array [])
  · obtain ⟨site, hsite⟩ := Site.exists_plug harray
    have hrule := swept_apply hpath hcontainer hwild evaluator predicate hrest site hsite.symm
    refine ⟨List.length_eq_zero_iff.mp hrule.length_calls, hrule.document.trans hsite, ?_⟩
    rw [hrule.report]
    exact List.append_nil _
  · refine unchanged_of_no_array hpath hcontainer hwild evaluator predicate fun items hitems => ?_
    cases items with
    | nil => exact harray hitems
    | cons item more => exact hempty item more hitems

end

theorem replace?_items {site : Site container} (hsite : site.plug (.array items) = run.document)
    (others : List Json) :
    run.document.replace? container (.array others) = some (site.plug (.array others)) := by
  rw [← hsite]
  exact Json.replace?_plug site _ _

/-- What a rule that ends in its wildcard has asked and done. -/
structure Filtered (site : Site container) (path predicate : String) (start : Run σ)
    (items : List Json) (calls : List Call) (next : Run σ) : Prop where
  indices : calls.map Call.index = (List.range' 0 items.length).map some
  questions : ∀ call ∈ calls, call.source = predicate ∧ call.document = start.document
  document : next.document = site.plug (.array (kept items calls))
  report : next.report = { start.report with
    removed := start.report.removed ++
      (calls.findIdxs Call.holds).reverse.map fun j => Pointer.render (container ++ [.index j])
    failed := start.report.failed ++ calls.filterMap (Call.failure? path) }

/-- A rule that ends in its wildcard filters the elements of its array. -/
theorem filtered_apply (evaluator : Evaluator σ) (predicate : String)
    (hpath : Pointer.parse path = container ++ [.wildcard]) (hcontainer : container.wildcards = [])
    (site : Site container) (hstart : start.document = site.plug (.array items)) :
    Filtered site path predicate start items (start.calls evaluator (path, predicate))
      (Run.apply evaluator start (path, predicate)) := by
  have hitems := get?_withLog site hstart []
  obtain ⟨calls, asked, hloop, hasked⟩ :=
    exists_asked evaluator path predicate 0 items.length start []
  have hlength : calls.length = items.length := length_of_indices hasked.indices
  have hlogged := apply_withLog evaluator start [] (path, predicate)
  rw [apply_of_array hpath hcontainer rfl evaluator.logged predicate hitems, if_pos rfl,
    hideElements, hloop] at hlogged
  dsimp only at hlogged
  rw [List.foldl_reverse] at hlogged
  let next : Run σ := { asked with
    document := site.plug (.array (kept items calls))
    report := { asked.report with
      removed := asked.report.removed ++ (calls.findIdxs Call.holds).reverse.map
        fun j => Pointer.render (container ++ [.index j]) } }
  have hdocument : (asked.withLog ([] ++ calls)).document = site.plug (.array ([] ++ items)) :=
    hasked.document.trans hstart
  have hremoved : (calls.findIdxs Call.holds).foldr
      (fun j run => run.remove ((container ++ [Segment.wildcard]).resolve [j]))
      (asked.withLog ([] ++ calls)) = next.withLog calls :=
    foldr_remove site (Pointer.resolve_append_wildcard hcontainer []) [] hlength hdocument
  obtain ⟨hnext, hcalls⟩ := withLog_inj (hlogged.symm.trans hremoved)
  rw [List.nil_append] at hcalls
  rw [hnext, hcalls]
  exact ⟨hasked.indices, hasked.questions, rfl, by simp only [next, hasked.report]⟩

/-- A rule that finds its array asks about each element and reports removals and failures only. -/
theorem report_of_array (evaluator : Evaluator σ) (predicate : String)
    (hpath : Pointer.parse path = container ++ .wildcard :: rest)
    (hcontainer : container.wildcards = []) (hwild : rest.wildcards = [])
    (hitems : run.document.get? container = some (.array items)) :
    (run.calls evaluator (path, predicate)).map Call.index =
        (List.range' 0 items.length).map some ∧
      ∃ removed, (Run.apply evaluator run (path, predicate)).report = { run.report with
        removed
        failed := run.report.failed ++
          (run.calls evaluator (path, predicate)).filterMap (Call.failure? path) } := by
  obtain ⟨site, hsite⟩ := Site.exists_plug hitems
  by_cases hrest : rest = []
  · subst hrest
    have hrule := filtered_apply evaluator predicate hpath hcontainer site hsite.symm
    exact ⟨hrule.indices, _, hrule.report⟩
  · have hrule := swept_apply hpath hcontainer hwild evaluator predicate hrest site hsite.symm
    exact ⟨hrule.indices, _, hrule.report⟩

/-! ## The laws -/

/-- A rule with one wildcard and steps behind it asks once for each element of its array, in order.
The document it asks about has the elements before as they are after the rule and the others as they
were; nothing outside the array changes. An element is left without what the steps behind the
wildcard lead to if the answer about it was yes, and else as it was. Removals are reported in order.
Without an array, or with an empty one, nothing is asked and nothing changes. -/
theorem fan_out (evaluator : Evaluator σ) (run : Run σ) (predicate : String)
    (hpath : Pointer.parse path = container ++ .wildcard :: rest)
    (hcontainer : container.wildcards = []) (hwild : rest.wildcards = []) (hrest : rest ≠ []) :
    let next := Run.apply evaluator run (path, predicate)
    ∃ calls : List Call,
      Run.apply evaluator.logged (run.withLog []) (path, predicate) = next.withLog calls ∧
      (∀ items, run.document.get? container = some (.array items) →
        calls.map Call.index = (List.range items.length).map some ∧
        (∀ call ∈ calls, call.source = predicate) ∧
        ∃ after : List Json, after.length = items.length ∧
          (∀ j item call, items[j]? = some item → calls[j]? = some call →
            run.document.replace? container (.array (after.take j ++ items.drop j)) =
              some call.document ∧
            after[j]? = some (if call.holds then (item.removeInPlace rest).1 else item)) ∧
          run.document.replace? container (.array after) = some next.document ∧
          next.report.removed = run.report.removed ++
            ((items.zip calls).findIdxs fun (item, call) =>
              call.holds && (item.get? rest).isSome).map
                fun j => Pointer.render (container ++ .index j :: rest)) ∧
      ((∀ item items, run.document.get? container ≠ some (.array (item :: items))) →
        calls = [] ∧ next.document = run.document ∧
          next.report.removed = run.report.removed) := by
  intro next
  let calls := run.calls evaluator (path, predicate)
  refine ⟨calls, apply_withLog evaluator run [] (path, predicate), fun items hitems => ?_,
    unchanged_of_no_element hpath hcontainer hwild evaluator predicate hrest⟩
  obtain ⟨site, hsite⟩ := Site.exists_plug hitems
  have hrule := swept_apply hpath hcontainer hwild evaluator predicate hrest site hsite.symm
  refine ⟨?_, hrule.sources, List.zipWith (Call.leaves rest) items calls, ?_, ?_, ?_, ?_⟩
  · rw [List.range_eq_range']
    exact hrule.indices
  · rw [List.length_zipWith, hrule.length_calls, Nat.min_self]
  · intro j item call hitem hcall
    constructor
    · rw [replace?_items hsite, hrule.documents j call hcall, List.nil_append]
    · rw [List.getElem?_zipWith, hitem, hcall]
      rfl
  · rw [replace?_items hsite, hrule.document, List.nil_append]
  · rw [hrule.report]
    rfl

/-- The second of three questions is not answered, and the third element has nothing to remove. -/
theorem fan_out_of_failing :
    let evaluator : Evaluator Nat := ⟨fun _ _ _ asked =>
      (if asked = 1 then .error (.eval .indexOutsideRule) else .ok true, asked + 1)⟩
    let item := Json.object [("x", .bool true)]
    let document := Json.object [("items", .array [item, item, .null]), ("x", .bool true)]
    let run : Run Nat := ⟨document, .empty, 0⟩
    let next := Run.apply evaluator run ("/items/-/x", "hidden")
    next.report.removed = ["/items/0/x"] ∧
      ∃ calls : List Call,
        Run.apply evaluator.logged (run.withLog []) ("/items/-/x", "hidden") = next.withLog calls ∧
        calls.map Call.index = [some 0, some 1, some 2] ∧
        ∃ after : List Json, after.length = 3 ∧
          document.replace? [.key "items"] (.array after) = some next.document := by
  intro evaluator item document run next
  have hpath : Pointer.parse "/items/-/x" = [.key "items"] ++ .wildcard :: [.key "x"] := by
    decide +kernel
  have hitems : run.document.get? [.key "items"] = some (.array [item, item, .null]) := rfl
  obtain ⟨calls, hlogged, hrule, -⟩ :=
    fan_out evaluator run "hidden" hpath rfl rfl (List.cons_ne_nil _ _)
  obtain ⟨hindices, -, after, hlength, -, hdocument, -⟩ := hrule _ hitems
  refine ⟨?_, calls, hlogged, hindices, after, hlength, hdocument⟩
  simp only [next, run, document, item, evaluator]
  decide +kernel

/-- A rule that ends in its wildcard asks once for each element of its array, in order, each time
about the document as it is when the rule starts. The elements for which the answer was not yes
stay, in their order, and nothing outside the array changes. Removals are reported from the last
element to the first. Without an array nothing is asked and nothing changes. -/
theorem filters_elements (evaluator : Evaluator σ) (run : Run σ) (predicate : String)
    (hpath : Pointer.parse path = container ++ [.wildcard])
    (hcontainer : container.wildcards = []) :
    let next := Run.apply evaluator run (path, predicate)
    ∃ calls : List Call,
      Run.apply evaluator.logged (run.withLog []) (path, predicate) = next.withLog calls ∧
      (∀ items, run.document.get? container = some (.array items) →
        calls.map Call.index = (List.range items.length).map some ∧
        (∀ call ∈ calls, call.source = predicate ∧ call.document = run.document) ∧
        run.document.replace? container
          (.array (((items.zip calls).filter fun (_, call) => !call.holds).map Prod.fst)) =
            some next.document ∧
        next.report.removed = run.report.removed ++
          (calls.findIdxs Call.holds).reverse.map
            fun j => Pointer.render (container ++ [.index j])) ∧
      ((∀ items, run.document.get? container ≠ some (.array items)) →
        calls = [] ∧ next.document = run.document ∧
          next.report.removed = run.report.removed) := by
  intro next
  refine ⟨run.calls evaluator (path, predicate), apply_withLog evaluator run [] (path, predicate),
    fun items hitems => ?_, unchanged_of_no_array hpath hcontainer rfl evaluator predicate⟩
  obtain ⟨site, hsite⟩ := Site.exists_plug hitems
  have hrule := filtered_apply evaluator predicate hpath hcontainer site hsite.symm
  refine ⟨?_, hrule.questions, ?_, ?_⟩
  · rw [List.range_eq_range']
    exact hrule.indices
  · rw [replace?_items hsite, hrule.document]
    rfl
  · rw [hrule.report]

/-- The first and the last of four elements go. -/
theorem filters_elements_of_ends :
    let evaluator : Evaluator Unit := .ofFunction fun _ _ index =>
      if index = some 1 then .error (.eval .indexOutsideRule) else .ok (index ≠ some 2)
    let document := Json.object [("items", .array [.null, .bool true, .bool false, .null])]
    let run : Run Unit := ⟨document, .empty, ()⟩
    let next := Run.apply evaluator run ("/items/-", "hidden")
    next.report.removed = ["/items/3", "/items/0"] ∧
      ∃ calls : List Call,
        Run.apply evaluator.logged (run.withLog []) ("/items/-", "hidden") = next.withLog calls ∧
        calls.map Call.index = [some 0, some 1, some 2, some 3] ∧
        ∀ call ∈ calls, call.source = "hidden" ∧ call.document = document := by
  intro evaluator document run next
  have hpath : Pointer.parse "/items/-" = [.key "items"] ++ [.wildcard] := by decide +kernel
  obtain ⟨calls, hlogged, hrule, -⟩ := filters_elements evaluator run "hidden" hpath rfl
  obtain ⟨hindices, hquestions, -⟩ := hrule _ rfl
  refine ⟨?_, calls, hlogged, hindices, hquestions⟩
  simp only [next, run, document, evaluator]
  decide +kernel

end Visibility.Run

end Curator
