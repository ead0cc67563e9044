import Curator.Proofs.Pointer.Names
import Curator.Proofs.Visibility.Accounting

/-! # What stays hidden and what stays

A rule takes parts out and puts nothing in, so what a pointer of names no longer leads to never
comes back. It takes them out at its pointer, or below it where it has a wildcard, and only when a
call says yes, so a pointer of names that keeps clear of it leads to what it did.
-/

namespace Curator

open Visibility

variable {σ : Type} {evaluator : Evaluator σ} {path predicate : String} {document : Json}
  {container rest q : Pointer} {items : List Json} {calls : List Call}

/-! ## Elements without a yes -/

theorem Call.zipWith_leaves_of_no (hlength : calls.length = items.length)
    (hno : ∀ call ∈ calls, call.holds = false) :
    List.zipWith (Call.leaves rest) items calls = items := by
  induction items generalizing calls with
  | nil => rfl
  | cons item more ih =>
      obtain ⟨call, others, rfl⟩ := List.exists_cons_of_length_eq_add_one hlength
      obtain ⟨hcall, hothers⟩ := List.forall_mem_cons.mp hno
      have hmore := ih (Nat.succ.inj hlength) hothers
      simp [Call.leaves, hcall, hmore]

namespace Visibility.Run

variable {run : Run σ} {rules : List (String × String)}

theorem kept_of_no (hlength : calls.length = items.length)
    (hno : ∀ call ∈ calls, call.holds = false) : kept items calls = items := by
  unfold kept
  rw [List.filter_eq_self.mpr, List.map_fst_zip (Nat.le_of_eq hlength.symm)]
  intro pair hpair
  have hcall : pair.2 ∈ calls := (List.of_mem_zip hpair).2
  simp [hno pair.2 hcall]

/-! ## One rule -/

/-- A rule only takes parts out. -/
theorem without_apply (evaluator : Evaluator σ) (run : Run σ) (rule : String × String) :
    Json.Without run.document (Run.apply evaluator run rule).document := by
  have hkept : Related evaluator evaluator (fun _ => True)
      fun run' run'' => run' = run'' ∧ Json.Without run.document run'.document :=
    related_invariant fun hleft hremove => hleft.trans (Json.without_of_remove? hremove)
  exact (hkept.apply rule ⟨rfl, .refl run.document⟩).2

/-- What a rule for a pointer can make of a document. -/
inductive Effect (p : Pointer) (document : Json) : Json → Prop where
  | removed : Effect p document (document.removeInPlace p).1
  | array {container rest : Pointer} (site : Site container) (items left : List Json)
      (hp : p = container ++ .wildcard :: rest) (h : document = site.plug (.array items)) :
      Effect p document (site.plug (.array left))

/-- A rule with a wildcard puts another array for the one that it finds, or the same array if no
call says yes. -/
theorem exists_document_of_array (evaluator : Evaluator σ) (predicate : String)
    (hpath : Pointer.parse path = container ++ .wildcard :: rest)
    (hcontainer : container.wildcards = []) (hwild : rest.wildcards = []) (site : Site container)
    (hsite : run.document = site.plug (.array items)) :
    ∃ left, (Run.apply evaluator run (path, predicate)).document = site.plug (.array left) ∧
      ((∀ call ∈ run.calls evaluator (path, predicate), call.holds = false) → left = items) := by
  by_cases hrest : rest = []
  · subst hrest
    have hrule := filtered_apply evaluator predicate hpath hcontainer site hsite
    exact ⟨_, hrule.document, kept_of_no (length_of_indices hrule.indices)⟩
  · have hrule := swept_apply hpath hcontainer hwild evaluator predicate hrest site hsite
    refine ⟨_, hrule.document, fun hno => ?_⟩
    rw [List.nil_append, Call.zipWith_leaves_of_no hrule.length_calls hno]

/-- In its turn a rule leaves the document as it is, or a call has said yes and the rule has its
effect. -/
theorem document_apply_cases (evaluator : Evaluator σ) (run : Run σ) (rule : String × String) :
    (Run.apply evaluator run rule).document = run.document ∨
      (∃ call ∈ run.calls evaluator rule, call.holds = true) ∧
        Effect (Pointer.parse rule.1) run.document (Run.apply evaluator run rule).document := by
  obtain ⟨path, predicate⟩ := rule
  rcases (Pointer.parse path).wildcards_cases with
    hplain | ⟨container, rest, hpath, hcontainer, hwild⟩ | hnested
  · rw [apply_plain hplain, calls_plain hplain, document_hideAt]
    split
    · next hholds => exact .inr ⟨⟨_, List.mem_singleton_self _, hholds⟩, .removed⟩
    · exact .inl rfl
  · by_cases harray : ∃ items, run.document.get? container = some (.array items)
    · obtain ⟨items, hitems⟩ := harray
      obtain ⟨site, hsite⟩ := Site.exists_plug hitems
      obtain ⟨left, hleft, hsame⟩ :=
        exists_document_of_array evaluator predicate hpath hcontainer hwild site hsite.symm
      by_cases hyes : ∃ call ∈ run.calls evaluator (path, predicate), call.holds = true
      · rw [hleft]
        exact .inr ⟨hyes, .array site items left hpath hsite.symm⟩
      · have hno : ∀ call ∈ run.calls evaluator (path, predicate), call.holds = false := by
          simpa using hyes
        rw [hleft, hsame hno]
        exact .inl hsite
    · rw [apply_of_no_array hpath hcontainer hwild evaluator predicate (not_exists.mp harray)]
      exact .inl rfl
  · rw [apply_nested hnested]
    exact .inl rfl

/-- A pointer of names that keeps clear of a rule does not see its effect. -/
theorem Effect.get?_eq {after : Json} (h : Effect (Pointer.parse path) document after)
    (hq : q.ByName) (hread : ∀ s ∈ q, Segment.reread s = s) (hpq : ¬ Pointer.parse path <+: q)
    (hqp : ¬ q <+: Pointer.parse path) : after.get? q = document.get? q := by
  have hreadp : ∀ s ∈ Pointer.parse path, Segment.reread s = s :=
    fun _ => Pointer.reread_of_mem_parse
  cases h with
  | removed => exact Json.get?_removeInPlace_of_not_prefix hq hreadp hread hpq hqp
  | @array container _ site items left hp h =>
      rw [hp] at hreadp hqp
      rw [h]
      have hreadc : ∀ s ∈ container, Segment.reread s = s := fun s hs =>
        hreadp s (List.mem_append_left _ hs)
      have hqc : ¬ q <+: container := fun habove => hqp (habove.trans (List.prefix_append _ _))
      exact Json.get?_plug_array site hq hreadc hread hqc items left

/-! ## All rules -/

theorem without_foldl (evaluator : Evaluator σ) (rules : List (String × String)) (run : Run σ) :
    Json.Without run.document (rules.foldl (Run.apply evaluator) run).document := by
  induction rules generalizing run with
  | nil => exact .refl _
  | cons rule rest ih => exact (without_apply evaluator run rule).trans (ih _)

/-- What a rule has hidden by its names stays hidden under the rules that come behind. -/
theorem get?_foldl_of_yes (hd : run.document.WellFormed) :
    ∀ turn ∈ turns evaluator rules run, (Pointer.parse turn.path).ByName →
      Pointer.parse turn.path ≠ [] → (∃ call ∈ turn.calls, call.holds = true) →
        (rules.foldl (Run.apply evaluator) run).document.get? (Pointer.parse turn.path) = none := by
  induction rules generalizing run with
  | nil => exact fun _ => nofun
  | cons rule rest ih =>
      have hnext := without_apply evaluator run rule
      refine List.forall_mem_cons.mpr ⟨fun hnames hne hyes => ?_, ih (hnext.wellFormed hd)⟩
      obtain ⟨path, predicate⟩ := rule
      simp only [turn] at hnames hne hyes ⊢
      have hplain := hnames.wildcards_eq_nil
      rw [calls_plain hplain] at hyes
      obtain ⟨_, hcall, hholds⟩ := hyes
      obtain rfl := List.mem_singleton.mp hcall
      have hgone : (Run.apply evaluator run (path, predicate)).document.get?
          (Pointer.parse path) = none := by
        rw [apply_plain hplain, document_hideAt, if_pos hholds]
        exact Json.get?_removeInPlace_self hnames hne hd
      exact (without_foldl evaluator rest _).get?_eq_none (hnext.wellFormed hd) hnames hgone

theorem get?_foldl_of_clear (hq : q.ByName) (hread : ∀ s ∈ q, Segment.reread s = s)
    (hclear : ∀ rule ∈ rules, ¬ Pointer.parse rule.1 <+: q ∧ ¬ q <+: Pointer.parse rule.1)
    (run : Run σ) :
    (rules.foldl (Run.apply evaluator) run).document.get? q = run.document.get? q := by
  induction rules generalizing run with
  | nil => rfl
  | cons rule rest ih =>
      obtain ⟨⟨hpq, hqp⟩, hrest⟩ := List.forall_mem_cons.mp hclear
      rw [List.foldl_cons, ih hrest]
      rcases document_apply_cases evaluator run rule with hsame | ⟨-, heffect⟩
      · rw [hsame]
      · exact heffect.get?_eq hq hread hpq hqp

theorem document_foldl_of_no
    (hno : ∀ turn ∈ turns evaluator rules run, ∀ call ∈ turn.calls, call.holds = false) :
    (rules.foldl (Run.apply evaluator) run).document = run.document := by
  induction rules generalizing run with
  | nil => rfl
  | cons rule rest ih =>
      obtain ⟨hfirst, hrest⟩ := List.forall_mem_cons.mp hno
      rw [List.foldl_cons, ih hrest]
      rcases document_apply_cases evaluator run rule with hsame | ⟨⟨call, hcall, hyes⟩, -⟩
      · exact hsame
      · simp [hfirst call hcall] at hyes

end Visibility.Run

/-- A rule without wildcards that goes by names and to whose call the answer is yes hides its field
for good, whatever the rules behind it do. A pointer of names that no rule goes through, and that
goes through no rule, leads to what it did. Where no call is answered with yes, the document is left
as it is, with its names in their order. -/
theorem Visibility.hide_lasts (h : document.WellFormed) (evaluator : Evaluator σ) (rules : RuleSet)
    (state : σ) :
    let run := hide evaluator rules document state
    let turns := Run.turns evaluator rules.rules ⟨document, .empty, state⟩
    let log := (hide evaluator.logged rules document (state, [])).state.2
    (∀ turn ∈ turns, (Pointer.parse turn.path).ByName → Pointer.parse turn.path ≠ [] →
      (∃ call ∈ turn.calls, call.holds = true) →
        run.document.get? (Pointer.parse turn.path) = none) ∧
      (∀ text, (Pointer.parse text).ByName →
        (∀ rule ∈ rules.rules, ¬ Pointer.parse rule.1 <+: Pointer.parse text ∧
          ¬ Pointer.parse text <+: Pointer.parse rule.1) →
        run.document.get? (Pointer.parse text) = document.get? (Pointer.parse text)) ∧
      ((∀ call ∈ log, call.holds = false) → run.document = document) := by
  intro run turns log
  refine ⟨Run.get?_foldl_of_yes h, fun text hnames hclear => ?_, fun hno => ?_⟩
  · exact Run.get?_foldl_of_clear hnames (fun _ => Pointer.reread_of_mem_parse) hclear _
  · have hlog : log = turns.flatMap Turn.calls := by
      have hlogged := Run.foldl_withLog evaluator rules.rules ⟨document, .empty, state⟩ []
      exact congrArg (fun run => run.state.2) hlogged
    refine Run.document_foldl_of_no fun turn hturn call hcall => hno call ?_
    rw [hlog]
    exact List.mem_flatMap.mpr ⟨turn, hturn, hcall⟩

/-- A member is hidden before the items of an array are shifted, and its neighbour stays. -/
theorem Visibility.hide_lasts_of_shifted :
    let evaluator : Evaluator Unit := .ofFunction fun _ _ index => .ok (index ≠ some 1)
    let rules : RuleSet := ⟨[("/a/x", "hidden"), ("/items/-", "hidden")]⟩
    let document := Json.object [("a", .object [("x", .null), ("y", .bool true)]),
      ("items", .array [.null, .bool true, .null])]
    let run := hide evaluator rules document ()
    let turns := Run.turns evaluator rules.rules ⟨document, .empty, ()⟩
    run.report.removed = ["/a/x", "/items/2", "/items/0"] ∧
      (∃ turn ∈ turns, turn.path = "/a/x" ∧ ∃ call ∈ turn.calls, call.holds = true) ∧
      run.document.get? (Pointer.parse "/a/x") = none ∧
      run.document.get? (Pointer.parse "/a/y") = some (.bool true) := by
  intro evaluator rules document run turns
  have hx : Pointer.parse "/a/x" = [.key "a", .key "x"] := by decide +kernel
  have hy : Pointer.parse "/a/y" = [.key "a", .key "y"] := by decide +kernel
  have hitems : Pointer.parse "/items/-" = [.key "items", .wildcard] := by decide +kernel
  have hd : document.WellFormed := by
    simp [document, Json.wellFormed_object_iff, Json.wellFormed_array_iff]
  obtain ⟨hgone, hstays, -⟩ := hide_lasts hd evaluator rules ()
  let first := Run.turn evaluator ⟨document, .empty, ()⟩ ("/a/x", "hidden")
  have hfirst : first ∈ turns := List.mem_cons_self
  have hyes : ∃ call ∈ first.calls, call.holds = true := by
    simp only [first, Run.turn, document, evaluator]
    decide +kernel
  refine ⟨?_, ⟨first, hfirst, rfl, hyes⟩, ?_, ?_⟩
  · simp only [run, document, rules, evaluator]
    decide +kernel
  · refine hgone first hfirst ?_ ?_ hyes
    · simp [first, Run.turn, hx, Pointer.ByName]
    · simp [first, Run.turn, hx]
  · have hclear := hstays "/a/y"
    rw [hy] at hclear ⊢
    rw [hclear]
    · rfl
    · simp [Pointer.ByName]
    · simp [rules, hx, hitems]

end Curator
