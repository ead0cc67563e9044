import Curator.Proofs.Workbench.Frame
import Curator.Proofs.Workbench.Submitting

/-! # Names of persisted entries

A new entry is persisted only under a name that no other entry with content has. Entries that are
persisted already are not asked for their names again, and one that was emptied holds its name
against nobody. So two of them come to share a name in one way: one was emptied, and it is given
content while the other has its name.
-/

namespace Curator

structure Entry.Live (e : Entry) : Prop where
  isNew : e.isNew = false
  hasDocument : e.hasDocument = true

/-- No two persisted entries with content share a name. -/
def Collection.NamesUnique (c : Collection) : Prop :=
  ∀ (i j : Nat) (a b : Entry), c.entries[i]? = some a → c.entries[j]? = some b → a.Live → b.Live →
    a.name = b.name → i = j

theorem Collection.namesUnique_of_single {c : Collection} (k : Nat)
    (h : ∀ (i : Nat) (e : Entry), c.entries[i]? = some e → e.Live → i = k) : c.NamesUnique := by
  intro i j a b ha hb hla hlb _
  rw [h i a ha hla, h j b hb hlb]

namespace Workbench

variable {σ : Type} {w w' : Workbench σ} {a : Action} {i j k : Nat} {stored written e : Entry}
  {name : String}

def Holds (w : Workbench σ) (i : Nat) (name : String) : Prop :=
  ∃ e, w.collection.entries[i]? = some e ∧ e.Live ∧ e.name = name

theorem holds_iff :
    w.Holds i name ↔
      (w.collection.entries[i]?.map fun e => (e.isNew, e.hasDocument, e.name)) =
        some (false, true, name) := by
  rw [Option.map_eq_some_iff]
  refine exists_congr fun e => and_congr_right fun _ => ?_
  rw [Prod.mk.injEq, Prod.mk.injEq, ← and_assoc]
  exact and_congr_left fun _ => ⟨fun h => ⟨h.isNew, h.hasDocument⟩, fun h => ⟨h.1, h.2⟩⟩

structure Clash (w : Workbench σ) (i j : Nat) (name : String) : Prop where
  left : w.Holds i name
  right : w.Holds j name

/-- The selected entry, which is persisted and empty, gets content while another position holds
its name. -/
structure Refills (w w' : Workbench σ) (i j : Nat) (name : String) : Prop where
  active : w.collection.active = some i
  emptied : ∃ e, w.collection.entries[i]? = some e ∧ e.isNew = false ∧ e.hasDocument = false ∧
    e.name = name
  filled : w'.Holds i name
  other : w.Holds j name

/-! ## One action -/

@[simp] theorem isNew_merged (w : Workbench σ) (stored : Entry) :
    (w.merged stored).isNew = stored.isNew := by
  unfold merged Session.merge
  dsimp only
  split <;> rfl

/-- Only what is not refused is submitted. -/
theorem Selected.not_refused (h : w.Selected i stored) (ha : w.submits i a = true) :
    ¬ w.Refused i (w.merged stored) := by
  cases a with
  | submit confirm asker =>
      obtain ⟨-, houtcome⟩ := Bool.and_eq_true_iff.mp ha
      rw [h.submit_eq confirm asker] at houtcome
      simp only [isSubmitted_outcomeOf, Bool.and_eq_true, Bool.not_eq_true'] at houtcome
      rw [← h.isBlocked_iff, houtcome.1]
      exact Bool.false_ne_true
  | _ => cases ha

/-- Where a name that is held comes from: it was held before, its entry was selected and empty,
or its entry was selected and no other one with content has the name. -/
inductive Origin (w : Workbench σ) (i : Nat) (name : String) : Prop where
  | held (h : w.Holds i name)
  | emptied (hactive : w.collection.active = some i) {e : Entry}
      (he : w.collection.entries[i]? = some e) (hold : e.isNew = false)
      (hempty : e.hasDocument = false) (hname : e.name = name)
  | fresh (hactive : w.collection.active = some i)
      (hfree : ∀ j other, w.collection.entries[j]? = some other → j ≠ i →
        other.hasDocument = true → other.name ≠ name)

theorem origin_of_stored (hs : w.Selected i stored) (hold : stored.isNew = false) :
    w.Origin i stored.name := by
  cases hcontent : stored.hasDocument with
  | true => exact .held ⟨stored, hs.entry, ⟨hold, hcontent⟩, rfl⟩
  | false => exact .emptied hs.active hs.entry hold hcontent rfl

/-- Another entry in the place of the selected one. -/
theorem origin_of_set (hs : w.Selected i stored)
    (hwritten : written.isNew = false → w.Origin i written.name)
    (he : (w.collection.entries.set i written)[k]? = some e) (hlive : e.Live) :
    w.Origin k e.name := by
  by_cases hk : i = k
  · subst hk
    rw [List.getElem?_set_self hs.lt_length] at he
    cases he
    exact hwritten hlive.isNew
  · rw [List.getElem?_set_ne hk] at he
    exact .held ⟨e, he, hlive, rfl⟩

theorem origin_flushed (hs : w.Selected i stored)
    (he : (w.flushed i stored).collection.entries[k]? = some e) (hlive : e.Live) :
    w.Origin k e.name := by
  rw [hs.entries_flushed] at he
  refine origin_of_set hs (fun hold => ?_) he hlive
  rw [isNew_merged] at hold
  rw [(w.storedAs_merged hold).name]
  exact origin_of_stored hs hold

theorem origin_submitted (hs : w.Selected i stored) (ha : w.submits i a = true)
    (he : (w.submitted i stored).collection.entries[k]? = some e) (hlive : e.Live) :
    w.Origin k e.name := by
  rw [hs.collection_submitted] at he
  refine origin_of_set hs (fun _ => ?_) he hlive
  cases hnew : stored.isNew with
  | false =>
      change w.Origin i (w.merged stored).name
      rw [(w.storedAs_merged hnew).name]
      exact origin_of_stored hs hnew
  | true =>
      have hmerged : (w.merged stored).isNew = true := by rw [isNew_merged, hnew]
      refine .fresh hs.active fun j other hother hj hcontent hname => ?_
      have hpending := ((w.shows_merged stored).fresh hmerged).1
      exact hs.not_refused ha (.taken hmerged hother hj hcontent (hname.trans hpending))

/-- An action makes no name held but by one of these ways. -/
theorem Step.origin (h : w.Step a w') (hholds : w'.Holds k name) : w.Origin k name := by
  obtain ⟨e, he, hlive, rfl⟩ := hholds
  cases h with
  | edit document hd => exact .held ⟨e, he, hlive, rfl⟩
  | rename name => exact .held ⟨e, he, hlive, rfl⟩
  | unchanged => exact .held ⟨e, he, hlive, rfl⟩
  | flushed _ hs => exact origin_flushed hs he hlive
  | submitted hs ha => exact origin_submitted hs ha he hlive
  | loaded index =>
      rw [collection_loadActive] at he
      rcases w.flush_cases with heq | ⟨i, stored, hs, heq⟩
      · rw [heq] at he
        exact .held ⟨e, he, hlive, rfl⟩
      · rw [heq] at he
        exact origin_flushed hs he hlive
  | @copied source hsource =>
      change (w.collection.entries ++ [w.session.copy source])[k]? = some e at he
      rw [List.getElem?_append] at he
      split at he
      · exact .held ⟨e, he, hlive, rfl⟩
      · -- a copy is new
        cases List.mem_singleton.mp (List.mem_of_getElem? he)
        cases hlive.isNew

theorem Origin.holds (h : w.Origin i name) (hne : w.collection.active ≠ some i) :
    w.Holds i name := by
  cases h with
  | held hi => exact hi
  | emptied hactive => exact absurd hactive hne
  | fresh hactive => exact absurd hactive hne

theorem Origin.holds_or_refills (h : w.Origin i name) (hij : i ≠ j) (hj : w.Holds j name)
    (hi : w'.Holds i name) : w.Holds i name ∨ w.Refills w' i j name := by
  cases h with
  | held hbefore => exact .inl hbefore
  | emptied hactive he hold hempty hname =>
      exact .inr ⟨hactive, ⟨_, he, hold, hempty, hname⟩, hi, hj⟩
  | fresh hactive hfree =>
      obtain ⟨other, hother, hlive, hname⟩ := hj
      exact absurd hname (hfree j other hother (Ne.symm hij) hlive.hasDocument)

/-- A name that two positions hold after an action was held by both before, or one of them was
refilled. -/
theorem Step.clash_cases (h : w.Step a w') (hij : i ≠ j) (hc : w'.Clash i j name) :
    w.Clash i j name ∨ w.Refills w' i j name ∨ w.Refills w' j i name := by
  by_cases hactive : w.collection.active = some i
  · have hj := (h.origin hc.right).holds (by simpa [hactive] using hij)
    rcases (h.origin hc.left).holds_or_refills hij hj hc.left with hi | hrefills
    · exact .inl ⟨hi, hj⟩
    · exact .inr (.inl hrefills)
  · have hi := (h.origin hc.left).holds hactive
    rcases (h.origin hc.right).holds_or_refills (Ne.symm hij) hi hc.right with hj | hrefills
    · exact .inl ⟨hi, hj⟩
    · exact .inr (.inr hrefills)

/-! ## Runs -/

theorem clash_cases_run (hij : i ≠ j) {actions : List Action}
    (hc : (w.run actions).Clash i j name) :
    w.Clash i j name ∨ ∃ before act after, actions = before ++ act :: after ∧
      ((w.run before).Refills ((w.run before).perform act) i j name ∨
        (w.run before).Refills ((w.run before).perform act) j i name) := by
  induction actions generalizing w with
  | nil => exact .inl hc
  | cons act rest ih =>
      rcases ih hc with hnext | ⟨before, later, after, heq, hrefills⟩
      · rcases (w.step_perform act).clash_cases hij hnext with hw | hrefills
        · exact .inl hw
        · exact .inr ⟨[], act, rest, rfl, hrefills⟩
      · exact .inr ⟨act :: before, later, after, congrArg (act :: ·) heq, hrefills⟩

/-- Where persisted entries with content had different names, two of them share one after a run
only if the run refilled one of the two, an empty persisted entry, while the other had content
under its name. -/
theorem exists_refills_of_sameName (h : w.collection.NamesUnique) (actions : List Action)
    {i j : Nat} {a b : Entry} (hij : i ≠ j)
    (ha : (w.run actions).collection.entries[i]? = some a)
    (hb : (w.run actions).collection.entries[j]? = some b) (hla : a.Live) (hlb : b.Live)
    (hname : a.name = b.name) :
    ∃ before act after, actions = before ++ act :: after ∧
      ((w.run before).Refills ((w.run before).perform act) i j a.name ∨
        (w.run before).Refills ((w.run before).perform act) j i a.name) := by
  have hc : (w.run actions).Clash i j a.name := ⟨⟨a, ha, hla, rfl⟩, ⟨b, hb, hlb, hname.symm⟩⟩
  rcases clash_cases_run hij hc with ⟨⟨c, hci, hlc, hcn⟩, ⟨d, hdj, hld, hdn⟩⟩ | hrefills
  · exact absurd (h i j c d hci hdj hlc hld (hcn.trans hdn.symm)) hij
  · exact hrefills

/-- An emptied entry is refilled beside one that was persisted under its name meanwhile. -/
theorem exists_refills_of_emptied :
    let entries : List Entry := [{ Entry.stored "x" 1 "bob" .null with document := none },
      .stored "x" 1 "ann" (.object [("k", .bool true)])]
    let w := Workbench.start (.plain "route" "ann" .expressions) (.ofCollection ⟨entries, some 0⟩) ()
    let actions : List Action := [.edit (.object [("k", .bool false)]) (by simp), .flush]
    w.collection.NamesUnique ∧ ∃ before act after, actions = before ++ act :: after ∧
      ((w.run before).Refills ((w.run before).perform act) 0 1 "x" ∨
        (w.run before).Refills ((w.run before).perform act) 1 0 "x") := by
  intro entries w actions
  have hunique : w.collection.NamesUnique := by
    refine Collection.namesUnique_of_single 1 fun i e he hlive => ?_
    match i with
    | 0 =>
        cases he
        exact absurd hlive.hasDocument (by decide)
    | 1 => rfl
    | i + 2 => cases he
  have hholds : (w.run actions).Holds 0 "x" ∧ (w.run actions).Holds 1 "x" := by
    rw [holds_iff, holds_iff]
    simp only [actions, w, entries]
    decide +kernel
  obtain ⟨⟨a, ha, hla, hna⟩, ⟨b, hb, hlb, hnb⟩⟩ := hholds
  have hrefills := exists_refills_of_sameName hunique actions (i := 0) (j := 1) (by decide) ha hb
    hla hlb (hna.trans hnb.symm)
  rw [hna] at hrefills
  exact ⟨hunique, hrefills⟩

/-- A stored entry is emptied, a draft is submitted under its name, and then the stored one gets
content again. -/
theorem not_namesUnique_of_refilled :
    let entries : List Entry := [.stored "x" 1 "bob" (.object [("k", .bool true)]), .draft "ann"]
    let w := Workbench.start (.plain "route" "ann" .expressions) (.ofCollection ⟨entries, some 0⟩) ()
    let actions : List Action :=
      [.edit .emptyObject Json.wellFormed_emptyObject, .select (some 1), .rename "x",
        .edit (.object [("k", .bool true)]) (by simp), .submit (fun _ s => (true, s)) (),
        .select (some 0), .edit (.object [("k", .bool false)]) (by simp), .flush]
    w.collection.NamesUnique ∧ ¬ (w.run actions).collection.NamesUnique := by
  intro entries w actions
  have hunique : w.collection.NamesUnique := by
    refine Collection.namesUnique_of_single 0 fun i e he hlive => ?_
    match i with
    | 0 => rfl
    | 1 =>
        cases he
        exact absurd hlive.isNew (by decide)
    | i + 2 => cases he
  refine ⟨hunique, ?_⟩
  have hholds : (w.run actions).Holds 0 "x" ∧ (w.run actions).Holds 1 "x" := by
    rw [holds_iff, holds_iff]
    simp only [actions, w, entries]
    decide +kernel
  obtain ⟨⟨a, ha, hla, hna⟩, ⟨b, hb, hlb, hnb⟩⟩ := hholds
  intro hafter
  exact absurd (hafter 0 1 a b ha hb hla hlb (hna.trans hnb.symm)) (by decide)

end Workbench

end Curator
