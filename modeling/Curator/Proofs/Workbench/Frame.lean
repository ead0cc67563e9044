import Curator.Proofs.Workbench.Run

/-! # Entries that an action does not touch

An action writes at the selected position only, or it appends a copy. What it writes there in
the place of a stored entry keeps the name, the version and the author, so over a run no entry
is lost and no stored entry turns into another one.
-/

namespace Curator

/-- A stored entry with the name, the version and the author of another. -/
structure Entry.StoredAs (e e' : Entry) : Prop where
  isNew : e'.isNew = false
  name : e'.name = e.name
  version : e'.version = e.version
  author : e'.author = e.author

namespace Entry.StoredAs

variable {a b c : Entry}

theorem refl (h : a.isNew = false) : a.StoredAs a := ⟨h, rfl, rfl, rfl⟩

theorem trans (hab : a.StoredAs b) (hbc : b.StoredAs c) : a.StoredAs c :=
  ⟨hbc.isNew, hbc.name.trans hab.name, hbc.version.trans hab.version, hbc.author.trans hab.author⟩

theorem persisted (h : a.StoredAs b) : a.StoredAs b.persisted := ⟨rfl, h.name, h.version, h.author⟩

end Entry.StoredAs

namespace Workbench

variable {σ : Type} {w w' w'' : Workbench σ} {a : Action} {i : Nat} {stored e : Entry}

/-- The pending name is not for a stored entry. -/
theorem storedAs_merged (w : Workbench σ) (h : stored.isNew = false) :
    stored.StoredAs (w.merged stored) := by
  unfold merged Session.merge
  dsimp only
  rw [h, if_neg Bool.false_ne_true]
  exact ⟨h, rfl, rfl, rfl⟩

/-! ## One action -/

theorem Selected.entries_flushed (h : w.Selected i stored) :
    (w.flushed i stored).collection.entries = w.collection.entries.set i (w.merged stored) := by
  rw [h.collection_flushed]

/-- An action leaves the entries, writes over the selected one, or appends what cloning gives. -/
theorem Step.entries_cases (h : w.Step a w') :
    w'.collection.entries = w.collection.entries ∨
    (∃ i stored e, w.Selected i stored ∧ (stored.isNew = false → stored.StoredAs e) ∧
      w'.collection.entries = w.collection.entries.set i e) ∨
    a = .clone ∧ ∃ e, w.clone.1 = .ok e ∧
      w'.collection.entries = w.collection.entries ++ [e] := by
  cases h with
  | edit document hd => exact .inl rfl
  | rename name => exact .inl rfl
  | unchanged => exact .inl rfl
  | @flushed _ i stored hs =>
      exact .inr (.inl ⟨i, stored, _, hs, w.storedAs_merged, hs.entries_flushed⟩)
  | @submitted _ i stored hs _ =>
      refine .inr (.inl ⟨i, stored, (w.merged stored).persisted, hs, fun hstored => ?_, ?_⟩)
      · exact (w.storedAs_merged hstored).persisted
      · rw [hs.collection_submitted]
  | loaded index =>
      rw [collection_loadActive]
      rcases w.flush_cases with heq | ⟨i, stored, hs, heq⟩
      · exact .inl (congrArg (·.collection.entries) heq)
      · refine .inr (.inl ⟨i, stored, _, hs, w.storedAs_merged, ?_⟩)
        exact (congrArg (·.collection.entries) heq).trans hs.entries_flushed
  | @copied source hsource =>
      refine .inr (.inr ⟨rfl, w.session.copy source, ?_, rfl⟩)
      rw [clone, hsource]

theorem Step.length_cases (h : w.Step a w') :
    w'.collection.entries.length = w.collection.entries.length ∨
    a = .clone ∧ ∃ e, w.clone.1 = .ok e ∧
      w'.collection.entries = w.collection.entries ++ [e] := by
  rcases h.entries_cases with heq | ⟨i, stored, e, -, -, heq⟩ | happend
  · exact .inl (congrArg List.length heq)
  · exact .inl (by rw [heq, List.length_set])
  · exact .inr happend

/-- An entry that is not the selected one stays as it is. -/
theorem Step.getElem?_eq (h : w.Step a w') (hi : i < w.collection.entries.length)
    (hne : w.collection.active ≠ some i) :
    w'.collection.entries[i]? = w.collection.entries[i]? := by
  rcases h.entries_cases with heq | ⟨j, stored, e, hs, -, heq⟩ | ⟨-, e, -, heq⟩
  · rw [heq]
  · have hji : j ≠ i := by
      rintro rfl
      exact hne hs.active
    rw [heq, List.getElem?_set_ne hji]
  · rw [heq, List.getElem?_append_left hi]

/-! ## Runs -/

def Retains (w w' : Workbench σ) : Prop :=
  ∀ (i : Nat) (e : Entry), w.collection.entries[i]? = some e → e.isNew = false →
    ∃ e', w'.collection.entries[i]? = some e' ∧ e.StoredAs e'

theorem Retains.refl (w : Workbench σ) : w.Retains w := fun _ e he hold => ⟨e, he, .refl hold⟩

theorem Retains.trans (h : w.Retains w') (h' : w'.Retains w'') : w.Retains w'' := by
  intro i e he hold
  obtain ⟨e', he', hstored⟩ := h i e he hold
  obtain ⟨e'', he'', hstored'⟩ := h' i e' he' hstored.isNew
  exact ⟨e'', he'', hstored.trans hstored'⟩

theorem Step.retains (h : w.Step a w') : w.Retains w' := by
  intro i e he hold
  have hlt : i < w.collection.entries.length := (List.getElem?_eq_some_iff.mp he).choose
  by_cases hactive : w.collection.active = some i
  · rcases h.entries_cases with heq | ⟨j, stored, written, hs, hstored, heq⟩ | ⟨-, copy, -, heq⟩
    · exact ⟨e, heq ▸ he, .refl hold⟩
    · obtain ⟨rfl, rfl⟩ := hs.unique ⟨hactive, he⟩
      exact ⟨written, heq ▸ List.getElem?_set_self hlt, hstored hold⟩
    · exact ⟨e, by rw [heq, List.getElem?_append_left hlt, he], .refl hold⟩
  · exact ⟨e, (h.getElem?_eq hlt hactive).trans he, .refl hold⟩

theorem retains_run (w : Workbench σ) (actions : List Action) : w.Retains (w.run actions) := by
  induction actions generalizing w with
  | nil => exact .refl w
  | cons a rest ih => exact (w.step_perform a).retains.trans (ih (w.perform a))

theorem length_le_run (w : Workbench σ) (actions : List Action) :
    w.collection.entries.length ≤ (w.run actions).collection.entries.length := by
  induction actions generalizing w with
  | nil => exact Nat.le_refl _
  | cons a rest ih =>
      refine Nat.le_trans ?_ (ih (w.perform a))
      rcases (w.step_perform a).length_cases with heq | ⟨-, e, -, heq⟩
      · exact Nat.le_of_eq heq.symm
      · rw [heq, List.length_append]
        exact Nat.le_add_right _ _

/-- At each point of a run, the next action leaves every entry but the selected one, and it adds
none unless it clones, when the copy comes last. However the run goes on, there are as many
entries as before or more, and the stored ones keep their names, versions and authors. -/
theorem frame_run (w : Workbench σ) (actions : List Action) :
    let now := w.run actions
    (∀ a, let next := now.perform a
      (next.collection.entries.length = now.collection.entries.length ∨
        a = .clone ∧ ∃ e, now.clone.1 = .ok e ∧
          next.collection.entries = now.collection.entries ++ [e]) ∧
      ∀ i < now.collection.entries.length, now.collection.active ≠ some i →
        next.collection.entries[i]? = now.collection.entries[i]?) ∧
    ∀ more, let later := w.run (actions ++ more)
      now.collection.entries.length ≤ later.collection.entries.length ∧
      ∀ (i : Nat) (e : Entry), now.collection.entries[i]? = some e → e.isNew = false →
        ∃ e', later.collection.entries[i]? = some e' ∧ e'.isNew = false ∧ e'.name = e.name ∧
          e'.version = e.version ∧ e'.author = e.author := by
  intro now
  refine ⟨fun a => ?_, fun more => ?_⟩
  · have hstep := now.step_perform a
    exact ⟨hstep.length_cases, fun i hi hne => hstep.getElem?_eq hi hne⟩
  · have hlater : w.run (actions ++ more) = now.run more := List.foldl_append
    intro later
    simp only [later, hlater]
    refine ⟨now.length_le_run more, fun i e he hold => ?_⟩
    obtain ⟨e', he', hstored⟩ := now.retains_run more i e he hold
    exact ⟨e', he', hstored.isNew, hstored.name, hstored.version, hstored.author⟩

/-- Another name and another document for the second of two stored entries, and then a copy of
it. -/
theorem frame_run_of_copy :
    let entries : List Entry := [.stored "a" 1 "ann" .emptyObject, .stored "b" 2 "bob" .emptyObject]
    let w := Workbench.start (.plain "route" "ann" .expressions) (.ofCollection ⟨entries, some 1⟩) ()
    let actions : List Action :=
      [.rename "c", .edit (.object [("x", .bool true)]) (by simp), .flush, .clone]
    let now := w.run actions
    now.collection.entries.length = 3 ∧
      (now.perform .flush).collection.entries[2]? = now.collection.entries[2]? ∧
      ∃ e, now.collection.entries[1]? = some e ∧ e.isNew = false ∧ e.name = "b" ∧
        e.version = 2 ∧ e.author = "bob" := by
  intro entries w actions now
  have hnow : now.collection.entries.length = 3 ∧ now.collection.active = some 1 := by
    simp only [now, actions, w, entries]
    decide +kernel
  obtain ⟨hlength, hactive⟩ := hnow
  refine ⟨hlength, ?_, ((frame_run w []).2 actions).2 1 _ rfl rfl⟩
  exact ((frame_run w actions).1 .flush).2 2 (by rw [hlength]; decide) (by rw [hactive]; decide)

end Workbench

end Curator
