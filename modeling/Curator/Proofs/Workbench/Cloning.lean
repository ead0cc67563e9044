import Curator.Proofs.Metadata
import Curator.Proofs.Workbench.Failures

/-! # Copies of entries

A copy is appended and nothing else changes. Its document shows the new name and the version
zero, and is the stored one everywhere else; if one of the two cannot be written, neither is.
-/

namespace Curator

/-! ## The document of a copy -/

namespace Metadata

variable {m : Metadata} {document written : Json} {name : String}

/-- One of the two writes fails, the second after the first was made. -/
def Unwritable (m : Metadata) (document : Json) (name : String) : Prop :=
  (∃ fault, m.set document .name (.string name) = .error fault) ∨
    ∃ named fault, m.set document .name (.string name) = .ok named ∧
      m.set named .version (.number (.ofCount 0)) = .error fault

structure Renamed (m : Metadata) (document : Json) (name : String) (written : Json) : Prop where
  writes : ∃ named, m.set document .name (.string name) = .ok named ∧
    m.set named .version (.number (.ofCount 0)) = .ok written
  version : m.get? written .version = some (.number (.ofCount 0))
  name : ¬ m.pointer .version <+: m.pointer .name → m.get? written .name = some (.string name)
  others : ∀ text,
    (∀ field ∈ [Field.name, Field.version],
      ¬ m.pointer field <+: Pointer.parse text ∧ ¬ Pointer.parse text <+: m.pointer field) →
    written.get? (Pointer.parse text) = document.get? (Pointer.parse text)

theorem renamed_of_writeAll
    (h : m.writeAll document [(.name, .string name), (.version, .number (.ofCount 0))] =
      (written, none)) : m.Renamed document name written := by
  obtain ⟨named, hname, hrest⟩ := writeAll_cons_eq_none_iff.mp h
  obtain ⟨versioned, hversion, hdone⟩ := writeAll_cons_eq_none_iff.mp hrest
  cases hdone
  refine ⟨⟨named, hname, hversion⟩, get?_of_set hversion, fun hover => ?_, fun text hapart => ?_⟩
  · exact get?_of_writeAll_cons h trivial (List.forall_mem_singleton.mpr hover)
  · -- pointers that were parsed are apart unless one leads through the place of the other
    refine get?_of_writeAll_of_apart h fun f hf => ?_
    have hfield : f.1 ∈ [Field.name, Field.version] := List.mem_map_of_mem hf
    obtain ⟨hbelow, habove⟩ := hapart f.1 hfield
    exact Pointer.apart_of_not_prefix (fun _ => reread_of_mem_pointer)
      (fun _ => Pointer.reread_of_mem_parse) hbelow habove

theorem unwritable_of_writeAll {fault : Pointer.SetError}
    (h : m.writeAll document [(.name, .string name), (.version, .number (.ofCount 0))] =
      (written, some fault)) : m.Unwritable document name := by
  rcases writeAll_cons_eq_some_iff.mp h with ⟨hname, -⟩ | ⟨named, hname, hrest⟩
  · exact .inl ⟨fault, hname⟩
  · rcases writeAll_cons_eq_some_iff.mp hrest with ⟨hversion, -⟩ | ⟨_, -, hdone⟩
    · exact .inr ⟨named, fault, hname, hversion⟩
    · cases hdone

/-- Either both are written, or one cannot be and the document is kept. -/
theorem renamed_or_kept (m : Metadata) (document : Json) (name : String) :
    let written := m.writeOrKeep document [(.name, .string name), (.version, .number (.ofCount 0))]
    m.Renamed document name written ∨ m.Unwritable document name ∧ written = document := by
  intro written
  cases h : m.writeAll document [(.name, .string name), (.version, .number (.ofCount 0))] with
  | mk result fault =>
      cases fault with
      | none =>
          left
          rw [show written = result from writeOrKeep_eq h]
          exact renamed_of_writeAll h
      | some fault => exact .inr ⟨unwritable_of_writeAll h, writeOrKeep_eq_document h⟩

end Metadata

/-! ## Cloning -/

structure Entry.CopyOf (source : Entry) (user : String) (e : Entry) : Prop where
  name : e.name = source.name ++ "_clone"
  version : e.version = 0
  author : e.author = user
  description : e.description = source.description
  isNew : e.isNew = true
  saved : e.saved = false

theorem Session.copyOf_copy {σ : Type} (session : Session σ) (source : Entry) :
    source.CopyOf session.user (session.copy source) := ⟨rfl, rfl, rfl, rfl, rfl, rfl⟩

namespace Workbench

variable {σ : Type} {w : Workbench σ} {source : Entry}

/-- Cloning appends a copy of the selected entry, logs that and changes nothing else. The copy has
the stored document with its own name and version written into it, or, if a write fails, just
the stored document. -/
theorem clone_appends_copy (h : w.collection.activeEntry? = some source) :
    ∃ e document,
      w.clone = (.ok e, { w with
        store := ⟨⟨w.collection.entries ++ [e], w.collection.active⟩,
          w.store.log ++ [.addEntry e]⟩ }) ∧
      source.CopyOf w.session.user e ∧ e.document = some document ∧
      let stored := source.document.getD .emptyObject
      w.session.metadata.Renamed stored e.name document ∨
        w.session.metadata.Unwritable stored e.name ∧ document = stored := by
  obtain ⟨i, hs⟩ := selected_of_activeEntry? h
  exact ⟨w.session.copy source, _, hs.clone_eq, w.session.copyOf_copy source, rfl,
    w.session.metadata.renamed_or_kept _ _⟩

/-- The version belongs below the name, where nothing can be written any more, so the name is
not written either. -/
theorem clone_appends_copy_of_nested :
    let metadata : Metadata := ⟨"/id", "/id/v", "/author", "/description"⟩
    let stored := Json.object [("id", .string "a"), ("x", .null)]
    let w := Workbench.start { Session.plain "route" "ann" .expressions with metadata }
      (.ofCollection ⟨[.stored "a" 1 "bob" stored], some 0⟩) ()
    ∃ e w', w.clone = (.ok e, w') ∧ e.name = "a_clone" ∧ e.author = "ann" ∧
      e.document = some stored ∧ w'.collection.active = some 0 ∧
      w'.collection.entries = [.stored "a" 1 "bob" stored, e] := by
  intro metadata stored w
  have hactive : w.collection.activeEntry? = some (.stored "a" 1 "bob" stored) := rfl
  obtain ⟨e, document, hclone, hcopy, hdocument, hcases⟩ := clone_appends_copy hactive
  have hname : metadata.set stored .name (.string "a_clone") =
      .ok (.object [("id", .string "a_clone"), ("x", .null)]) := by
    simp only [metadata, stored]
    rfl
  have hversion : metadata.set (.object [("id", .string "a_clone"), ("x", .null)]) .version
      (.number (.ofCount 0)) = .error (.obstacle [.key "id", .key "v"] (.parent .string)) := by
    simp only [metadata]
    rfl
  have hkept : document = stored := by
    rcases hcases with hrenamed | ⟨-, hkept⟩
    · obtain ⟨named, hfirst, hsecond⟩ := hrenamed.writes
      rw [hcopy.name] at hfirst
      cases hname.symm.trans hfirst
      cases hversion.symm.trans hsecond
    · exact hkept
  rw [hkept] at hdocument
  exact ⟨e, _, hclone, hcopy.name, hcopy.author, hdocument, rfl, rfl⟩

end Workbench

end Curator
