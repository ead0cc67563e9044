import Curator.Proofs.Metadata
import Curator.Proofs.Workbench.Settling

/-! # What a flush leaves in the document

A flush cleans the document and then writes the metadata of the entry into it. If they can be
written they read back, as far as none of them is written over another one. They come after
the empty values were taken out, so an empty name or author is the one empty value that a
flushed document can hold.
-/

namespace Curator

open Metadata (fieldsOf)

namespace Workbench

variable {σ : Type} {w w' : Workbench σ} {i : Nat} {stored e : Entry} {document : Json}

/-! ## Metadata -/

/-- The metadata that are written into a document read back just if none of them is written at
the place of an earlier one or above it, save an author who is named as the entry is. So they do
after every flush that could write them. -/
theorem mirrored_iff_unshadowed (m : Metadata) (document : Json) (e : Entry) (w : Workbench σ) :
    (∀ written, m.mirror document e = (written, none) →
      (m.Reflects written e ↔ m.Unshadowed e)) ∧
    ∀ flushed w', w.flush = (.ok flushed, w') → ∀ cleaned written,
      (w.session.clean w.working w.state).1 = some cleaned →
      w.session.metadata.mirror cleaned flushed = (written, none) →
      w'.collection.activeEntry? = some flushed ∧ flushed.document = some written ∧
        (w.session.metadata.Reflects written flushed ↔ w.session.metadata.Unshadowed flushed) := by
  refine ⟨fun written h => Metadata.reflects_iff_unshadowed h, ?_⟩
  intro flushed w' hflush cleaned written hclean hmirror
  obtain ⟨i, stored, hs, rfl, rfl⟩ := exists_of_flush hflush
  refine ⟨hs.selected_flushed.activeEntry?_eq, ?_, Metadata.reflects_iff_unshadowed hmirror⟩
  rw [(w.shows_merged stored).document, hclean, Option.map_some]
  exact congrArg some (Metadata.writeOrKeep_eq hmirror)

/-- With the usual pointers a flushed draft reads back. -/
theorem mirrored_of_draft :
    let w := ((Workbench.start (.plain "route" "ann" .expressions)
      (.ofCollection ⟨[.draft "ann"], some 0⟩) ()).setWorking
      (.object [("x", .bool true)])).setPendingName "alpha"
    ∃ flushed w' written, w.flush = (.ok flushed, w') ∧ flushed.document = some written ∧
      Metadata.default.Reflects written flushed := by
  intro w
  have hs : w.Selected 0 (.draft "ann") := ⟨rfl, rfl⟩
  have hmirror : Metadata.default.mirror (.object [("x", .bool true)]) (w.merged (.draft "ann")) =
      (.object [("x", .bool true), ("name", .string "alpha"), ("version", .number (.ofCount 0)),
        ("author", .string "ann")], none) := by
    rfl
  obtain ⟨-, hdocument, hreads⟩ :=
    (mirrored_iff_unshadowed Metadata.default .null (.draft "ann") w).2 _ _ hs.flush_eq _ _ rfl
      hmirror
  exact ⟨_, _, _, hs.flush_eq, hdocument, hreads.mpr (Metadata.unshadowed_default _)⟩

/-- Pointers that are accepted can still lead through one another: here the version takes the
place of the object that holds the name. -/
theorem not_mirrored_of_nested_pointers :
    let m : Metadata := ⟨"/id/name", "/id", "/author", "/description"⟩
    let e := Entry.stored "alpha" 2 "ana" .emptyObject
    m.validate = .ok () ∧
      ∃ written, m.mirror .emptyObject e = (written, none) ∧
        m.get? written .name ≠ some (.string e.name) := by
  intro m e
  have hvalid : m.validate = .ok () := by
    simp only [m]
    rfl
  have hmirror : m.mirror .emptyObject e =
      (.object [("id", .number (.ofCount 2)), ("author", .string "ana")], none) := by
    simp only [m, e]
    rfl
  have hname : m.get? (.object [("id", .number (.ofCount 2)), ("author", .string "ana")]) .name =
      none := by
    simp only [m]
    rfl
  refine ⟨hvalid, _, hmirror, ?_⟩
  rw [hname]
  exact nofun

/-! ## Empty values -/

theorem wellFormed_document_merged (h : w.WellFormed)
    (hd : (w.merged stored).document = some document) : document.WellFormed := by
  have hmerged := h.merged stored
  rw [Entry.WellFormed, hd] at hmerged
  exact hmerged

/-- Where a flushed document holds an empty value, the name or the author of its entry is empty
and is read back as such. -/
theorem not_solid_cases (h : w.WellFormed) (hd : (w.merged stored).document = some document)
    (hnot : ¬ document.Solid) :
    ((w.merged stored).name = "" ∧
      w.session.metadata.get? document .name = some (.string "")) ∨
    ((w.merged stored).author = "" ∧
      w.session.metadata.get? document .author = some (.string "")) := by
  rw [Json.solid_iff_get? (wellFormed_document_merged h hd)] at hnot
  push Not at hnot
  obtain ⟨q, found, hfound, hvoid⟩ := hnot
  rw [ne_eq, Bool.not_eq_false] at hvoid
  rw [(w.shows_merged stored).document] at hd
  obtain ⟨cleaned, hclean, rfl⟩ := Option.map_eq_some_iff.mp hd
  -- what was cleaned has no empty value, so this one was written
  have hsolid : cleaned.get? q ≠ some found := by
    intro hbefore
    rw [(Json.solid_of_normalize hclean).isVoid_eq_false hbefore] at hvoid
    cases hvoid
  rcases w.session.metadata.writeOrKeep_cases cleaned (fieldsOf (w.merged stored)) with hall | hkeep
  · rcases Metadata.isVoid_cases_of_writeAll hall Metadata.terminal_of_mem_fieldsOf hfound hvoid with
      ⟨f, hf, hread, rfl⟩ | ⟨hbefore, -⟩
    · simp only [fieldsOf, List.mem_cons, List.not_mem_nil, or_false] at hf
      rcases hf with rfl | rfl | rfl
      · have hname : (w.merged stored).name = "" := by simpa [Json.isVoid] using hvoid
        rw [hname] at hread
        exact .inl ⟨hname, hread⟩
      · cases hvoid
      · have hauthor : (w.merged stored).author = "" := by simpa [Json.isVoid] using hvoid
        rw [hauthor] at hread
        exact .inr ⟨hauthor, hread⟩
    · exact absurd hbefore hsolid
  · rw [hkeep] at hfound
    exact absurd hfound hsolid

/-- A flushed document holds no empty value but a name or an author that is empty. -/
theorem solid_flush_iff (h : w.WellFormed) (hf : w.flush = (.ok e, w'))
    (hd : e.document = some document) :
    (document.Solid ↔
      w.session.metadata.get? document .name ≠ some (.string "") ∧
        w.session.metadata.get? document .author ≠ some (.string "")) ∧
    (e.name ≠ "" → e.author ≠ "" → document.Solid) := by
  obtain ⟨i, stored, hs, rfl, rfl⟩ := exists_of_flush hf
  have hread : document.Solid → ∀ field,
      w.session.metadata.get? document field ≠ some (.string "") := by
    intro hsolid field hfield
    have hvoid := hsolid.isVoid_eq_false hfield
    cases hvoid
  refine ⟨⟨fun hsolid => ⟨hread hsolid _, hread hsolid _⟩, fun ⟨hname, hauthor⟩ => ?_⟩, ?_⟩
  · by_contra hnot
    rcases not_solid_cases h hd hnot with ⟨-, hr⟩ | ⟨-, hr⟩
    · exact hname hr
    · exact hauthor hr
  · intro hname hauthor
    by_contra hnot
    rcases not_solid_cases h hd hnot with ⟨hn, -⟩ | ⟨ha, -⟩
    · exact hname hn
    · exact hauthor ha

/-- A draft that was given a name holds no empty value once it is flushed. -/
theorem solid_flush_of_named :
    let w := ((Workbench.start (.plain "route" "ann" .expressions)
      (.ofCollection ⟨[.draft "ann"], some 0⟩) ()).setWorking
      (.object [("x", .bool true), ("y", .null)])).setPendingName "alpha"
    ∃ e w' document, w.flush = (.ok e, w') ∧ e.document = some document ∧ document.Solid := by
  intro w
  have h : w.WellFormed := by
    refine ⟨trivial, ?_, ?_⟩
    · simp [w, setWorking, setPendingName]
    · exact List.forall_mem_singleton.mpr trivial
  have hs : w.Selected 0 (.draft "ann") := ⟨rfl, rfl⟩
  have hd : (w.merged (.draft "ann")).document = some (.object [("x", .bool true),
      ("name", .string "alpha"), ("version", .number (.ofCount 0)), ("author", .string "ann")]) := by
    simp only [w]
    rfl
  refine ⟨_, _, _, hs.flush_eq, hd, (solid_flush_iff h hs.flush_eq hd).2 ?_ ?_⟩
  · simp only [w]
    decide +kernel
  · simp only [w]
    decide +kernel

/-- A draft without a name is given an empty string for it, after the empty values were taken
out. -/
theorem not_solid_flush_of_unnamed :
    let w := (Workbench.start (.plain "route" "ann" .expressions)
      (.ofCollection ⟨[.draft "ann"], some 0⟩) ()).setWorking (.object [("x", .bool true)])
    ∃ e w' document, w.flush = (.ok e, w') ∧ e.document = some document ∧ ¬ document.Solid := by
  intro w
  have hs : w.Selected 0 (.draft "ann") := ⟨rfl, rfl⟩
  have hd : (w.merged (.draft "ann")).document = some (.object [("x", .bool true),
      ("name", .string ""), ("version", .number (.ofCount 0)), ("author", .string "ann")]) := by
    simp only [w]
    rfl
  refine ⟨_, _, _, hs.flush_eq, hd, ?_⟩
  simp [Json.Solid, Json.isVoid]

end Workbench

end Curator
