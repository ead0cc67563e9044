import Curator.Metadata
import Curator.Proofs.Document.Solid

/-! # Metadata read back from a document

Fields are written one after the other, so a field reads back unless a later one is written at
its place or above it. Below its place nothing can be written, since metadata have no parts.
-/

namespace Curator.Metadata

open Json (Terminal)

variable {m : Metadata} {document written found : Json} {p : Pointer} {field : Field}
  {value : Json} {fields rest : List (Field × Json)} {e : Entry}

/-! ## Writing fields -/

theorem writeAll_cons_eq_none_iff :
    m.writeAll document ((field, value) :: rest) = (written, none) ↔
      ∃ next, m.set document field value = .ok next ∧ m.writeAll next rest = (written, none) := by
  rw [writeAll]
  cases m.set document field value with
  | ok next => simp
  | error fault => simp

theorem writeAll_cons_eq_some_iff {fault : Pointer.SetError} :
    m.writeAll document ((field, value) :: rest) = (written, some fault) ↔
      (m.set document field value = .error fault ∧ written = document) ∨
        ∃ next, m.set document field value = .ok next ∧
          m.writeAll next rest = (written, some fault) := by
  rw [writeAll]
  cases m.set document field value with
  | ok next => simp
  | error fault => simp [and_comm, eq_comm]

theorem reread_of_mem_pointer {s : Segment} (h : s ∈ m.pointer field) : Segment.reread s = s :=
  Pointer.reread_of_mem_parse h

theorem get?_of_set (h : m.set document field value = .ok written) :
    m.get? written field = some value :=
  (Json.sets_of_set h).get?_self

/-- Fields that are written neither at a place nor above it leave the metadata there. -/
theorem get?_of_writeAll (h : m.writeAll document fields = (written, none))
    (hp : document.get? p = some found) (hfound : found.Terminal)
    (hread : ∀ s ∈ p, Segment.reread s = s) (hfields : ∀ f ∈ fields, ¬ m.pointer f.1 <+: p) :
    written.get? p = some found := by
  induction fields generalizing document with
  | nil =>
      cases h
      exact hp
  | cons f rest ih =>
      obtain ⟨next, hnext, hrest⟩ := writeAll_cons_eq_none_iff.mp h
      obtain ⟨hfirst, hothers⟩ := List.forall_mem_cons.mp hfields
      have hkept := (Json.sets_of_set hnext).get?_of_terminal hp hfound hread
        (fun s hs => reread_of_mem_pointer hs) hfirst
      exact ih hrest hkept hothers

/-- A field reads back unless a later one is written at its place or above it. -/
theorem get?_of_writeAll_cons (h : m.writeAll document ((field, value) :: rest) = (written, none))
    (hvalue : value.Terminal) (hrest : ∀ f ∈ rest, ¬ m.pointer f.1 <+: m.pointer field) :
    m.get? written field = some value := by
  obtain ⟨next, hnext, hwritten⟩ := writeAll_cons_eq_none_iff.mp h
  exact get?_of_writeAll hwritten (get?_of_set hnext) hvalue (fun s hs => reread_of_mem_pointer hs)
    hrest

/-- Fields that are written apart from a place leave what there is. -/
theorem get?_of_writeAll_of_apart (h : m.writeAll document fields = (written, none))
    (hfields : ∀ f ∈ fields, (m.pointer f.1).Apart p) : written.get? p = document.get? p := by
  induction fields generalizing document with
  | nil =>
      cases h
      rfl
  | cons f rest ih =>
      obtain ⟨next, hnext, hrest⟩ := writeAll_cons_eq_none_iff.mp h
      obtain ⟨hfirst, hothers⟩ := List.forall_mem_cons.mp hfields
      rw [ih hrest hothers, (Json.sets_of_set hnext).get?_of_apart hfirst]

/-- An empty value that is read after fields were written is one of these, read back, or it was
there before, apart from their places. -/
theorem isVoid_cases_of_writeAll (h : m.writeAll document fields = (written, none))
    (hfields : ∀ f ∈ fields, f.2.Terminal) (hfound : written.get? p = some found)
    (hvoid : found.isVoid = true) :
    (∃ f ∈ fields, m.get? written f.1 = some f.2 ∧ found = f.2) ∨
      (document.get? p = some found ∧ ∀ f ∈ fields, (m.pointer f.1).Apart p) := by
  induction fields generalizing document with
  | nil =>
      cases h
      exact .inr ⟨hfound, nofun⟩
  | cons f rest ih =>
      obtain ⟨next, hnext, hrest⟩ := writeAll_cons_eq_none_iff.mp h
      obtain ⟨hfirst, hothers⟩ := List.forall_mem_cons.mp hfields
      rcases ih hrest hothers with ⟨other, hother, hread⟩ | ⟨hbefore, hapart⟩
      · exact .inl ⟨other, List.mem_cons_of_mem _ hother, hread⟩
      · have hsets := Json.sets_of_set hnext
        rcases hsets.isVoid_cases hfirst hbefore hvoid with ⟨heq, hnames⟩ | ⟨hstart, hp⟩
        · -- the later fields are apart from this one too, so it reads back
          refine .inl ⟨f, List.mem_cons_self, ?_, heq⟩
          rw [get?, get?_of_writeAll_of_apart hrest fun other hother => ?_]
          · exact get?_of_set hnext
          · have hother := hapart other hother
            exact ⟨hnames ▸ hother.not_prefix, hnames ▸ hother.not_prefix'⟩
        · exact .inr ⟨hstart, List.forall_mem_cons.mpr ⟨hp, hapart⟩⟩

theorem writeOrKeep_eq (h : m.writeAll document fields = (written, none)) :
    m.writeOrKeep document fields = written := by
  rw [writeOrKeep, h]

theorem writeOrKeep_eq_document {fault : Pointer.SetError}
    (h : m.writeAll document fields = (written, some fault)) :
    m.writeOrKeep document fields = document := by
  rw [writeOrKeep, h]

/-- Either all of the fields are written or none of them is. -/
theorem writeOrKeep_cases (m : Metadata) (document : Json) (fields : List (Field × Json)) :
    m.writeAll document fields = (m.writeOrKeep document fields, none) ∨
      m.writeOrKeep document fields = document := by
  unfold writeOrKeep
  split
  · next heq => exact .inl heq
  · exact .inr rfl

/-! ## The metadata of an entry -/

theorem terminal_of_mem_fieldsOf : ∀ f ∈ fieldsOf e, f.2.Terminal := by
  simp [fieldsOf, Terminal]

structure Reflects (m : Metadata) (document : Json) (e : Entry) : Prop where
  name : m.get? document .name = some (.string e.name)
  version : m.get? document .version = some (.number (.ofCount e.version.toNat))
  author : m.get? document .author = some (.string e.author)

/-- None of the pointers leads to the place of an earlier one or above it, unless it is the
place of the name where the author, of that name, is put. -/
structure Unshadowed (m : Metadata) (e : Entry) : Prop where
  version_name : ¬ m.pointer .version <+: m.pointer .name
  author_version : ¬ m.pointer .author <+: m.pointer .version
  author_name : m.pointer .author <+: m.pointer .name →
    m.pointer .author = m.pointer .name ∧ e.author = e.name

/-- With the usual pointers the metadata of every entry read back. -/
theorem unshadowed_default (e : Entry) : default.Unshadowed e where
  version_name := by decide
  author_version := by decide
  author_name h := absurd h (by decide)

theorem Reflects.unshadowed (h : m.Reflects document e) : m.Unshadowed e where
  version_name hprefix := by
    have hnumber : Terminal (.number (.ofCount e.version.toNat)) := trivial
    obtain ⟨-, heq⟩ := hnumber.eq_of_prefix h.version h.name hprefix
    cases heq
  author_version hprefix := by
    have hstring : Terminal (.string e.author) := trivial
    obtain ⟨-, heq⟩ := hstring.eq_of_prefix h.author h.version hprefix
    cases heq
  author_name hprefix := by
    have hstring : Terminal (.string e.author) := trivial
    obtain ⟨hsame, heq⟩ := hstring.eq_of_prefix h.author h.name hprefix
    exact ⟨hsame, Json.string.inj heq⟩

theorem Unshadowed.reflects (h : m.Unshadowed e) (hm : m.mirror document e = (written, none)) :
    m.Reflects written e := by
  obtain ⟨named, -, hversion⟩ := writeAll_cons_eq_none_iff.mp hm
  obtain ⟨versioned, -, hauthor⟩ := writeAll_cons_eq_none_iff.mp hversion
  have hwritten : m.get? written .author = some (.string e.author) :=
    get?_of_writeAll_cons hauthor trivial nofun
  refine ⟨?_, ?_, hwritten⟩
  · by_cases hprefix : m.pointer .author <+: m.pointer .name
    · -- the author is written over the name, and is the same
      obtain ⟨hsame, hname⟩ := h.author_name hprefix
      rw [get?, ← hsame, ← hname]
      exact hwritten
    · refine get?_of_writeAll_cons hm trivial ?_
      simp [h.version_name, hprefix]
  · refine get?_of_writeAll_cons hversion trivial ?_
    simp [h.author_version]

/-- Metadata that could be written read back just if none is written over another one. -/
theorem reflects_iff_unshadowed (h : m.mirror document e = (written, none)) :
    m.Reflects written e ↔ m.Unshadowed e :=
  ⟨Reflects.unshadowed, fun hm => hm.reflects h⟩

end Curator.Metadata
