import Curator.Collection
import Curator.Proofs.Json.Record

/-! # Entries through their records

An entry reads back from its record, but for a document of null, which a record cannot tell from
none. What was read, in whatever form, has no such document, so writing it and reading it again
changes nothing. A collection reads back entry by entry.
-/

namespace Curator

open Json (Written)

namespace Entry

variable {e : Entry} {written : Written} {limit : Option Nat}

def WellFormed (e : Entry) : Prop := (e.document.getD .null).WellFormed

theorem WellFormed.getD (h : e.WellFormed) : (e.document.getD .emptyObject).WellFormed := by
  unfold WellFormed at h
  cases hd : e.document with
  | none => exact Json.wellFormed_emptyObject
  | some document =>
      rw [hd] at h
      exact h

/-- The entry without its document, if that is null. -/
def withoutNull (e : Entry) : Entry :=
  { e with document := e.document.filter fun document => document.kind ≠ .null }

/-! ## Reading what was written -/

def members (e : Entry) : List (String × Json) :=
  [("name", .string e.name), ("version", .number (.ofCount e.version.toNat)),
    ("author", .string e.author)] ++
  (e.description.map fun d => ("description", Json.string d)).toList ++
  (e.document.map fun d => ("configData", d)).toList ++
  [("isNew", .bool e.isNew), ("savedInBackend", .bool e.saved)]

/-- The record of an entry as it is read. -/
def record (e : Entry) : Json.Record :=
  ⟨false, e.members.map fun m => (m.1, Written.ofJson m.2)⟩

theorem keys_toList_sublist {α : Type} (name : String) (value? : Option α) (f : α → Json) :
    (Members.keys (value?.map fun value => (name, f value)).toList).Sublist [name] := by
  cases value? with
  | none => exact List.nil_sublist _
  | some value => exact .refl _

theorem keys_members_sublist (e : Entry) : (Members.keys e.members).Sublist fieldNames := by
  unfold members
  simp only [Members.keys_append]
  exact (((List.Sublist.refl _).append (keys_toList_sublist ..)).append
    (keys_toList_sublist _ _ id)).append (.refl _)

theorem ofWritten?_record (e : Entry) :
    Json.Record.ofWritten? fieldNames (.ofJson e.toJson) = some e.record := by
  have hsub := e.keys_members_sublist
  refine Json.Record.ofWritten?_object (hsub.nodup (by decide)) fun m hm => ?_
  exact hsub.subset (Members.mem_keys_of_mem hm)

theorem asOption?_ofJson {document : Json} (h : document.WellFormed) :
    Written.asOption? (Written.toJsonWithin? none) (.ofJson document) =
      some ((some document).filter fun document => document.kind ≠ .null) := by
  have hread : Written.toJsonWithin? none (.ofJson document) = some document :=
    Written.toJson?_ofJson h
  cases document with
  | null => rfl
  | _ =>
      rw [Written.asOption?_of_ne_null (by simp [Written.ofJson]), hread]
      rfl

theorem fieldD_configData (h : e.WellFormed) :
    e.record.fieldD "configData" (Written.asOption? (Written.toJsonWithin? none)) none =
      some e.withoutNull.document := by
  obtain ⟨name, version, author, description, document, isNew, saved⟩ := e
  cases document with
  | none => cases description <;> rfl
  | some document =>
      have hdocument : document.WellFormed := h
      have hread := asOption?_ofJson hdocument
      cases description <;> exact hread

theorem ofWritten?_toJson (h : e.WellFormed) :
    ofWritten? none (.ofJson e.toJson) = some e.withoutNull := by
  have hname : e.record.field? "name" = some (.string (some e.name)) := rfl
  have hversion : e.record.fieldD "version" Written.asNat? 0 = some e.version.toNat :=
    Number.toNat?_ofCount e.version.toNat_lt
  have hauthor : e.record.fieldD "author" Written.asString? "" = some e.author := rfl
  have hdescription : e.record.fieldD "description" (Written.asOption? Written.asString?) none =
      some e.description := by
    rcases e with ⟨_, _, _, _ | _, _ | _, _, _⟩ <;> rfl
  have hisNew : e.record.fieldD "isNew" Written.asBool? false = some e.isNew := by
    rcases e with ⟨_, _, _, _ | _, _ | _, _, _⟩ <;> rfl
  have hsaved : e.record.fieldD "savedInBackend" Written.asBool? false = some e.saved := by
    rcases e with ⟨_, _, _, _ | _, _ | _, _, _⟩ <;> rfl
  rw [ofWritten?, ofWritten?_record]
  simp only [Option.bind_eq_bind, Option.bind_some, hname, hversion, hauthor, hdescription,
    fieldD_configData h, hisNew, hsaved, Written.asString?, UInt64.ofNat_toNat]
  rfl

/-! ## What was read -/

/-- A document that was read is well-formed and not null. -/
theorem document_of_ofWritten? (h : ofWritten? limit written = some e) {document : Json}
    (hdocument : e.document = some document) : document.WellFormed ∧ document.kind ≠ .null := by
  simp only [ofWritten?, Option.bind_eq_bind, Option.bind_eq_some_iff] at h
  obtain ⟨r, -, _, -, _, -, _, -, _, -, _, -, found, hfound, _, -, _, -, hread⟩ := h
  cases hread
  cases hdocument
  rcases Json.Record.fieldD_eq_some hfound with hnone | ⟨value, hvalue⟩
  · cases hnone
  · obtain ⟨hvalue_ne, hvalue⟩ := Written.of_asOption?_eq_some hvalue
    unfold Written.toJsonWithin? at hvalue
    split at hvalue
    · refine ⟨Written.wellFormed_of_toJson? value document hvalue, fun hkind => hvalue_ne ?_⟩
      cases document with
      | null => exact Written.eq_null_of_toJson? hvalue
      | _ => cases hkind
    · cases hvalue

theorem wellFormed_of_ofWritten? (h : ofWritten? limit written = some e) : e.WellFormed := by
  unfold WellFormed
  cases hdocument : e.document with
  | none => exact Json.wellFormed_null
  | some document => exact (document_of_ofWritten? h hdocument).1

theorem withoutNull_of_ofWritten? (h : ofWritten? limit written = some e) : e.withoutNull = e := by
  have hdocument : e.document.filter (fun document => document.kind ≠ .null) = e.document := by
    cases hdocument : e.document with
    | none => rfl
    | some document =>
        exact Option.filter_some_pos (decide_eq_true (document_of_ofWritten? h hdocument).2)
  rw [withoutNull, hdocument]

end Entry

namespace Collection

variable {c : Collection}

def activeJson (c : Collection) : Json :=
  match c.active with
  | some i => .number (.ofCount i)
  | none => .null

theorem asOption?_activeJson (h : ∀ i, c.active = some i → i < UInt64.size) :
    Written.asOption? Written.asNat? (.ofJson c.activeJson) = some c.active := by
  unfold activeJson
  cases hactive : c.active with
  | none => rfl
  | some i =>
      have hcount := Number.toNat?_ofCount (h i hactive)
      exact congrArg (Option.map some) hcount

theorem ofWritten?_toJson (h : ∀ e ∈ c.entries, e.WellFormed)
    (hactive : ∀ i, c.active = some i → i < UInt64.size) :
    ofWritten? (.ofJson c.toJson) = some ⟨c.entries.map Entry.withoutNull, c.active⟩ := by
  have hentries : Written.asList? (Entry.ofWritten? none)
      (.ofJson (.array (c.entries.map Entry.toJson))) = some (c.entries.map Entry.withoutNull) :=
    Written.asList?_ofJson fun e he => Entry.ofWritten?_toJson (h e he)
  have hrecord : Json.Record.ofWritten? ["entries", "active"] (.ofJson c.toJson) =
      some ⟨false, [("entries", .ofJson (.array (c.entries.map Entry.toJson))),
        ("active", .ofJson c.activeJson)]⟩ :=
    Json.Record.ofWritten?_object (by simp) (by simp)
  rw [ofWritten?, hrecord]
  change (Written.asList? (Entry.ofWritten? none) _).bind (fun entries =>
    (Written.asOption? Written.asNat? (.ofJson c.activeJson)).bind fun active =>
      some (Collection.mk entries active)) = _
  rw [hentries, asOption?_activeJson hactive]
  rfl

/-- Entries read back from their records, but for documents of null, and so do those of a
collection, whose selection stays, in range or not. What an entry was read from may be a record of
either form, with members that are no fields and without fields that have a default: writing the
entry and reading it again gives the same one. -/
theorem records_read_back :
    (∀ e : Entry, e.WellFormed → Entry.ofWritten? none (.ofJson e.toJson) = some e.withoutNull) ∧
    (∀ c : Collection, (∀ e ∈ c.entries, e.WellFormed) →
      (∀ i, c.active = some i → i < UInt64.size) →
        ofWritten? (.ofJson c.toJson) = some ⟨c.entries.map Entry.withoutNull, c.active⟩) ∧
    ∀ (limit : Option Nat) (written : Written) (e : Entry),
      Entry.ofWritten? limit written = some e → Entry.ofWritten? none (.ofJson e.toJson) = some e := by
  refine ⟨fun e => Entry.ofWritten?_toJson, fun c => ofWritten?_toJson, fun limit written e h => ?_⟩
  rw [Entry.ofWritten?_toJson (Entry.wellFormed_of_ofWritten? h), Entry.withoutNull_of_ofWritten? h]

/-- The greatest version, a null inside a document and a selection beyond the entries stay; a
document of null goes. An array that stops after the version is completed by the defaults. -/
theorem records_read_back_of_nulls :
    let e : Entry := ⟨"alpha", 18446744073709551615, "ana", some "",
      some (.object [("k", .array [.null])]), false, true⟩
    let draft : Entry := { Entry.draft "ana" with document := some .null }
    let c : Collection := ⟨[e, draft], some 7⟩
    let written : Written := .array [.string (some "beta"), .number (some (.ofCount 3))]
    let beta : Entry := ⟨"beta", 3, "", none, none, false, false⟩
    Entry.ofWritten? none (.ofJson e.toJson) = some e ∧
      ofWritten? (.ofJson c.toJson) = some ⟨[e, .draft "ana"], some 7⟩ ∧
      Entry.ofWritten? none written = some beta ∧
      Entry.ofWritten? none (.ofJson beta.toJson) = some beta := by
  intro e draft c written beta
  obtain ⟨hentry, hcollection, hagain⟩ := records_read_back
  have he : e.WellFormed := by simp [Entry.WellFormed, e]
  have hdraft : draft.WellFormed := Json.wellFormed_null
  have hactive : ∀ i, c.active = some i → i < UInt64.size := by
    intro i hi
    cases hi
    decide
  have hbeta : Entry.ofWritten? none written = some beta := rfl
  refine ⟨hentry e he, ?_, hbeta, hagain none written beta hbeta⟩
  refine hcollection c (List.forall_mem_cons.mpr ⟨he, ?_⟩) hactive
  exact List.forall_mem_singleton.mpr hdraft

end Collection

end Curator
