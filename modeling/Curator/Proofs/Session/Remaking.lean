import Curator.Proofs.Document.NormalForm
import Curator.Proofs.Pointer.Site
import Curator.Proofs.Session

/-! # Documents that are flushed again

Without rules, a flush normalizes a document and writes the metadata of its entry into it. Where
these are members of the root, doing so to what came of it gives the same document, up to the order
of members: an empty name or author is taken out and written again, the version keeps the object
from becoming empty, and a document that is no object is left without metadata both times.
-/

namespace Curator

open Json (SameUpToKeyOrder)
open Metadata (fieldsOf)

namespace Metadata

/-- The name, the version and the author stand as members of the root, under three names. -/
structure AtMembers (m : Metadata) (name version author : String) : Prop where
  name_eq : m.pointer .name = [.key name]
  version_eq : m.pointer .version = [.key version]
  author_eq : m.pointer .author = [.key author]
  nodup : [name, version, author].Nodup

theorem atMembers_default : default.AtMembers "name" "version" "author" :=
  ⟨rfl, rfl, rfl, by decide⟩

end Metadata

/-! ## Members with the metadata of an entry -/

namespace Entry

variable {e : Entry} {name version author other : String} {members : List (String × Json)}

def inscribe (e : Entry) (name version author : String) (members : List (String × Json)) :
    List (String × Json) :=
  Members.insert author (.string e.author)
    (Members.insert version (.number (.ofCount e.version.toNat))
      (Members.insert name (.string e.name) members))

theorem get?_inscribe_of_mem (h : other ∈ [name, version, author])
    (members others : List (String × Json)) :
    Members.get? other (e.inscribe name version author members) =
      Members.get? other (e.inscribe name version author others) := by
  simp only [List.mem_cons, List.not_mem_nil, or_false] at h
  rcases h with rfl | rfl | rfl <;> simp [inscribe, Members.get?_insert]

theorem get?_inscribe_of_not_mem (h : other ∉ [name, version, author]) :
    Members.get? other (e.inscribe name version author members) = Members.get? other members := by
  simp only [List.mem_cons, List.not_mem_nil, or_false, not_or] at h
  obtain ⟨hname, hversion, hauthor⟩ := h
  simp [inscribe, Members.get?_insert, hname, hversion, hauthor]

theorem get?_inscribe_version (h : [name, version, author].Nodup) :
    Members.get? version (e.inscribe name version author members) =
      some (.number (.ofCount e.version.toNat)) := by
  have hne : version ≠ author := by
    rintro rfl
    simp at h
  rw [inscribe, Members.get?_insert_of_ne hne, Members.get?_insert_self]

theorem wellFormed_inscribe (h : Json.WellFormed (.object members)) :
    Json.WellFormed (.object (e.inscribe name version author members)) :=
  ((h.insert (Json.wellFormed_string _) name).insert (Json.wellFormed_number _) version).insert
    (Json.wellFormed_string _) author

/-- What stood under the three names makes no difference. -/
theorem inscribe_same {others : List (String × Json)} (hms : Json.WellFormed (.object members))
    (hos : Json.WellFormed (.object others))
    (h : ∀ other ∉ [name, version, author],
      Option.Rel SameUpToKeyOrder (Members.get? other members) (Members.get? other others)) :
    SameUpToKeyOrder (.object (e.inscribe name version author members))
      (.object (e.inscribe name version author others)) := by
  refine .object (wellFormed_inscribe hms).distinct (wellFormed_inscribe hos).distinct
    fun other => ?_
  by_cases hother : other ∈ [name, version, author]
  · rw [get?_inscribe_of_mem hother members others]
    exact Json.rel_refl _
  · rw [get?_inscribe_of_not_mem hother, get?_inscribe_of_not_mem hother]
    exact h other hother

/-- Something is left of such members, since there is a version. -/
theorem prune_inscribe (hnodup : [name, version, author].Nodup)
    (h : Json.WellFormed (.object members)) :
    Json.prune (.object (e.inscribe name version author members)) =
      some (.object (Json.pruneMembers (e.inscribe name version author members))) := by
  rw [Json.prune_object, if_neg]
  intro hempty
  have hversion : Members.get? version
      (Json.pruneMembers (e.inscribe name version author members)) =
      (Members.get? version (e.inscribe name version author members)).bind Json.prune :=
    Json.get?_pruneMembers (wellFormed_inscribe h).distinct version
  rw [List.isEmpty_iff.mp hempty, get?_inscribe_version hnodup] at hversion
  cases hversion

theorem get?_pruneMembers_inscribe (hother : other ∉ [name, version, author])
    (hsolid : Json.Solid (.object members)) (h : Json.WellFormed (.object members)) :
    Members.get? other (Json.pruneMembers (e.inscribe name version author members)) =
      Members.get? other members := by
  rw [Json.get?_pruneMembers (wellFormed_inscribe h).distinct, get?_inscribe_of_not_mem hother,
    hsolid.bind_prune_eq]

end Entry

theorem Json.set_key (members : List (String × Json)) (name : String) (new : Json) :
    Json.set (.object members) [.key name] new = .ok (.object (Members.insert name new members)) :=
  set_object rfl members new

namespace Metadata.AtMembers

variable {m : Metadata} {name version author : String} {document : Json}

theorem writeOrKeep_object (h : m.AtMembers name version author) (e : Entry)
    (members : List (String × Json)) :
    m.writeOrKeep (.object members) (fieldsOf e) =
      .object (e.inscribe name version author members) := by
  simp only [writeOrKeep, fieldsOf, writeAll, Metadata.set, h.name_eq, h.version_eq, h.author_eq,
    Json.set_key]
  rfl

/-- A document that cannot have members stays as it is. -/
theorem writeOrKeep_eq_self (h : m.AtMembers name version author) (e : Entry)
    (hobject : ∀ members, document ≠ .object members) (hnull : document ≠ .null) :
    m.writeOrKeep document (fieldsOf e) = document := by
  simp only [writeOrKeep, fieldsOf, writeAll, Metadata.set, h.name_eq]
  cases document with
  | null => exact absurd rfl hnull
  | object members => exact absurd rfl (hobject members)
  | _ => rfl

end Metadata.AtMembers

/-! ## What is made of a document -/

namespace Session

variable {σ : Type} {session : Session σ} {name version author : String} {e : Entry}
  {document normal : Json}

/-- The document that a flush makes for an entry where no rule hides anything. -/
def make (session : Session σ) (e : Entry) (document : Json) : Option Json :=
  (document.normalize session.order).map fun d => session.metadata.writeOrKeep d (fieldsOf e)

theorem clean_of_no_rules (h : session.rules = .empty) (document : Json) (state : σ) :
    (session.clean document state).1 = document.normalize session.order := by
  rw [clean, h]
  rfl

theorem make_of_normalize (h : document.normalize session.order = some normal) (e : Entry) :
    session.make e document = some (session.metadata.writeOrKeep normal (fieldsOf e)) := by
  rw [make, h, Option.map_some]

section

variable (h : session.metadata.AtMembers name version author)
  (horder : session.order.WellFormed)
include h horder

/-- Of members into which metadata were written, the others are normalized to what they were. -/
theorem exists_normalize_inscribe (e : Entry) {members : List (String × Json)}
    (hsolid : Json.Solid (.object members)) (hd : Json.WellFormed (.object members)) :
    ∃ kept, Json.normalize session.order (.object (e.inscribe name version author members)) =
        some (.object kept) ∧ Json.WellFormed (.object kept) ∧
      ∀ other ∉ [name, version, author], Option.Rel SameUpToKeyOrder
        (Members.get? other members) (Members.get? other kept) := by
  have hpruned : Json.WellFormed
      (.object (Json.pruneMembers (e.inscribe name version author members))) :=
    (Entry.wellFormed_inscribe hd).pruneMembers
  obtain ⟨kept, hordered, hkept, hread⟩ := KeyOrder.exists_apply_object horder [] hpruned
  refine ⟨kept, ?_, hkept, fun other hother => ?_⟩
  · rw [Json.normalize, Entry.prune_inscribe h.nodup hd, Option.map_some, hordered]
  · rw [← Entry.get?_pruneMembers_inscribe hother hsolid hd]
    exact hread other

/-- Made of what was made comes the same, up to the order of members. -/
theorem make_make (e : Entry) (hd : document.WellFormed) :
    Option.Rel SameUpToKeyOrder
      (session.make e ((session.make e document).getD .emptyObject)) (session.make e document) := by
  cases hnormal : document.normalize session.order with
  | none =>
      have hmade : session.make e document = none := by rw [make, hnormal, Option.map_none]
      rw [hmade]
      exact .none
  | some normal =>
      have hsolid := Json.solid_of_normalize hnormal
      have hnd := hd.of_normalize horder hnormal
      rw [make_of_normalize hnormal, Option.getD_some]
      by_cases hobject : ∃ members, normal = .object members
      · obtain ⟨members, rfl⟩ := hobject
        obtain ⟨kept, hkept, hkd, hothers⟩ := exists_normalize_inscribe h horder e hsolid hnd
        rw [h.writeOrKeep_object, make_of_normalize hkept, h.writeOrKeep_object]
        exact .some (Entry.inscribe_same hkd hnd fun other hother =>
          Json.rel_symm (hothers other hother))
      · have hnull : normal ≠ .null := by
          rintro rfl
          exact absurd hsolid.root (by simp [Json.isVoid])
        have hkeep := h.writeOrKeep_eq_self e (fun members heq => hobject ⟨members, heq⟩) hnull
        have hself := Json.normalize_eq_self_iff.mpr ⟨hsolid, Json.apply_of_normalize hnormal⟩
        rw [hkeep, make_of_normalize hself, hkeep]
        exact .some (.refl normal)

end

end Session

end Curator
