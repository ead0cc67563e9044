import Curator.Proofs.Json.Without
import Curator.Proofs.Pointer.Removing

/-! # Pointers of names

A pointer of names goes through no array. Nothing that is taken out makes it lead anywhere new, and
what it leads to only changes by a removal at its place or above or below it.
-/

namespace Curator

/-- The pointer has no positions and no wildcards. -/
def Pointer.ByName (p : Pointer) : Prop := ∀ s ∈ p, ∃ name, s = .key name

namespace Pointer

variable {p : Pointer} {s : Segment}

theorem byName_cons_iff : ByName (s :: p) ↔ (∃ name, s = .key name) ∧ ByName p :=
  List.forall_mem_cons

theorem ByName.wildcards_eq_nil (h : p.ByName) : p.wildcards = [] := by
  refine Pointer.wildcards_eq_nil fun s hs => ?_
  obtain ⟨name, rfl⟩ := h s hs
  rfl

end Pointer

namespace Json

variable {a b value inner found left : Json} {name : String} {items : List Json}
  {p q container : Pointer}

theorem get?_array_of_byName (hq : q.ByName) (hne : q ≠ []) (items : List Json) :
    (Json.array items).get? q = none := by
  cases q with
  | nil => exact absurd rfl hne
  | cons s rest =>
      obtain ⟨⟨name, rfl⟩, -⟩ := Pointer.byName_cons_iff.mp hq
      rfl

/-! ## Nothing new is read -/

theorem Without.exists_member (h : Without a b) (ha : a.WellFormed)
    (hb : b.child? (.key name) = some inner) :
    ∃ before, a.child? (.key name) = some before ∧ Without before inner := by
  induction h generalizing inner with
  | refl => exact ⟨inner, hb, .refl inner⟩
  | trans h _ ih ih' =>
      obtain ⟨mid, hmid, hinner⟩ := ih' (h.wellFormed ha) hb
      obtain ⟨before, hbefore, hmid⟩ := ih ha hmid
      exact ⟨before, hbefore, hmid.trans hinner⟩
  | dropItem => cases hb
  | dropMember front rest m =>
      have hsublist := (List.sublist_cons_self m rest).append_left front
      have hmem := hsublist.subset (Members.mem_of_get? hb)
      exact ⟨inner, Members.get?_of_mem ha.distinct hmem, .refl inner⟩
  | item => cases hb
  | @member front rest other x y hxy _ =>
      have hfront : other ∉ Members.keys front := ha.distinct.not_mem.1
      by_cases hname : other = name
      · -- the member that lost a part
        subst hname
        have hy : child? (.object (front ++ (other, y) :: rest)) (.key other) = some y :=
          Members.get?_append_cons hfront
        have hx : child? (.object (front ++ (other, x) :: rest)) (.key other) = some x :=
          Members.get?_append_cons hfront
        rw [hy] at hb
        cases hb
        exact ⟨x, hx, hxy⟩
      · refine ⟨inner, ?_, .refl inner⟩
        simpa [child?, Members.get?_append, Members.get?, hname] using hb

/-- A pointer of names leads somewhere only if it did before. -/
theorem Without.exists_get? (h : Without a b) (ha : a.WellFormed) (hp : p.ByName)
    (hb : b.get? p = some found) : ∃ before, a.get? p = some before ∧ Without before found := by
  induction p generalizing a b with
  | nil =>
      cases hb
      exact ⟨a, rfl, h⟩
  | cons s rest ih =>
      obtain ⟨⟨name, rfl⟩, hrest⟩ := Pointer.byName_cons_iff.mp hp
      obtain ⟨inner, hinner, hfound⟩ := Option.bind_eq_some_iff.mp hb
      obtain ⟨mid, hmid, hwithout⟩ := h.exists_member ha hinner
      obtain ⟨before, hbefore, hfound⟩ := ih hwithout (ha.of_child? hmid) hrest hfound
      exact ⟨before, by rw [get?, hmid, Option.bind_some, hbefore], hfound⟩

theorem Without.get?_eq_none (h : Without a b) (ha : a.WellFormed) (hp : p.ByName)
    (hnone : a.get? p = none) : b.get? p = none := by
  by_contra hsome
  obtain ⟨found, hfound⟩ := Option.ne_none_iff_exists'.mp hsome
  obtain ⟨before, hbefore, -⟩ := h.exists_get? ha hp hfound
  simp [hnone] at hbefore

/-! ## Removing -/

/-- What a pointer of names leads to is gone once it is removed. -/
theorem get?_removeInPlace_self (hp : p.ByName) (hne : p ≠ []) (hv : value.WellFormed) :
    (value.removeInPlace p).1.get? p = none := by
  cases hread : value.get? p with
  | none =>
      rw [removeInPlace_of_get?_eq_none hread]
      exact hread
  | some found =>
      obtain ⟨parents, last, rfl⟩ := List.eq_nil_or_concat p |>.resolve_left hne
      rw [List.concat_eq_append] at *
      obtain ⟨name, rfl⟩ := hp last (by simp)
      have hfound : (value.removeInPlace (parents ++ [.key name])).2 = some found :=
        snd_removeInPlace_eq_some_iff.mpr ⟨hne, hread⟩
      have hremove := remove?_eq_map value (parents ++ [.key name])
      rw [hfound, Option.map_some] at hremove
      obtain ⟨container, below, hcontainer, hbelow, -⟩ := exists_of_remove? hremove
      rcases removeChild?_cases hbelow with ⟨_, _, _, -, -, rfl, -⟩ | ⟨_, _, hlast, -, -⟩
      · exact get?_eq_none_of_remove? hv hremove hcontainer
      · cases hlast

/-- What a pointer of names leads to stays when something is removed elsewhere. In the container of
what is removed, this is another member. -/
theorem get?_removeInPlace_of_not_prefix (hq : q.ByName) (hreadp : ∀ s ∈ p, Segment.reread s = s)
    (hreadq : ∀ s ∈ q, Segment.reread s = s) (hpq : ¬ p <+: q) (hqp : ¬ q <+: p) :
    (value.removeInPlace p).1.get? q = value.get? q := by
  have hne : p ≠ [] := fun h => hpq (h ▸ List.nil_prefix)
  obtain ⟨parents, last, rfl⟩ := List.eq_nil_or_concat p |>.resolve_left hne
  rw [List.concat_eq_append] at *
  cases hfound : (value.removeInPlace (parents ++ [last])).2 with
  | none => rw [fst_removeInPlace_of_none hfound]
  | some found =>
      have hremove := remove?_eq_map value (parents ++ [last])
      rw [hfound, Option.map_some] at hremove
      generalize (value.removeInPlace (parents ++ [last])).1 = left at hremove
      by_cases hparents : parents <+: q
      · obtain ⟨below, rfl⟩ := hparents
        have hbelow : below ≠ [] := by
          rintro rfl
          exact hqp (by simp)
        rw [get?_append, get?_append]
        obtain ⟨container, lost, hcontainer, hlost, -⟩ := exists_of_remove? hremove
        rcases removeChild?_cases hlost with ⟨_, _, _, -, -, rfl, -⟩ | ⟨_, _, -, rfl, -⟩
        · obtain ⟨name, before, after, hname, heq, hleft⟩ :=
            exists_member_of_remove? hremove hcontainer
          obtain ⟨t, more, rfl⟩ := List.exists_cons_of_ne_nil hbelow
          obtain ⟨key, rfl⟩ := hq t (by simp)
          have hother : name ≠ key := by
            rintro rfl
            have hlast : last = .key name := Segment.eq_of_name?_eq (hreadp last (by simp))
              (hreadq _ (by simp)) hname
            exact hpq (by simp [hlast])
          rw [hleft, hcontainer, heq]
          simp [get?, child?, Members.get?_append, Members.get?, hother]
        · obtain ⟨before, after, -, -, hleft⟩ := exists_item_of_remove? hremove hcontainer
          have hnames : Pointer.ByName below := fun t ht => hq t (List.mem_append_right _ ht)
          simp only [hleft, hcontainer, Option.bind_some, get?_array_of_byName hnames hbelow]
      · have hparents' : ¬ q <+: parents := fun h => hqp (h.trans (List.prefix_append _ _))
        obtain ⟨below, hsets⟩ := sets_of_remove? hremove
        have hread : ∀ s ∈ parents, Segment.reread s = s := fun s hs =>
          hreadp s (List.mem_append_left _ hs)
        exact hsets.get?_of_apart (Pointer.apart_of_not_prefix hread hreadq hparents hparents')

/-- A pointer of names does not see what items an array has. -/
theorem get?_plug_array (site : Site container) (hq : q.ByName)
    (hreadc : ∀ s ∈ container, Segment.reread s = s) (hreadq : ∀ s ∈ q, Segment.reread s = s)
    (hqc : ¬ q <+: container) (items others : List Json) :
    (site.plug (.array others)).get? q = (site.plug (.array items)).get? q := by
  by_cases hcq : container <+: q
  · obtain ⟨below, rfl⟩ := hcq
    have hne : below ≠ [] := by
      rintro rfl
      exact hqc (by simp)
    have hnames : Pointer.ByName below := fun t ht => hq t (List.mem_append_right _ ht)
    rw [site.get?_plug, site.get?_plug, get?_array_of_byName hnames hne,
      get?_array_of_byName hnames hne]
  · have hsets := sets_of_set (set_of_replace? (replace?_plug site (.array items) (.array others)))
    exact hsets.get?_of_apart (Pointer.apart_of_not_prefix hreadc hreadq hcq hqc)

end Json

end Curator
