import Curator.Proofs.Pointer.Site

/-! # Writing by a pointer

A write that succeeds goes down its pointer step by step. What was written is read back, what
stands apart from it stays, and nothing can be written below a string, a number or a boolean.
-/

namespace Curator

/-! ## Pointers apart from each other -/

namespace Segment

variable {s t : Segment} {name : String}

/-- The text of a step is that of the name which it stands for. -/
theorem token_of_name? (h : s.name? = some name) : s.token = escape name.toList := by
  cases s with
  | key other =>
      cases h
      rfl
  | index i =>
      cases h
      rw [toList_toString, escape_of_plain (plain_of_isPosition (isPosition_ofNat i))]
      rfl
  | wildcard => cases h

/-- Steps that read back are told apart by the names which they stand for. -/
theorem eq_of_name?_eq (hs : reread s = s) (ht : reread t = t) (h : s.name? = t.name?) :
    s = t := by
  cases hname : s.name? with
  | none =>
      rw [hname] at h
      cases s with
      | wildcard => cases t <;> first | rfl | cases h
      | _ => cases hname
  | some name =>
      have htoken : s.token = t.token := by
        rw [token_of_name? hname, token_of_name? (h.symm.trans hname)]
      rw [← hs, ← ht, reread, reread, htoken]

theorem name?_index_inj {i j : Nat} (h : (index i).name? = (index j).name?) : i = j := by
  have htext : toString i = toString j := Option.some.inj h
  have hdigits : Digits.ofNat i = Digits.ofNat j := by
    rw [← toList_toString, htext, toList_toString]
  rw [← Digits.value_ofNat i, hdigits, Digits.value_ofNat]

end Segment

namespace Pointer

open Segment (reread)

variable {p q : Pointer} {s t : Segment}

def names (p : Pointer) : List (Option String) := p.map Segment.name?

@[simp] theorem names_nil : names [] = [] := rfl

@[simp] theorem names_cons (s : Segment) (p : Pointer) : names (s :: p) = s.name? :: names p := rfl

/-- Pointers that read back are told apart by their names. -/
theorem names_prefix_iff (hp : ∀ s ∈ p, reread s = s) (hq : ∀ s ∈ q, reread s = s) :
    p.names <+: q.names ↔ p <+: q := by
  induction p generalizing q with
  | nil => simp
  | cons s rest ih =>
      cases q with
      | nil => simp
      | cons t more =>
          obtain ⟨hs, hrest⟩ := List.forall_mem_cons.mp hp
          obtain ⟨ht, hmore⟩ := List.forall_mem_cons.mp hq
          have hname : s.name? = t.name? ↔ s = t :=
            ⟨Segment.eq_of_name?_eq hs ht, congrArg Segment.name?⟩
          rw [names_cons, names_cons, List.cons_prefix_cons, List.cons_prefix_cons, hname,
            ih hrest hmore]

/-- Neither pointer leads to or through the place of the other. -/
structure Apart (p q : Pointer) : Prop where
  not_prefix : ¬ p.names <+: q.names
  not_prefix' : ¬ q.names <+: p.names

/-- Pointers that read back are apart unless one leads through the place of the other. -/
theorem apart_of_not_prefix (hp : ∀ s ∈ p, reread s = s) (hq : ∀ s ∈ q, reread s = s)
    (hpq : ¬ p <+: q) (hqp : ¬ q <+: p) : Apart p q :=
  ⟨(names_prefix_iff hp hq).not.mpr hpq, (names_prefix_iff hq hp).not.mpr hqp⟩

theorem apart_cons_iff : Apart (s :: p) (t :: q) ↔ (s.name? = t.name? → Apart p q) := by
  constructor
  · intro h hname
    exact ⟨fun hpq => h.1 (List.cons_prefix_cons.mpr ⟨hname, hpq⟩),
      fun hqp => h.2 (List.cons_prefix_cons.mpr ⟨hname.symm, hqp⟩)⟩
  · intro h
    constructor
    · intro hpq
      obtain ⟨hname, hpq⟩ := List.cons_prefix_cons.mp hpq
      exact (h hname).1 hpq
    · intro hqp
      obtain ⟨hname, hqp⟩ := List.cons_prefix_cons.mp hqp
      exact (h hname.symm).2 hqp

theorem not_apart_nil (p : Pointer) : ¬ Apart p [] := fun h => h.2 List.nil_prefix

theorem Apart.exists_cons (h : Apart p q) : ∃ t more, q = t :: more := by
  cases q with
  | nil => exact absurd h (not_apart_nil p)
  | cons t more => exact ⟨t, more, rfl⟩

end Pointer

namespace Json

open Pointer (Apart)

variable {new value written found : Json} {p q : Pointer} {s t : Segment}

/-! ## One step -/

theorem get?_append (value : Json) (p q : Pointer) :
    value.get? (p ++ q) = (value.get? p).bind (·.get? q) := by
  induction p generalizing value with
  | nil => rfl
  | cons s rest ih =>
      rw [List.cons_append, get?, get?, Option.bind_assoc]
      exact congrArg (Option.bind _) (funext ih)

theorem get?_emptyObject_cons (s : Segment) (q : Pointer) : emptyObject.get? (s :: q) = none := by
  cases s <;> rfl

theorem get?_null_cons (s : Segment) (q : Pointer) : null.get? (s :: q) = none := by
  cases s <;> rfl

theorem child?_insert_of_ne {name : String} (hs : s.name? = some name) (h : s.name? ≠ t.name?)
    (members : List (String × Json)) :
    child? (.object (Members.insert name new members)) t = child? (.object members) t := by
  cases ht : t.name? with
  | none => cases t <;> first | rfl | cases ht
  | some other =>
      have hne : other ≠ name := by
        rintro rfl
        exact h (hs.trans ht.symm)
      rw [child?_object ht, child?_object ht, Members.get?_insert_of_ne hne]

theorem getElem?_pastEnd_of_ne {items : List Json} {j : Nat} (new : Json) (h : j ≠ items.length) :
    (items ++ [new])[j]? = items[j]? := by
  rw [List.getElem?_append]
  split
  · rfl
  · rw [List.getElem?_eq_none (by simp; omega), List.getElem?_eq_none (by omega)]

theorem get?_insert_self {name : String} (hs : s.name? = some name)
    (members : List (String × Json)) (inner : Json) (q : Pointer) :
    (object (Members.insert name inner members)).get? (s :: q) = inner.get? q := by
  rw [get?, child?_object hs, Members.get?_insert_self, Option.bind_some]

theorem get?_set_self {items : List Json} {i : Nat} (hi : items[i]? = some found) (inner : Json)
    (q : Pointer) : (array (items.set i inner)).get? (.index i :: q) = inner.get? q := by
  have hlt : i < items.length := (List.getElem?_eq_some_iff.mp hi).choose
  rw [get?, child?, List.getElem?_set_self hlt, Option.bind_some]

theorem get?_set_of_ne {i j : Nat} (h : i ≠ j) (items : List Json) (inner : Json) (q : Pointer) :
    (array (items.set i inner)).get? (.index j :: q) = (array items).get? (.index j :: q) := by
  rw [get?, get?, child?, child?, List.getElem?_set_ne h]

theorem get?_pastEnd (items : List Json) (new : Json) (q : Pointer) :
    (array (items ++ [new])).get? (.index items.length :: q) = new.get? q := by
  rw [get?, child?, List.getElem?_concat_length, Option.bind_some]

/-- What an array leads to, it leads to by a position. -/
theorem exists_index_of_get? {items : List Json} (h : (array items).get? (s :: q) = some found) :
    ∃ j item, s = .index j ∧ items[j]? = some item ∧ item.get? q = some found := by
  obtain ⟨item, hchild, hitem⟩ := Option.bind_eq_some_iff.mp h
  cases s with
  | index j => exact ⟨j, item, rfl, hchild, hitem⟩
  | _ => cases hchild

/-! ## A write, step by step -/

/-- What a write makes of a value, by the steps of its pointer. -/
inductive Sets (new : Json) : Pointer → Json → Json → Prop where
  | here (value : Json) : Sets new [] value new
  | member {s : Segment} {name : String} {rest : Pointer} {members : List (String × Json)}
      {inner : Json} (hs : s.name? = some name)
      (h : Sets new rest ((Members.get? name members).getD .emptyObject) inner) :
      Sets new (s :: rest) (.object members) (.object (Members.insert name inner members))
  | opened {name : String} {rest : Pointer} {written : Json}
      (h : Sets new (.key name :: rest) .emptyObject written) :
      Sets new (.key name :: rest) .null written
  | item {i : Nat} {rest : Pointer} {items : List Json} {item inner : Json}
      (hi : items[i]? = some item) (h : Sets new rest item inner) :
      Sets new (.index i :: rest) (.array items) (.array (items.set i inner))
  | pastEnd (items : List Json) :
      Sets new [.index items.length] (.array items) (.array (items ++ [new]))

theorem sets_of_assign (h : Pointer.assign value s new = .ok written) :
    Sets new [s] value written := by
  unfold Pointer.assign Pointer.opened at h
  cases value with
  | null =>
      cases s with
      | key name =>
          cases h
          exact .opened (.member rfl (.here _))
      | _ => cases h
  | array items =>
      cases s with
      | index i =>
          dsimp only at h
          split at h
          · next hlt =>
              cases h
              exact .item (List.getElem?_eq_getElem hlt) (.here _)
          · split at h
            · next heq =>
                cases h
                subst heq
                exact .pastEnd items
            · cases h
      | _ => cases h
  | object members =>
      cases s with
      | key name =>
          cases h
          exact .member rfl (.here _)
      | index i =>
          cases h
          exact .member rfl (.here _)
      | wildcard => cases h
  | _ => cases s <;> cases h

theorem sets_of_write {last : Segment} {parents : Pointer}
    (h : Pointer.write last new value parents = .ok written) :
    Sets new (parents ++ [last]) value written := by
  induction parents generalizing value written with
  | nil => exact sets_of_assign h
  | cons s rest ih =>
      rw [Pointer.write] at h
      obtain ⟨start, hstart, h⟩ := bind_eq_ok_iff.mp h
      obtain ⟨inner, hinner, h⟩ := bind_eq_ok_iff.mp h
      cases h
      have hbelow := ih hinner
      unfold Pointer.opened Pointer.descend at *
      cases value with
      | null =>
          cases s with
          | key name =>
              cases hstart
              exact .opened (.member rfl hbelow)
          | _ => cases hstart
      | array items =>
          cases s with
          | index i =>
              dsimp only at hstart
              split at hstart
              · next hi =>
                  cases hstart
                  exact .item hi hbelow
              · cases hstart
          | _ => cases hstart
      | object members =>
          cases s with
          | key name =>
              cases hstart
              exact .member rfl hbelow
          | index i =>
              cases hstart
              exact .member rfl hbelow
          | wildcard => cases hstart
      | _ => cases s <;> cases hstart

theorem sets_of_set (h : value.set p new = .ok written) : Sets new p value written := by
  rcases List.eq_nil_or_concat p with rfl | ⟨parents, last, rfl⟩
  · cases h
    exact .here value
  · rw [List.concat_eq_append] at h ⊢
    obtain ⟨-, -, hwrite⟩ := set_append_singleton_eq_ok_iff.mp h
    exact sets_of_write hwrite

namespace Sets

/-- A write that goes on writes a member, an item or past the end. Where there is nothing yet, an
object is opened. -/
theorem cons_cases {rest : Pointer} (h : Sets new (s :: rest) value written) :
    (∃ name members inner, s.name? = some name ∧
      (value = .object members ∨ value = .null ∧ members = []) ∧
      Sets new rest ((Members.get? name members).getD .emptyObject) inner ∧
      written = .object (Members.insert name inner members)) ∨
    (∃ i items item inner, s = .index i ∧ value = .array items ∧ items[i]? = some item ∧
      Sets new rest item inner ∧ written = .array (items.set i inner)) ∨
    ∃ items, s = .index items.length ∧ rest = [] ∧ value = .array items ∧
      written = .array (items ++ [new]) := by
  cases h with
  | member hs h => exact .inl ⟨_, _, _, hs, .inl rfl, h, rfl⟩
  | opened h =>
      cases h with
      | member hs h => exact .inl ⟨_, [], _, hs, .inr ⟨rfl, rfl⟩, h, rfl⟩
  | item hi h => exact .inr (.inl ⟨_, _, _, _, rfl, rfl, hi, h, rfl⟩)
  | pastEnd items => exact .inr (.inr ⟨items, rfl, rfl, rfl, rfl⟩)

/-! ## Reading after a write -/

theorem get?_self (h : Sets new p value written) : written.get? p = some new := by
  induction h with
  | here value => rfl
  | member hs h ih => rw [get?_insert_self hs, ih]
  | opened h ih => exact ih
  | item hi h ih => rw [get?_set_self hi, ih]
  | pastEnd items => exact get?_pastEnd items new []

/-- A write does not show apart from its place. -/
theorem get?_of_apart (h : Sets new p value written) (hpq : Apart p q) :
    written.get? q = value.get? q := by
  obtain ⟨t, more, rfl⟩ := hpq.exists_cons
  induction h generalizing t more with
  | here value => exact absurd List.nil_prefix hpq.1
  | @member s name rest members inner hs h ih =>
      by_cases hname : s.name? = t.name?
      · have hbelow := Pointer.apart_cons_iff.mp hpq hname
        obtain ⟨u, after, rfl⟩ := hbelow.exists_cons
        have ht := hname.symm.trans hs
        have hbefore : (object members).get? (t :: u :: after) =
            (Members.get? name members).bind (·.get? (u :: after)) := by
          rw [get?, child?_object ht]
        rw [get?_insert_self ht, ih u after hbelow, hbefore]
        cases Members.get? name members with
        | some found => rfl
        | none => exact get?_emptyObject_cons u after
      · rw [get?, get?, child?_insert_of_ne hs hname]
  | opened h ih => rw [ih t more hpq, get?_emptyObject_cons, get?_null_cons]
  | @item i rest items item inner hi h ih =>
      cases t with
      | index j =>
          by_cases hij : i = j
          · subst hij
            have hbelow := Pointer.apart_cons_iff.mp hpq rfl
            obtain ⟨u, after, rfl⟩ := hbelow.exists_cons
            have hbefore :
                (array items).get? (.index i :: u :: after) = item.get? (u :: after) := by
              rw [get?, child?, hi, Option.bind_some]
            rw [get?_set_self hi, ih u after hbelow, hbefore]
          · exact get?_set_of_ne hij items inner more
      | _ => rfl
  | pastEnd items =>
      cases t with
      | index j =>
          have hj : j ≠ items.length := by
            rintro rfl
            exact (Pointer.apart_cons_iff.mp hpq rfl).1 List.nil_prefix
          rw [get?, get?, child?, child?, getElem?_pastEnd_of_ne new hj]
      | _ => rfl

/-- Reading after a write, by a pointer that takes the same step, goes on in the part that was
written. -/
theorem exists_written {rest more : Pointer} (h : Sets new (s :: rest) value written)
    (hname : s.name? = t.name?) (hfound : written.get? (t :: more) = some found) :
    ∃ before inner, Sets new rest before inner ∧ inner.get? more = some found := by
  obtain ⟨_, _, inner, hs, -, hinner, rfl⟩ | ⟨i, _, item, inner, rfl, rfl, hi, hinner, rfl⟩ |
    ⟨items, rfl, rfl, rfl, rfl⟩ := h.cons_cases
  · rw [get?_insert_self (hname.symm.trans hs)] at hfound
    exact ⟨_, inner, hinner, hfound⟩
  · obtain ⟨j, _, rfl, -, -⟩ := exists_index_of_get? hfound
    obtain rfl := Segment.name?_index_inj hname
    rw [get?_set_self hi] at hfound
    exact ⟨item, inner, hinner, hfound⟩
  · obtain ⟨j, _, rfl, -, -⟩ := exists_index_of_get? hfound
    obtain rfl := Segment.name?_index_inj hname
    rw [get?_pastEnd] at hfound
    exact ⟨.null, new, .here .null, hfound⟩

/-- Below the place of a write stands what was written. -/
theorem exists_get?_of_below (h : Sets new p value written) (hpq : p.names <+: q.names)
    (hfound : written.get? q = some found) :
    ∃ rest : Pointer, q.names = p.names ++ rest.names ∧ new.get? rest = some found := by
  induction p generalizing q value written with
  | nil =>
      cases h
      exact ⟨q, rfl, hfound⟩
  | cons s rest ih =>
      cases q with
      | nil => simp at hpq
      | cons t more =>
          obtain ⟨hname, hmore⟩ := List.cons_prefix_cons.mp hpq
          obtain ⟨before, inner, hinner, hread⟩ := h.exists_written hname hfound
          obtain ⟨below, hnames, hread⟩ := ih hinner hmore hread
          exact ⟨below, by simp [hname, hnames], hread⟩

/-- What stands above the place of a write was itself written into. -/
theorem exists_sets_of_above (h : Sets new p value written) (hqp : q.names <+: p.names)
    (hfound : written.get? q = some found) :
    ∃ (rest : Pointer) (before : Json), p.names = q.names ++ rest.names ∧
      Sets new rest before found := by
  induction q generalizing p value written with
  | nil =>
      cases hfound
      exact ⟨p, value, rfl, h⟩
  | cons t more ih =>
      cases p with
      | nil => simp at hqp
      | cons s rest =>
          obtain ⟨hname, hmore⟩ := List.cons_prefix_cons.mp hqp
          obtain ⟨before, inner, hinner, hread⟩ := h.exists_written hname.symm hfound
          obtain ⟨below, start, hnames, hsets⟩ := ih hinner hmore hread
          exact ⟨below, start, by simp [hname, hnames], hsets⟩

/-- A write further down is a write in the value that stands on its way. -/
theorem exists_of_get? (h : Sets new (p ++ q) value written) (hfound : value.get? p = some found) :
    ∃ inner, Sets new q found inner := by
  induction p generalizing value written with
  | nil =>
      cases hfound
      exact ⟨written, h⟩
  | cons s rest ih =>
      obtain ⟨start, hstart, hrest⟩ := Option.bind_eq_some_iff.mp hfound
      generalize hpath : s :: rest ++ q = path at h
      cases h with
      | here => cases hpath
      | member hs h =>
          cases hpath
          rw [child?_object hs] at hstart
          rw [hstart, Option.getD_some] at h
          exact ih h hrest
      | opened h =>
          cases hpath
          cases hstart
      | item hi h =>
          cases hpath
          cases hi.symm.trans hstart
          exact ih h hrest
      | pastEnd items =>
          -- no value stands there yet
          obtain ⟨rfl, -⟩ := List.cons.inj hpath
          simp [child?] at hstart

end Sets

/-! ## Values without parts -/

/-- A value below which nothing is read and nothing can be written. -/
def Terminal : Json → Prop
  | .bool _ => True
  | .number _ => True
  | .string _ => True
  | _ => False

theorem terminal_iff :
    found.Terminal ↔ found.kind = .boolean ∨ found.kind = .number ∨ found.kind = .string := by
  cases found <;> simp [Terminal, kind]

theorem Terminal.get?_cons (h : found.Terminal) (s : Segment) (q : Pointer) :
    found.get? (s :: q) = none := by
  cases found with
  | bool b => cases s <;> rfl
  | number n => cases s <;> rfl
  | string text => cases s <;> rfl
  | _ => exact h.elim

theorem Terminal.not_sets_cons (h : found.Terminal) : ¬ Sets new (s :: q) found written := by
  intro hsets
  cases hsets <;> exact h

/-- Nothing is read below such a value. -/
theorem Terminal.eq_of_prefix {other : Json} (h : found.Terminal) (hp : value.get? p = some found)
    (hq : value.get? q = some other) (hpq : p <+: q) : p = q ∧ found = other := by
  obtain ⟨rest, rfl⟩ := hpq
  rw [get?_append, hp, Option.bind_some] at hq
  cases rest with
  | nil =>
      cases hq
      exact ⟨(List.append_nil p).symm, rfl⟩
  | cons s rest =>
      rw [h.get?_cons] at hq
      cases hq

/-- A write keeps such a value, unless its pointer leads to the place or above it. -/
theorem Sets.get?_of_terminal (h : Sets new q value written) (hp : value.get? p = some found)
    (hfound : found.Terminal) (hreadp : ∀ s ∈ p, Segment.reread s = s)
    (hreadq : ∀ s ∈ q, Segment.reread s = s) (hqp : ¬ q <+: p) : written.get? p = some found := by
  by_cases hpq : p <+: q
  · -- the write would go below the value
    obtain ⟨rest, rfl⟩ := hpq
    cases rest with
    | nil =>
        rw [List.append_nil] at hqp
        exact absurd List.prefix_rfl hqp
    | cons s rest =>
        obtain ⟨inner, hinner⟩ := h.exists_of_get? hp
        exact absurd hinner hfound.not_sets_cons
  · rw [← Pointer.names_prefix_iff hreadp hreadq] at hpq
    rw [← Pointer.names_prefix_iff hreadq hreadp] at hqp
    rw [h.get?_of_apart ⟨hqp, hpq⟩, hp]

end Json

end Curator
