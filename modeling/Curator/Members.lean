/-! # Members of an object

An object is a list of named values in the order in which the names first came.
Writing a present name keeps its place, writing a new one appends it, and erasing
one closes the gap.
-/

namespace Curator.Members

variable {α : Type}

def get? (name : String) : List (String × α) → Option α
  | [] => none
  | (key, value) :: rest => if key = name then some value else get? name rest

def contains (name : String) (members : List (String × α)) : Bool := (get? name members).isSome

def insert (name : String) (value : α) : List (String × α) → List (String × α)
  | [] => [(name, value)]
  | (key, old) :: rest =>
    if key = name then (key, value) :: rest else (key, old) :: insert name value rest

def erase (name : String) : List (String × α) → List (String × α)
  | [] => []
  | (key, value) :: rest => if key = name then rest else (key, value) :: erase name rest

/-- The members that a sequence of writes leaves. -/
def ofList (writes : List (String × α)) : List (String × α) :=
  writes.foldl (fun members (name, value) => insert name value members) []

def keys (members : List (String × α)) : List String := members.map Prod.fst

def Distinct (members : List (String × α)) : Prop := (keys members).Nodup

@[simp] theorem get?_insert_self (name : String) (value : α) (members : List (String × α)) :
    get? name (insert name value members) = some value := by
  induction members with
  | nil => simp [insert, get?]
  | cons m rest ih =>
    obtain ⟨key, old⟩ := m
    by_cases h : key = name <;> simp [insert, get?, h, ih]

theorem get?_insert_of_ne {name other : String} (h : other ≠ name) (value : α)
    (members : List (String × α)) :
    get? other (insert name value members) = get? other members := by
  induction members with
  | nil => simp [insert, get?, Ne.symm h]
  | cons m rest ih =>
    obtain ⟨key, old⟩ := m
    by_cases hk : key = name
    · subst hk; simp [insert, get?, Ne.symm h]
    · simp [insert, get?, hk, ih]

end Curator.Members
