import Curator.Files
import Curator.Members
import Curator.Path

/-! # Folders in memory

A folder holds files by the paths that lead to them. A folder inside it is there when it
holds a file. Of what lies outside only the enclosing folders are known to be there.
-/

namespace Curator

structure Folder where
  files : List (String × String)

namespace Folder

inductive Place where
  | file (path : String)
  | folder (names : List String)
  | outside

/-- What the names lead to from the folder itself. -/
def find? (f : Folder) (names : List String) : Option Place :=
  let path := String.intercalate "/" names
  if Members.contains path f.files then some (.file path)
  else if f.files.any fun m => (path ++ "/").isPrefixOf m.1 then some (.folder names)
  else none

/-- Follows one name. No name leads on from a file. -/
def step (f : Folder) : Place → List Char → Option Place
  | .file _, _ => none
  | .outside, name => if Path.isIdle name || name == ['.', '.'] then some .outside else none
  | .folder names, name =>
    if Path.isIdle name then some (.folder names)
    else if name == ['.', '.'] then
      some (if names.isEmpty then .outside else .folder names.dropLast)
    else f.find? (names ++ [String.ofList name])

def lead (f : Folder) (path : String) : Option Place :=
  let names := (Slashed.split path.toList).dropLast
  names.foldlM f.step (if Path.isAbsolute path then .outside else .folder [])

def lastName (path : String) : List Char := (Slashed.split path.toList).getLast?.getD []

def locate? (f : Folder) (path : String) : Option Place :=
  if path.isEmpty then none else f.lead path >>= fun place => f.step place (lastName path)

def read? (f : Folder) (path : String) : Option String :=
  match f.locate? path with
  | some (.file path) => Members.get? path f.files
  | _ => none

/-- Puts a text into a file. The file may be new, its folder has to be there. -/
def write? (f : Folder) (path content : String) : Option Folder :=
  let name := lastName path
  if Path.isIdle name || name == ['.', '.'] then none
  else
    match f.lead path with
    | some (.folder names) =>
      let names := names ++ [String.ofList name]
      match f.find? names with
      | some (.folder _) => none
      | _ => some ⟨Members.insert (String.intercalate "/" names) content f.files⟩
    | _ => none

/-- The files of a folder that is the state. -/
def access : Files (StateM Folder) where
  isPresent path := return ((← get).locate? path).isSome
  read? path := return (← get).read? path
  write path content := do
    match (← get).write? path content with
    | some f => set f; return true
    | none => return false

end Folder

end Curator
