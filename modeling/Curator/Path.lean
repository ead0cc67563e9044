import Curator.Slashed

/-! # Paths

A path is a row of names between slashes. It is absolute if a slash comes first. After
the first name, an empty name or a dot stays in place.
-/

namespace Curator.Path

def isIdle (name : List Char) : Bool := name.isEmpty || name == ['.']

def isAbsolute (path : String) : Bool := path.toList.head? == some '/'

/-- Drops the names at the end that stay in place. -/
def trimEnd (names : List (List Char)) : List (List Char) :=
  (names.reverse.dropWhile isIdle).reverse

/-- The path up to its last name, as it is written. The root and the empty path have none. -/
def parent? (path : String) : Option String :=
  match Slashed.split path.toList with
  | [] => none
  | first :: names =>
    match trimEnd names with
    | [] => if first.isEmpty then none else some ""
    | last :: more =>
      let left := trimEnd (last :: more).dropLast
      some (String.ofList
        (if first.isEmpty && left.isEmpty then ['/'] else Slashed.join (first :: left)))

/-- A path as seen from a folder. An absolute path stays as it is. -/
def join (folder path : String) : String :=
  if isAbsolute path || folder.isEmpty then path
  else if folder.toList.getLast? == some '/' then folder ++ path
  else folder ++ "/" ++ path

end Curator.Path
