import Curator.Comparison.Change
import Curator.Comparison.Region
import Curator.Json.Printer

/-! # Comparisons of documents and of texts

A comparison lists the changes and says how similar both sides are. Documents are as
similar as the characters of their compact texts, and texts as their lines.
-/

namespace Curator

/-- The changes from one side to the other, and the share of what both have in common. -/
structure Comparison where
  changes : List Change
  similarity : Binary64

namespace Comparison

def isEquivalent (c : Comparison) : Bool := c.changes.isEmpty

def one : Binary64 := diceRatio 1 2

def equivalent : Comparison := ⟨[], one⟩

def share {α : Type} (old new : List α) (regions : List (Region α)) : Binary64 :=
  diceRatio (Region.sameCount regions) (old.length + new.length)

def documentSimilarity (old new : Json) : Binary64 :=
  if old.equal new then one
  else
    let old := old.compact.toList
    let new := new.compact.toList
    share old new (Region.compare old new)

def ofDocuments (old new : Json) : Comparison :=
  ⟨Change.between 0 [] old new, documentSimilarity old new⟩

/-- Compares documents that may be absent. An absent one counts as null. -/
def ofOptional (old new : Option Json) : Comparison :=
  if old.isNone && new.isNone then equivalent
  else ofDocuments (old.getD .null) (new.getD .null)

/-- The lines of a text with their ends: a line feed, a carriage return or both. `line`
holds the characters of the first line so far, last first. -/
def linesFrom (line : List Char) : List Char → List String
  | [] => if line.isEmpty then [] else [String.ofList line.reverse]
  | '\r' :: '\n' :: rest => String.ofList (line.reverse ++ ['\r', '\n']) :: linesFrom [] rest
  | '\r' :: rest => String.ofList (line.reverse ++ ['\r']) :: linesFrom [] rest
  | '\n' :: rest => String.ofList (line.reverse ++ ['\n']) :: linesFrom [] rest
  | c :: rest => linesFrom (c :: line) rest

def lines (text : String) : List String := linesFrom [] text.toList

/-- The lines of a region that changed, the removed ones first. -/
def lineChanges : Region String → List Change
  | .same _ _ _ => []
  | .changed _ _ removed added => removed.map .lineRemoved ++ added.map .lineAdded

def ofTexts (old new : String) : Comparison :=
  if old = new then equivalent
  else
    let oldLines := lines old
    let newLines := lines new
    let regions := Region.compare oldLines newLines
    ⟨regions.flatMap lineChanges, share oldLines newLines regions⟩

def toJson (c : Comparison) : Json :=
  .object [("is_equivalent", .bool c.isEquivalent),
    ("changes", .array (c.changes.map Change.toJson)),
    ("similarity", .number (.float c.similarity))]

end Comparison

end Curator
