import Curator.Comparison.Lines

/-! # Unified differences

The changed lines are shown in hunks, with up to three unchanged lines around them.
Changes that are further apart than twice that go into hunks of their own.
-/

namespace Curator.Unified

def context : Nat := 3

variable {α : Type}

def trimFirst : List (Region α) → List (Region α)
  | .same oldAt newAt ts :: rest =>
    let surplus := ts.length - context
    .same (oldAt + surplus) (newAt + surplus) (ts.drop surplus) :: rest
  | regions => regions

def trimLast : List (Region α) → List (Region α)
  | [] => []
  | [.same oldAt newAt ts] => [.same oldAt newAt (ts.take context)]
  | r :: rest => r :: trimLast rest

/-- A hunk shows something only if a line of it changed. -/
def shown : List (Region α) → List (List (Region α))
  | [] => []
  | [.same _ _ _] => []
  | hunk => [hunk]

/-- Splits regions into hunks. `hunk` holds the regions of the first one so far. -/
def splitFrom (hunk : List (Region α)) : List (Region α) → List (List (Region α))
  | [] => shown hunk
  | .same oldAt newAt ts :: rest =>
    if 2 * context < ts.length then
      let skipped := ts.length - context
      (hunk ++ [.same oldAt newAt (ts.take context)]) ::
        splitFrom [.same (oldAt + skipped) (newAt + skipped) (ts.drop skipped)] rest
    else splitFrom (hunk ++ [.same oldAt newAt ts]) rest
  | r :: rest => splitFrom (hunk ++ [r]) rest

def hunks (regions : List (Region α)) : List (List (Region α)) :=
  splitFrom [] (trimLast (trimFirst regions))

/-- The lines of one side that a hunk covers, counted from one. An empty range names the
line before it, and a single line stands without its count. -/
def range (start stop : Nat) : String :=
  let count := stop - start
  if count = 1 then toString (start + 1)
  else if count = 0 then toString start ++ ",0"
  else toString (start + 1) ++ "," ++ toString count

def endsLine (s : String) : Bool :=
  match s.toList.getLast? with
  | some c => c == '\n' || c == '\r'
  | none => false

/-- A line of a hunk after its sign. A last line without an end is marked. -/
def line (sign : String) (content : String) : String :=
  sign ++ content ++ if endsLine content then "" else "\n\\ No newline at end of file\n"

def regionText : Region String → String
  | .same _ _ ts => String.join (ts.map (line " "))
  | .changed _ _ removed added =>
    String.join (removed.map (line "-")) ++ String.join (added.map (line "+"))

def hunkText (hunk : List (Region String)) : String :=
  match hunk.head?, hunk.getLast? with
  | some first, some last =>
    "@@ -" ++ range first.oldStart last.oldStop ++ " +" ++ range first.newStart last.newStop ++
      " @@\n" ++ String.join (hunk.map regionText)
  | _, _ => ""

/-- The difference of the indented texts of two documents. Without a hunk it is empty. -/
def text (old new : Json) : String :=
  let hunks := hunks (Region.compare (Comparison.lines old.pretty) (Comparison.lines new.pretty))
  if hunks.isEmpty then ""
  else "--- stored\n+++ cleaned\n" ++ String.join (hunks.map hunkText)

end Curator.Unified
