import Curator.Comparison.Lines
import Curator.Proofs.Comparison.Script

/-! # Changes of lines

A text is the row of its lines, each with its end. The changes between two texts, taken in order
with the lines that stay between them, lead from the lines of the one to the lines of the other,
whatever script was found; so what stays of the one text is what stays of the other, and there are
no changes just where the texts are the same.
-/

namespace Curator.Comparison

/-! ## Lines -/

/-- What ends a line before the rest of a text: a line feed, with or without a carriage return
before it, or a carriage return that stands alone. -/
inductive LineEnd : List Char → List Char → Prop where
  | feed (rest : List Char) : LineEnd ['\n'] rest
  | both (rest : List Char) : LineEnd ['\r', '\n'] rest
  | alone {rest : List Char} (h : rest.head? ≠ some '\n') : LineEnd ['\r'] rest

def Unbroken (text : List Char) : Prop := ∀ c ∈ text, c ≠ '\r' ∧ c ≠ '\n'

/-- The lines of a text with their ends. What follows the last end is a line if it is not empty. -/
inductive LinesOf : List Char → List String → Prop where
  | nil : LinesOf [] []
  | last {body : List Char} (hne : body ≠ []) (h : Unbroken body) :
      LinesOf body [String.ofList body]
  | line {body ending rest : List Char} {others : List String} (hbody : Unbroken body)
      (hend : LineEnd ending rest) (h : LinesOf rest others) :
      LinesOf (body ++ ending ++ rest) (String.ofList (body ++ ending) :: others)

theorem linesOf_linesFrom {line : List Char} (h : Unbroken line.reverse) (cs : List Char) :
    LinesOf (line.reverse ++ cs) (linesFrom line cs) := by
  fun_induction linesFrom line cs with
  | case1 line hempty =>
      rw [List.isEmpty_iff.mp hempty]
      exact .nil
  | case2 line hne =>
      rw [List.append_nil]
      exact .last (by simpa using hne) h
  | case3 line rest ih => simpa using LinesOf.line h (.both rest) (ih nofun)
  | case4 line rest hnone ih =>
      have halone : rest.head? ≠ some '\n' := by
        intro hhead
        obtain ⟨others, rfl⟩ := List.head?_eq_some_iff.mp hhead
        exact hnone others rfl
      simpa using LinesOf.line h (.alone halone) (ih nofun)
  | case5 line rest ih => simpa using LinesOf.line h (.feed rest) (ih nofun)
  | case6 line c rest _ hreturn hfeed ih =>
      have hlonger : Unbroken (c :: line).reverse := by
        intro d hd
        rw [List.reverse_cons, List.mem_append, List.mem_singleton] at hd
        obtain hd | rfl := hd
        · exact h d hd
        · exact ⟨hreturn, hfeed⟩
      simpa using ih hlonger

theorem linesOf_lines (text : String) : LinesOf text.toList (lines text) := by
  have hnone : Unbroken ([] : List Char).reverse := nofun
  exact linesOf_linesFrom hnone text.toList

theorem LinesOf.join {text : List Char} {ls : List String} (h : LinesOf text ls) :
    String.join ls = String.ofList text := by
  induction h with
  | nil => rfl
  | last hne h => simp
  | line hbody hend h ih => rw [String.join_cons, ih, ← String.ofList_append]

theorem lines_injective {old new : String} (h : lines old = lines new) : old = new := by
  have hold := (linesOf_lines old).join
  have hnew := (linesOf_lines new).join
  rw [h, hnew, String.ofList_toList, String.ofList_toList] at hold
  exact hold.symm

/-! ## Changes in order -/

variable {α : Type} {as bs cs : List α}

/-- Both rows are in the third, in their order, and together they make it up. -/
inductive Interleaves : List α → List α → List α → Prop where
  | nil : Interleaves [] [] []
  | left {as bs cs : List α} (a : α) (h : Interleaves as bs cs) : Interleaves (a :: as) bs (a :: cs)
  | right {as bs cs : List α} (b : α) (h : Interleaves as bs cs) :
      Interleaves as (b :: bs) (b :: cs)

theorem Interleaves.sublist (h : Interleaves as bs cs) : as.Sublist cs := by
  induction h with
  | nil => exact .slnil
  | left a _ ih => exact ih.cons_cons a
  | right b _ ih => exact ih.cons b

variable {changes others : List Change} {old new old' new' : List String}

/-- Changes that are made along a row of lines, between lines that stay, leave another. -/
inductive Rewrites : List Change → List String → List String → Prop where
  | done : Rewrites [] [] []
  | keep {changes : List Change} {old new : List String} (line : String)
      (h : Rewrites changes old new) : Rewrites changes (line :: old) (line :: new)
  | remove {changes : List Change} {old new : List String} (line : String)
      (h : Rewrites changes old new) :
      Rewrites (.lineRemoved line :: changes) (line :: old) new
  | add {changes : List Change} {old new : List String} (line : String)
      (h : Rewrites changes old new) : Rewrites (.lineAdded line :: changes) old (line :: new)

theorem rewrites_nil_self (ls : List String) : Rewrites [] ls ls := by
  induction ls with
  | nil => exact .done
  | cons line rest ih => exact ih.keep line

theorem Rewrites.eq_of_nil (h : Rewrites [] old new) : old = new := by
  generalize hnone : [] = changes at h
  induction h with
  | done => rfl
  | keep line _ ih => rw [ih hnone]
  | remove => cases hnone
  | add => cases hnone

theorem Rewrites.append (h : Rewrites changes old new) (h' : Rewrites others old' new') :
    Rewrites (changes ++ others) (old ++ old') (new ++ new') := by
  induction h with
  | done => exact h'
  | keep line _ ih => exact ih.keep line
  | remove line _ ih => exact ih.remove line
  | add line _ ih => exact ih.add line

theorem rewrites_removed (removed : List String) :
    Rewrites (removed.map .lineRemoved) removed [] := by
  induction removed with
  | nil => exact .done
  | cons line rest ih => exact ih.remove line

theorem rewrites_added (added : List String) : Rewrites (added.map .lineAdded) [] added := by
  induction added with
  | nil => exact .done
  | cons line rest ih => exact ih.add line

theorem rewrites_lineChanges (r : Region String) :
    Rewrites (lineChanges r) r.oldTokens r.newTokens := by
  cases r with
  | same oldAt newAt ts => exact rewrites_nil_self ts
  | changed oldAt newAt removed added =>
      have hboth := (rewrites_removed removed).append (rewrites_added added)
      rwa [List.append_nil, List.nil_append] at hboth

theorem rewrites_regions (regions : List (Region String)) :
    Rewrites (regions.flatMap lineChanges) (regions.flatMap Region.oldTokens)
      (regions.flatMap Region.newTokens) := by
  induction regions with
  | nil => exact .done
  | cons r rest ih => exact (rewrites_lineChanges r).append ih

theorem rewrites_ofTexts (old new : String) :
    Rewrites (ofTexts old new).changes (lines old) (lines new) := by
  unfold ofTexts
  split
  · next heq =>
      rw [heq]
      exact rewrites_nil_self (lines new)
  · obtain ⟨hold, hnew⟩ := Region.covers_compare (lines old) (lines new)
    have hregions := rewrites_regions (Region.compare (lines old) (lines new))
    rw [hold, hnew] at hregions
    dsimp only
    exact hregions

theorem isEquivalent_ofTexts_iff {old new : String} :
    (ofTexts old new).isEquivalent = true ↔ old = new := by
  constructor
  · intro h
    have hrewrites := rewrites_ofTexts old new
    rw [List.isEmpty_iff.mp h] at hrewrites
    exact lines_injective hrewrites.eq_of_nil
  · intro h
    rw [ofTexts, if_pos h]
    rfl

/-! ## What is removed and what is added -/

def removedLines (changes : List Change) : List String :=
  changes.filterMap fun
    | .lineRemoved line => some line
    | _ => none

def addedLines (changes : List Change) : List String :=
  changes.filterMap fun
    | .lineAdded line => some line
    | _ => none

theorem Rewrites.exists_kept (h : Rewrites changes old new) :
    ∃ kept, Interleaves (removedLines changes) kept old ∧
      Interleaves (addedLines changes) kept new := by
  induction h with
  | done => exact ⟨[], .nil, .nil⟩
  | keep line _ ih =>
      obtain ⟨kept, hold, hnew⟩ := ih
      exact ⟨line :: kept, hold.right line, hnew.right line⟩
  | remove line _ ih =>
      obtain ⟨kept, hold, hnew⟩ := ih
      exact ⟨kept, hold.left line, hnew⟩
  | add line _ ih =>
      obtain ⟨kept, hold, hnew⟩ := ih
      exact ⟨kept, hold, hnew.left line⟩

/-- Two texts are equivalent just where they are the same. The lines that the changes remove are
lines of the old text, those that they add are lines of the new one, each in order; what is left of
the lines on either side is the same, and the changes, made along the old lines, leave the new
ones. -/
theorem ofTexts_sound (old new : String) :
    let changes := (ofTexts old new).changes
    ((ofTexts old new).isEquivalent = true ↔ old = new) ∧
    LinesOf old.toList (lines old) ∧ LinesOf new.toList (lines new) ∧
    (removedLines changes).Sublist (lines old) ∧ (addedLines changes).Sublist (lines new) ∧
    (∃ kept, Interleaves (removedLines changes) kept (lines old) ∧
      Interleaves (addedLines changes) kept (lines new)) ∧
    Rewrites changes (lines old) (lines new) := by
  intro changes
  have hrewrites := rewrites_ofTexts old new
  obtain ⟨kept, hold, hnew⟩ := hrewrites.exists_kept
  exact ⟨isEquivalent_ofTexts_iff, linesOf_lines old, linesOf_lines new, hold.sublist, hnew.sublist,
    ⟨kept, hold, hnew⟩, hrewrites⟩

/-- A line with another end is another line. -/
example :
    let changes := (ofTexts "x\r\ny\rz" "x\r\nz\n").changes
    removedLines changes = ["y\r", "z"] ∧ addedLines changes = ["z\n"] := by
  decide +kernel

end Curator.Comparison
