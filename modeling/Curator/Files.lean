/-! # Access to files -/

namespace Curator

/-- What can be done with the files of a system, in a monad in which this has its effect. -/
structure Files (m : Type → Type) where
  /-- Whether a path leads to a file or a folder. -/
  isPresent : String → m Bool
  /-- The text of a file, if it can be read. -/
  read? : String → m (Option String)
  /-- Puts a text into a file. Tells whether that was possible. -/
  write : (path content : String) → m Bool

end Curator
