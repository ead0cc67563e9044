/-! # Words of a command line -/

namespace Curator.CommandLine

inductive Word where
  /-- Two dashes, after which every word is an operand. -/
  | endOfOptions
  /-- An option by its long name, with what follows the equals sign. -/
  | long (name : List Char) (value : Option (List Char))
  /-- Options by their letters; the last may have its value attached. -/
  | letters (letters : List Char)
  | plain

def Word.ofChars : List Char → Word
  | ['-', '-'] => .endOfOptions
  | '-' :: '-' :: rest =>
    .long (rest.takeWhile (· != '=')) ((rest.dropWhile (· != '=')).tail?)
  | '-' :: c :: rest => .letters (c :: rest)
  | _ => .plain

end Curator.CommandLine
