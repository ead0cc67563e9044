import Curator.CommandLine.Run

/-! # The program -/

open Curator

def systemFiles : Files IO where
  isPresent path := do
    try
      let _ ← IO.FS.Handle.mk path .read
      return true
    catch
      | .permissionDenied .. => return true
      | _ => return false
  read? path := do
    try return some (← IO.FS.readFile path)
    catch _ => return none
  write path content := do
    try
      IO.FS.writeFile path content
      return true
    catch _ => return false

def main (words : List String) : IO UInt32 := do
  let user ← IO.getEnv "CFGED_USER"
  let outcome ← CommandLine.run systemFiles user words
  IO.print outcome.output
  if let some note := outcome.note then IO.eprint note
  if let some failure := outcome.failure then
    IO.eprintln ("error: " ++ failure.message?.getD "the input cannot be used")
  return UInt32.ofNat outcome.exitCode
