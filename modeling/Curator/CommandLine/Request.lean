import Curator.CommandLine.Arguments

/-! # Requests

A command line asks to clean a document, to compare two, or to check an entry of a
collection.
-/

namespace Curator.CommandLine

inductive DiffForm where
  | summary | json | text
deriving DecidableEq

structure CheckRequest where
  settings : String
  collection : String
  index : Nat
  user : String
  name : Option String
  document : Option String
  json : Bool

inductive Request where
  | clean (settings document : String) (output : Option String)
  | diff (old new : String) (form : DiffForm)
  | check (request : CheckRequest)

namespace Request

def verbose : Declaration := ⟨"verbose", some 'v', .flag⟩

def help : Declaration := ⟨"help", some 'h', .help⟩

def globalSignature : Signature := ⟨[verbose, help, ⟨"version", some 'V', .version⟩], 0⟩

def cleanSignature : Signature :=
  ⟨[⟨"config", some 'c', .path⟩, ⟨"output", some 'o', .path⟩, verbose, help], 1⟩

def diffSignature : Signature :=
  ⟨[⟨"json", none, .flag⟩, ⟨"text", none, .flag⟩, verbose, help], 2⟩

def checkSignature : Signature :=
  ⟨[⟨"config", some 'c', .path⟩, ⟨"collection", none, .path⟩, ⟨"index", some 'i', .count⟩,
    ⟨"user", some 'u', .text⟩, ⟨"name", some 'n', .text⟩, ⟨"document", some 'd', .path⟩,
    ⟨"json", none, .flag⟩, verbose, help], 0⟩

def defaultUser : String := "cfged"

def ofClean? (args : Arguments) : Option Request := do
  let settings ← args.value? "config"
  let document ← args.operands[0]?
  return .clean settings document (args.value? "output")

def ofDiff? (args : Arguments) : Option Request := do
  let old ← args.operands[0]?
  let new ← args.operands[1]?
  match args.isGiven "json", args.isGiven "text" with
  | true, true => none
  | true, false => return .diff old new .json
  | false, true => return .diff old new .text
  | false, false => return .diff old new .summary

/-- A check by the user that is named, or else by the one of the environment. -/
def ofCheck? (environmentUser : Option String) (args : Arguments) : Option Request := do
  let settings ← args.value? "config"
  let collection ← args.value? "collection"
  let index ← args.value? "index" >>= readCount?
  return .check
    { settings, collection, index
      user := ((args.value? "user").orElse fun _ => environmentUser).getD defaultUser
      name := args.value? "name"
      document := args.value? "document"
      json := args.isGiven "json" }

def ofArguments (signature : Signature) (decode : Arguments → Option Request)
    (words : List String) : Except Stop Request := do
  let args ← Arguments.readAll signature words
  match decode args with
  | some request => .ok request
  | none => .error .usage

def ofHelp : List String → Stop
  | [] => .help
  | [name] => if ["clean", "diff", "check", "help"].contains name then .help else .usage
  | _ => .usage

/-- Reads what follows the global options so far. -/
def ofWords (environmentUser : Option String) (args : Arguments) :
    List String → Except Stop Request
  | [] => .error .usage
  | word :: rest =>
    match Word.ofChars word.toList, args.ended with
    | .plain, false =>
      match word with
      | "clean" => ofArguments cleanSignature ofClean? rest
      | "diff" => ofArguments diffSignature ofDiff? rest
      | "check" => ofArguments checkSignature (ofCheck? environmentUser) rest
      | "help" => .error (ofHelp rest)
      | _ => .error .usage
    | _, _ => do ofWords environmentUser (← args.read globalSignature word) rest

def read (environmentUser : Option String) (words : List String) : Except Stop Request :=
  ofWords environmentUser .none words

end Request

end Curator.CommandLine
