import Curator.CommandLine.Word
import Curator.Digits
import Curator.Members

/-! # Arguments of a command

A command declares its options and how many operands it takes. Words are read from the
left, and the first one that does not fit ends the reading, as does a request for help
or for the version. Every option may be given once.
-/

namespace Curator.CommandLine

/-- What an option is for. A flag has no value; asking for help or the version needs no
other argument. -/
inductive Role where
  | flag | help | version | text | path | count
deriving DecidableEq

namespace Role

def takesValue : Role → Bool
  | text | path | count => true
  | flag | help | version => false

end Role

/-- A number that fits 64 bits, in decimal digits after an optional plus sign. -/
def readCount? (value : String) : Option Nat :=
  let ds := match value.toList with
    | '+' :: rest => rest
    | cs => cs
  if !ds.isEmpty && ds.all Char.isDigit && Digits.value ds < UInt64.size then some (Digits.value ds)
  else none

def Role.accepts (role : Role) (value : String) : Bool :=
  match role with
  | path => !value.isEmpty
  | count => (readCount? value).isSome
  | _ => true

structure Declaration where
  long : String
  letter : Option Char
  role : Role

inductive Stop where
  | usage | help | version
deriving DecidableEq

/-- What a command takes. Its operands are paths. -/
structure Signature where
  options : List Declaration
  operands : Nat

/-- The arguments so far, and the option that still waits for its value. -/
structure Arguments where
  values : List (String × String)
  operands : List String
  pending : Option Declaration
  ended : Bool

namespace Arguments

def none : Arguments := ⟨[], [], Option.none, false⟩

def value? (args : Arguments) (long : String) : Option String := Members.get? long args.values

def isGiven (args : Arguments) (long : String) : Bool := (args.value? long).isSome

/-- Gives an option its value; that of a flag is empty. -/
def give (args : Arguments) (option : Declaration) (value : String) : Except Stop Arguments :=
  match option.role with
  | .help => .error .help
  | .version => .error .version
  | role =>
    if args.isGiven option.long || !role.accepts value then .error .usage
    else .ok { args with values := args.values ++ [(option.long, value)], pending := Option.none }

def addOperand (signature : Signature) (args : Arguments) (word : String) :
    Except Stop Arguments :=
  if args.operands.length < signature.operands && Role.path.accepts word then
    .ok { args with operands := args.operands ++ [word] }
  else .error .usage

/-- Gives the options that letters stand for. After one that takes a value come the
characters of the value, with or without an equals sign. -/
def giveLetters (signature : Signature) : List Char → Arguments → Except Stop Arguments
  | [], args => .ok args
  | c :: rest, args =>
    match signature.options.find? (·.letter == some c) with
    | Option.none => .error .usage
    | some option =>
      if option.role.takesValue then
        match rest with
        | [] => .ok { args with pending := some option }
        | '=' :: value => args.give option (String.ofList value)
        | value => args.give option (String.ofList value)
      else do giveLetters signature rest (← args.give option "")

def giveLong (signature : Signature) (name : List Char) (value : Option (List Char))
    (args : Arguments) : Except Stop Arguments :=
  match signature.options.find? (·.long == String.ofList name) with
  | Option.none => .error .usage
  | some option =>
    match option.role.takesValue, value with
    | true, Option.none => .ok { args with pending := some option }
    | true, some value => args.give option (String.ofList value)
    | false, Option.none => args.give option ""
    | false, some _ => .error .usage

/-- Reads one more word. The value of an option must not look like an option itself. -/
def read (signature : Signature) (args : Arguments) (word : String) : Except Stop Arguments :=
  if args.ended then args.addOperand signature word
  else
    match Word.ofChars word.toList, args.pending with
    | .plain, some option => args.give option word
    | .plain, Option.none => args.addOperand signature word
    | _, some _ => .error .usage
    | .endOfOptions, Option.none => .ok { args with ended := true }
    | .long name value, Option.none => args.giveLong signature name value
    | .letters cs, Option.none => args.giveLetters signature cs

/-- Reads the words of a command, none of which may wait for a value in the end. -/
def readAll (signature : Signature) (words : List String) : Except Stop Arguments := do
  let args ← words.foldlM (read signature) none
  if args.pending.isSome then .error .usage else .ok args

end Arguments

end Curator.CommandLine
