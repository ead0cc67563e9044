import Curator.Metadata

/-! # Errors -/

namespace Curator

inductive SettingsFault where
  | metadata (fault : Metadata.Fault)
  | missingSchema
deriving DecidableEq

inductive Error where
  | noActiveEntry
  | indexOutOfRange (index length : Nat)
  | invalidSettings (fault : SettingsFault)
  | settingsNotFound (path : String)
  | pointer (e : Pointer.SetError)
  | malformedJson
  | malformedToml
  | unreadable

def SettingsFault.message : SettingsFault → String
  | metadata fault => fault.message
  | missingSchema => "ordering = \"schema\" requires editor.schema"

/-- The wording of an error. Malformed texts and files that cannot be read have none of
their own. -/
def Error.message? : Error → Option String
  | noActiveEntry => some "No config entry is selected"
  | indexOutOfRange index length =>
    some ("Index " ++ toString index ++ " is out of range for a collection of " ++
      toString length ++ " entries")
  | invalidSettings fault => some ("Invalid editor configuration: " ++ fault.message)
  | settingsNotFound path => some ("Configuration not found at " ++ path)
  | pointer e => some e.message
  | malformedJson => none
  | malformedToml => none
  | unreadable => none

end Curator
