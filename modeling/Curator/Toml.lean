/-! # TOML values -/

namespace Curator

/-- A value of a TOML document. Dates and times are kept as their usual text. -/
inductive Toml where
  | string (s : String)
  | integer (i : Int)
  | float (text : String)
  | bool (b : Bool)
  | dateTime (text : String)
  | array (items : List Toml)
  | table (members : List (String × Toml))

end Curator
