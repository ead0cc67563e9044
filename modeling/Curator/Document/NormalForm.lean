import Curator.Document.KeyOrder
import Curator.Document.Prune

/-! # The form in which documents are stored -/

namespace Curator.Json

/-- The document without empty values and with its members in order, if anything is
left of it. -/
def normalize (order : KeyOrder) (document : Json) : Option Json :=
  document.prune.map (order.apply [])

end Curator.Json
