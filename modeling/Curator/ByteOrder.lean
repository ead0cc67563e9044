/-! # The order of texts by their bytes

Names are sorted by their UTF-8 bytes, the first difference deciding and a text
coming before its extensions.
-/

namespace Curator.ByteOrder

def bytes (s : String) : List UInt8 := s.toUTF8.data.toList

def lt (a b : String) : Bool := decide (bytes a < bytes b)

def le (a b : String) : Bool := !lt b a

theorem bytes_injective {a b : String} (h : bytes a = bytes b) : a = b := by
  apply String.toByteArray_inj.mp
  exact ByteArray.ext (Array.toList_inj.mp h)

end Curator.ByteOrder
