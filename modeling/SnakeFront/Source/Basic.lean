import SnakeFront.Text.Utf8

/-! A source text: its characters, and the number of bytes it was stored in. The size is reported
and never used to read the characters. -/
namespace SnakeFront

structure Source where
  chars : List Char
  size : Nat

namespace Source

def ofText (text : String) : Source := ⟨text.toList, text.utf8ByteSize⟩

def ofBytes (bytes : ByteArray) : Source := ⟨Text.decode bytes, bytes.size⟩

end Source
end SnakeFront
