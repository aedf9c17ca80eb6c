/-! Characters of a byte string. A well-formed UTF-8 sequence gives its character; every byte
outside such a sequence gives one replacement character, so decoding never fails and never skips
more than the bytes it has read. -/
namespace SnakeFront.Text

def replacement : Char := Char.ofNat 0xFFFD

def decodeFrom (bytes : ByteArray) (start : Nat) : List Char :=
  if start < bytes.size then
    match bytes.utf8DecodeChar? start with
    | some c => c :: decodeFrom bytes (start + c.utf8Size)
    | none => replacement :: decodeFrom bytes (start + 1)
  else []
termination_by bytes.size - start
decreasing_by
  · have := c.utf8Size_pos
    omega
  · omega

def decode (bytes : ByteArray) : List Char := decodeFrom bytes 0

end SnakeFront.Text
