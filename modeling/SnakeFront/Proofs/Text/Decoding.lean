import SnakeFront.Text.Utf8

/-! Decoding in parts. A byte that can begin a character is never in the middle of one, so bytes may
be cut in front of it and decoded apart. -/
namespace SnakeFront.Text

def OpensCharacter (bytes : ByteArray) : Prop :=
  ∀ inside : 0 < bytes.size, bytes[0].IsUTF8FirstByte

section
variable {first second : ByteArray} {start : Nat} {c : Char}

theorem encode_of_decoded {bytes : ByteArray} (found : bytes.utf8DecodeChar? start = some c) :
    (String.utf8EncodeChar c).toByteArray = bytes.extract start (start + c.utf8Size) := by
  have reach := ByteArray.le_size_of_utf8DecodeChar?_eq_some found
  rw [ByteArray.utf8DecodeChar?_eq_utf8DecodeChar?_extract] at found
  rw [String.toByteArray_utf8EncodeChar_of_utf8DecodeChar?_eq_some found,
    ByteArray.extract_extract, Nat.add_zero, Nat.min_eq_left reach]

theorem decoded_in_front (found : (first ++ second).utf8DecodeChar? start = some c)
    (within : start + c.utf8Size ≤ first.size) : first.utf8DecodeChar? start = some c := by
  have own : (String.utf8EncodeChar c).toByteArray =
      first.extract start (start + c.utf8Size) := by
    have none : start + c.utf8Size - first.size = 0 := by omega
    have empty : ∀ i, second.extract i 0 = ByteArray.empty := by simp
    rw [encode_of_decoded found, ByteArray.extract_append, none, empty, ByteArray.append_empty]
  rw [ByteArray.utf8DecodeChar?_eq_utf8DecodeChar?_extract,
    ByteArray.extract_eq_extract_append_extract (start + c.utf8Size) (Nat.le_add_right _ _) within,
    ← own, ByteArray.utf8DecodeChar?_utf8EncodeChar_append]

/-- A character does not reach over a byte that can begin one. -/
theorem decoded_within (opens : OpensCharacter second) (inside : start < first.size)
    (found : (first ++ second).utf8DecodeChar? start = some c) :
    start + c.utf8Size ≤ first.size := by
  have reach := ByteArray.le_size_of_utf8DecodeChar?_eq_some found
  rw [ByteArray.size_append] at reach
  apply Nat.le_of_not_lt
  intro beyond
  have nonempty : 0 < second.size := by omega
  have middle : first.size - start < (String.utf8EncodeChar c).length := by
    rw [String.length_utf8EncodeChar]
    omega
  have same : (String.utf8EncodeChar c)[first.size - start] = second[0] := by
    simp only [List.getElem_eq_getElem_toByteArray, encode_of_decoded found,
      ByteArray.getElem_extract]
    rw [ByteArray.getElem_append_right (by omega)]
    congr 1
    omega
  have begins := opens nonempty
  rw [← same, UInt8.isUTF8FirstByte_getElem_utf8EncodeChar] at begins
  omega

theorem decodeFrom_front (opens : OpensCharacter second) (below : start ≤ first.size) :
    decodeFrom (first ++ second) start =
      decodeFrom first start ++ decodeFrom (first ++ second) first.size := by
  fun_induction decodeFrom first start with
  | case1 start inside c found ih =>
    have more : start < (first ++ second).size := by
      rw [ByteArray.size_append]
      omega
    rw [decodeFrom, if_pos more, ByteArray.utf8DecodeChar?_append_eq_some found]
    exact congrArg (c :: ·) (ih (ByteArray.le_size_of_utf8DecodeChar?_eq_some found))
  | case2 start inside missing ih =>
    have more : start < (first ++ second).size := by
      rw [ByteArray.size_append]
      omega
    have still : (first ++ second).utf8DecodeChar? start = none := by
      cases found : (first ++ second).utf8DecodeChar? start with
      | none => rfl
      | some c =>
        have within := decoded_within opens inside found
        rw [decoded_in_front found within] at missing
        cases missing
    rw [decodeFrom, if_pos more, still]
    exact congrArg (replacement :: ·) (ih inside)
  | case3 start outside =>
    have last : start = first.size := by omega
    rw [last, List.nil_append]

theorem decodeFrom_behind (first second : ByteArray) (start : Nat) :
    decodeFrom (first ++ second) (first.size + start) = decodeFrom second start := by
  have same : ∀ i, (first ++ second).utf8DecodeChar? (first.size + i) = second.utf8DecodeChar? i := by
    intro i
    rw [ByteArray.utf8DecodeChar?_eq_utf8DecodeChar?_extract, ByteArray.size_append,
      ByteArray.extract_append_size_add, ← ByteArray.utf8DecodeChar?_eq_utf8DecodeChar?_extract]
  fun_induction decodeFrom second start with
  | case1 start inside c found ih =>
    have more : first.size + start < (first ++ second).size := by
      rw [ByteArray.size_append]
      omega
    rw [decodeFrom, if_pos more, same, found]
    exact congrArg (c :: ·) (Nat.add_assoc first.size start _ ▸ ih)
  | case2 start inside missing ih =>
    have more : first.size + start < (first ++ second).size := by
      rw [ByteArray.size_append]
      omega
    rw [decodeFrom, if_pos more, same, missing]
    exact congrArg (replacement :: ·) ih
  | case3 start outside =>
    have beyond : ¬ first.size + start < (first ++ second).size := by
      rw [ByteArray.size_append]
      omega
    rw [decodeFrom, if_neg beyond]

theorem decode_append (first : ByteArray) (opens : OpensCharacter second) :
    decode (first ++ second) = decode first ++ decode second := by
  have behind := decodeFrom_behind first second 0
  rw [decode, decodeFrom_front opens (Nat.zero_le _), ← decode]
  exact congrArg (decode first ++ ·) behind

end

theorem decode_cons (c : Char) (bytes : ByteArray) :
    decode ([c].utf8Encode ++ bytes) = c :: decode bytes := by
  have size : [c].utf8Encode.size = c.utf8Size := by simp [List.utf8Encode]
  have inside : 0 < ([c].utf8Encode ++ bytes).size := by
    have := c.utf8Size_pos
    rw [ByteArray.size_append]
    omega
  have behind := decodeFrom_behind [c].utf8Encode bytes 0
  rw [decode, decodeFrom, if_pos inside, List.utf8DecodeChar?_utf8Encode_singleton_append]
  simp only [Nat.zero_add, ← size]
  exact congrArg (c :: ·) behind

theorem decode_utf8Encode (chars : List Char) : decode chars.utf8Encode = chars := by
  induction chars with
  | nil => simp [decode, decodeFrom]
  | cons c rest ih => rw [List.utf8Encode_cons, decode_cons, ih]

theorem decode_toUTF8 (text : String) : decode text.toUTF8 = text.toList := by
  rw [String.toUTF8, ← String.utf8Encode_toList, decode_utf8Encode]

theorem decode_eq_nil_iff {bytes : ByteArray} : decode bytes = [] ↔ bytes = ByteArray.empty := by
  rw [decode, decodeFrom, ← ByteArray.size_eq_zero_iff]
  split
  next inside =>
    have some : bytes.size ≠ 0 := Nat.ne_of_gt inside
    split <;> simp [some]
  next outside => simp [Nat.eq_zero_of_not_pos outside]
/-- Encoding gives back the bytes that were decoded, exactly if they are an encoding at all. -/
theorem encode_decode_iff {bytes : ByteArray} :
    (String.ofList (decode bytes)).toUTF8 = bytes ↔ bytes.IsValidUTF8 := by
  constructor
  · intro same
    rw [← same]
    exact (String.ofList (decode bytes)).isValidUTF8
  · rintro ⟨chars, rfl⟩
    rw [decode_utf8Encode, String.toUTF8, String.toByteArray_ofList]

theorem opensCharacter_encoded (c : Char) (bytes : ByteArray) :
    OpensCharacter ([c].utf8Encode ++ bytes) := by
  intro inside
  have some : 0 < (String.utf8EncodeChar c).length := by
    rw [String.length_utf8EncodeChar]
    exact c.utf8Size_pos
  have byte : ([c].utf8Encode ++ bytes)[0] = (String.utf8EncodeChar c)[0] := by
    simp only [List.utf8Encode_singleton, List.getElem_eq_getElem_toByteArray]
    exact ByteArray.getElem_append_left (by simpa using some)
  rw [byte, UInt8.isUTF8FirstByte_getElem_utf8EncodeChar]

theorem decode_parted (before : ByteArray) (c : Char) (after : ByteArray) :
    decode (before ++ (String.singleton c).toUTF8 ++ after) =
      decode before ++ c :: decode after := by
  have single : (String.singleton c).toUTF8 = [c].utf8Encode := by
    rw [String.toUTF8, ← String.utf8Encode_toList, String.toList_singleton]
  rw [single, ByteArray.append_assoc, decode_append before (opensCharacter_encoded c after),
    decode_cons]

end SnakeFront.Text
