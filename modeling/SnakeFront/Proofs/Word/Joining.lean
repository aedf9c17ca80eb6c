import SnakeFront.Proofs.Text.Decoding
import SnakeFront.Proofs.Text.Joined
import SnakeFront.Proofs.Word.Lines
import SnakeFront.Source.Reading

/-! Words joined to a text again. Only certain words can be read, and a single blank is enough to
keep them apart: it makes no tab, is no word itself, and ends a run of plain characters. Main
statement: words that can be read, joined by blanks, are read back unchanged, exactly if their bytes
are well formed. A byte that belongs to no character is read as the replacement character. -/
namespace SnakeFront.Word

/-- A run of plain characters, at least one. -/
def PlainWord (word : Word) : Prop := word ≠ "" ∧ ∀ c ∈ word.toList, isPlain c = true

-- Only the characters at hand are looked at, not all there are.
instance : DecidablePred PlainWord := fun word =>
  have := List.decidableBAll (fun c => isPlain c = true) word.toList
  inferInstanceAs (Decidable (_ ∧ _))

/-- A word that can be read: a reserved character, other than a blank and the comment mark, or a
run of plain characters. -/
def Readable (word : Word) : Prop :=
  (∃ c ∈ reserved, c ≠ ' ' ∧ c ≠ '#' ∧ word = String.singleton c) ∨ PlainWord word

instance : DecidablePred Readable := fun word =>
  have := List.decidableBEx (fun c => c ≠ ' ' ∧ c ≠ '#' ∧ word = String.singleton c) reserved
  inferInstanceAs (Decidable (_ ∨ _))

theorem isReserved_iff {c : Char} : isReserved c = true ↔ c ∈ reserved := by
  simp [isReserved]

theorem readable_tab : Readable tab := by decide

theorem readable_of_mem (text : List Char) : ∀ word ∈ split text, Readable word := by
  induction text using run_induction with
  | nil => simp
  | blanks run rest longest ih =>
    rw [split_blanks longest, List.forall_mem_append]
    refine ⟨?_, ih⟩
    intro word member
    rw [List.eq_of_mem_replicate member]
    exact readable_tab
  | comment run rest longest ih =>
    rw [split_comment longest]
    exact ih
  | symbol c rest found blank mark ih =>
    rw [split_symbol found blank mark, List.forall_mem_cons]
    exact ⟨Or.inl ⟨c, isReserved_iff.mp found, blank, mark, rfl⟩, ih⟩
  | plain run rest longest ih =>
    rw [split_plain longest, List.forall_mem_cons]
    refine ⟨Or.inr ⟨?_, ?_⟩, ih⟩
    · simpa using longest.nonempty
    · simpa using longest.all

section
variable {word : Word} {rest : List Char}

theorem Readable.exists_cons (readable : Readable word) :
    ∃ c tail, word.toList = c :: tail ∧ isBlank c = false := by
  rcases readable with ⟨c, _, blank, _, rfl⟩ | ⟨nonempty, plain⟩
  · exact ⟨c, [], String.toList_singleton c, by simpa [isBlank] using blank⟩
  · obtain ⟨c, tail, chars⟩ := List.exists_cons_of_ne_nil (mt String.toList_eq_nil_iff.mp nonempty)
    have first := plain c (by simp [chars])
    refine ⟨c, tail, chars, ?_⟩
    cases blank : isBlank c with
    | false => rfl
    | true => exact Bool.noConfusion (first.symm.trans (isPlain_of_blank blank))

theorem split_readable (readable : Readable word) (ends : ∀ c ∈ rest.head?, isPlain c = false) :
    split (word.toList ++ rest) = word :: split rest := by
  rcases readable with ⟨c, found, blank, mark, rfl⟩ | ⟨nonempty, plain⟩
  · rw [String.toList_singleton, List.singleton_append,
      split_symbol (isReserved_iff.mpr found) blank mark]
  · have longest : LongestRun isPlain word.toList rest :=
      ⟨mt String.toList_eq_nil_iff.mp nonempty, plain, ends⟩
    rw [split_plain longest, String.ofList_toList]

theorem Readable.ne_of_mem (readable : Readable word) {c : Char} (member : c ∈ word.toList) :
    c ≠ ' ' ∧ c ≠ '#' := by
  rcases readable with ⟨d, _, blank, mark, rfl⟩ | ⟨_, plain⟩
  · have same : c = d := by simpa using member
    exact same ▸ ⟨blank, mark⟩
  · constructor <;> rintro rfl <;> cases plain _ member

theorem readable_iff_split : Readable word ↔ split word.toList = [word] := by
  constructor
  · intro readable
    have alone := @split_readable word [] readable (by simp)
    simpa using alone
  · intro alone
    exact readable_of_mem word.toList word (by simp [alone])

/-- The blank in front of a word is dropped: there are never four of them. -/
theorem split_parted (readable : Readable word) (rest : List Char) :
    split (' ' :: (word.toList ++ rest)) = split (word.toList ++ rest) := by
  obtain ⟨c, tail, chars, other⟩ := readable.exists_cons
  have longest : LongestRun isBlank [' '] (word.toList ++ rest) := by
    refine ⟨by simp, by simp [isBlank], ?_⟩
    simpa [chars] using other
  exact split_blanks longest

end

theorem toList_joined (word : Word) (rest : List Word) :
    (blank.intercalate (word :: rest)).toList =
      word.toList ++ rest.flatMap fun next => ' ' :: next.toList :=
  Text.toList_intercalate_cons blank word rest

theorem ends_at_blank (words : List Word) :
    ∀ c ∈ (words.flatMap fun word => ' ' :: word.toList).head?, isPlain c = false := by
  cases words with
  | nil => simp
  | cons word rest =>
    intro c first
    cases first
    rfl

theorem split_following {words : List Word} (readable : ∀ word ∈ words, Readable word) :
    split (words.flatMap fun word => ' ' :: word.toList) = words := by
  induction words with
  | nil => simp
  | cons word rest ih =>
    rw [List.forall_mem_cons] at readable
    rw [List.flatMap_cons, List.cons_append, split_parted readable.1,
      split_readable readable.1 (ends_at_blank rest), ih readable.2]

theorem split_joined {words : List Word} (readable : ∀ word ∈ words, Readable word) :
    split (blank.intercalate words).toList = words := by
  cases words with
  | nil => simp
  | cons word rest =>
    rw [List.forall_mem_cons] at readable
    rw [toList_joined, split_readable readable.1 (ends_at_blank rest), split_following readable.2]

def ofUTF8 (bytes : ByteArray) : Word := String.ofList (Text.decode bytes)

theorem toList_ofUTF8 (bytes : ByteArray) : (ofUTF8 bytes).toList = Text.decode bytes :=
  String.toList_ofList

theorem ofUTF8_toUTF8 (word : Word) : ofUTF8 word.toUTF8 = word := by
  rw [ofUTF8, Text.decode_toUTF8, String.ofList_toList]

/-- The bytes of one word: those of a reserved character, other than a blank and the comment mark,
or at least one byte and no reserved character. They need not be well formed. -/
def Admissible (bytes : ByteArray) : Prop :=
  (∃ c ∈ reserved, c ≠ ' ' ∧ c ≠ '#' ∧ bytes = (String.singleton c).toUTF8) ∨
    (bytes ≠ ByteArray.empty ∧ ∀ c ∈ Text.decode bytes, isPlain c = true)

theorem Admissible.readable {bytes : ByteArray} (admissible : Admissible bytes) :
    Readable (ofUTF8 bytes) := by
  rcases admissible with ⟨c, found, blank, mark, rfl⟩ | ⟨nonempty, plain⟩
  · exact Or.inl ⟨c, found, blank, mark, ofUTF8_toUTF8 _⟩
  · refine Or.inr ⟨?_, ?_⟩
    · rw [ne_eq, ← String.toList_eq_nil_iff, toList_ofUTF8, Text.decode_eq_nil_iff]
      exact nonempty
    · rw [toList_ofUTF8]
      exact plain

theorem Readable.admissible {word : Word} (readable : Readable word) :
    Admissible word.toUTF8 := by
  rcases readable with ⟨c, found, blank, mark, rfl⟩ | ⟨nonempty, plain⟩
  · exact Or.inl ⟨c, found, blank, mark, rfl⟩
  · refine Or.inr ⟨?_, ?_⟩
    · rw [ne_eq, ← Text.decode_eq_nil_iff, Text.decode_toUTF8, String.toList_eq_nil_iff]
      exact nonempty
    · rw [Text.decode_toUTF8]
      exact plain

/-- Bytes with a blank between each two. -/
def spaced : List ByteArray → ByteArray
  | [] => ByteArray.empty
  | [word] => word
  | word :: next :: rest => word ++ blank.toUTF8 ++ spaced (next :: rest)

theorem decode_spaced (words : List ByteArray) :
    Text.decode (spaced words) = (blank.intercalate (words.map ofUTF8)).toList := by
  fun_induction spaced words with
  | case1 => simpa using Text.decode_eq_nil_iff.mpr rfl
  | case2 word => simp [toList_ofUTF8]
  | case3 word next rest ih =>
    have parted : Text.decode (word ++ blank.toUTF8 ++ spaced (next :: rest)) =
        Text.decode word ++ ' ' :: Text.decode (spaced (next :: rest)) :=
      Text.decode_parted word ' ' _
    simp only [List.map_cons] at ih ⊢
    rw [parted, ih, toList_joined, toList_joined, List.flatMap_cons, List.cons_append,
      toList_ofUTF8 word]

end SnakeFront.Word

namespace SnakeFront.Source

open Word

theorem words_spaced {words : List ByteArray} (admissible : ∀ word ∈ words, Admissible word) :
    (ofBytes (spaced words)).words = words.map ofUTF8 := by
  have readable : ∀ word ∈ words.map ofUTF8, Readable word := by
    simpa using fun word member => (admissible word member).readable
  rw [Source.words, ofBytes, decode_spaced, split_joined readable]

/-- Every word of a source is admissible. Admissible words, joined by blanks, are read back
unchanged exactly if each of them is well formed; so the words of any source are. -/
theorem words_joined_and_read :
    (∀ source : Source, ∀ word ∈ source.words, Admissible word.toUTF8) ∧
    (∀ words : List ByteArray, (∀ word ∈ words, Admissible word) →
      ((ofBytes (spaced words)).words.map String.toUTF8 = words ↔
        ∀ word ∈ words, word.IsValidUTF8)) ∧
    ∀ source : Source,
      (ofBytes (spaced (source.words.map String.toUTF8))).words = source.words := by
  have image : ∀ source : Source, ∀ word ∈ source.words, Admissible word.toUTF8 :=
    fun source word member => (readable_of_mem source.chars word member).admissible
  refine ⟨image, ?_, ?_⟩
  · intro words admissible
    have each := @List.map_inj_left _ _ words (fun word => (ofUTF8 word).toUTF8) id
    rw [List.map_id] at each
    rw [words_spaced admissible, List.map_map]
    refine each.trans (forall₂_congr fun word _ => ?_)
    exact Text.encode_decode_iff
  · intro source
    have admissible : ∀ word ∈ source.words.map String.toUTF8, Admissible word := by
      simpa using image source
    rw [words_spaced admissible, List.map_map]
    exact (List.map_congr_left fun word _ => ofUTF8_toUTF8 word).trans (List.map_id _)

theorem layout_words_come_back :
    let texts := ["\t", "\t", "\n", "\"", "naïve", "=", "="]
    let words := texts.map String.toUTF8
    (∀ word ∈ words, Admissible word) ∧ (∀ word ∈ words, word.IsValidUTF8) ∧
      (ofBytes (spaced words)).words.map String.toUTF8 = words := by
  intro texts words
  have readable : ∀ text ∈ texts, Readable text := by decide
  have admissible : ∀ word ∈ words, Admissible word :=
    List.forall_mem_map.mpr fun text member => (readable text member).admissible
  have valid : ∀ word ∈ words, word.IsValidUTF8 :=
    List.forall_mem_map.mpr fun text _ => text.isValidUTF8
  exact ⟨admissible, valid, (words_joined_and_read.2.1 words admissible).mpr valid⟩

/-- A byte that belongs to no character is admissible, and another word is read for it. -/
theorem stray_byte_replaced :
    let word : ByteArray := ⟨#[0xff]⟩
    Admissible word ∧ (ofBytes (spaced [word])).words = ["\uFFFD"] ∧
      (ofBytes (spaced [word])).words.map String.toUTF8 ≠ [word] := by
  intro word
  have decoded : Text.decode word = [Text.replacement] := by
    have missing : word.utf8DecodeChar? 0 = none := by decide
    rw [Text.decode, Text.decodeFrom, if_pos (by decide), missing, Text.decodeFrom,
      if_neg (by decide)]
  have admissible : Admissible word := by
    refine Or.inr ⟨by decide, ?_⟩
    rw [decoded, List.forall_mem_singleton]
    decide
  have read : (ofBytes (spaced [word])).words = ["\uFFFD"] := by
    rw [words_spaced (by simpa using admissible), List.map_singleton, ofUTF8, decoded]
    rfl
  refine ⟨admissible, read, ?_⟩
  rw [read]
  decide

end SnakeFront.Source
