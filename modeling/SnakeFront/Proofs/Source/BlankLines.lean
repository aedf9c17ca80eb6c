import SnakeFront.Proofs.Text.Decoding
import SnakeFront.Proofs.Token.Passage
import SnakeFront.Proofs.Token.Spelling
import SnakeFront.Proofs.Word.Lines
import SnakeFront.Source.Reading

/-! Blank lines. A line of spaces and tabs, with or without a comment, has only tabs for words, and
the newline behind them takes these back. Main statement: such a line put into a source changes
none of its tokens, and moves a fault behind it one line down. -/
namespace SnakeFront.Token

open Layout

theorem arrange_blank_line (depth line tabs : Nat) (place : Place) (rest : List Lexeme) :
    arrange depth line place (.newline :: (List.replicate tabs .tab ++ .newline :: rest)) =
      (arrange depth line place (.newline :: rest)).mapError Fault.below := by
  have margin : arrange depth (line + 1) (.margin 0) (List.replicate tabs .tab ++ .newline :: rest) =
      (arrange depth (line + 1) (.margin 0) rest).mapError Fault.below := by
    rw [arrange_tabs, arrange, arrange_below]
  cases place with
  | inside =>
    rw [arrange, arrange, margin, mapError_map]
  | margin seen =>
    rw [arrange, arrange, margin]

/-- A line of tabs is seen nowhere. If there is a fault before it, nothing changes at all. -/
theorem ofWords_blank_line {words : List Word} (ends : EndsUnquoted words) (tabs : Nat)
    (rest : List Word) :
    (∃ fault, ofWords words = .error fault ∧
      ofWords (words ++ Word.newline :: rest) = .error fault ∧
      ofWords (words ++ Word.newline :: (List.replicate tabs Word.tab ++ Word.newline :: rest)) =
        .error fault) ∨
    ∃ tokens, ofWords words = .ok tokens ∧
      ofWords (words ++ Word.newline :: (List.replicate tabs Word.tab ++ Word.newline :: rest)) =
        (ofWords (words ++ Word.newline :: rest)).mapError Fault.below := by
  obtain ⟨passage, run⟩ := arrange_run 0 .inside (Lexeme.ofWords words)
  have alone : ofWords words = passage.resume 1 [] := by
    rw [← run, List.append_nil]
    rfl
  have followed : ∀ rest, ofWords (words ++ Word.newline :: rest) =
      passage.resume 1 (.newline :: Lexeme.ofWords rest) := by
    intro rest
    rw [← run, ← (scan_newline ends rest).2]
    rfl
  have newline : ∀ rest, Lexeme.ofWords (Word.newline :: rest) = .newline :: Lexeme.ofWords rest :=
    fun rest => (scan_word (newline_unclosed rest)).2
  cases passage with
  | halts cause word newlines => exact Or.inl ⟨_, alone, followed rest, followed _⟩
  | passes emitted newlines depth place =>
    refine Or.inr ?_
    have done : ∃ tokens, ofWords words = .ok tokens := by
      rw [alone]
      cases place with
      | inside => exact ⟨_, rfl⟩
      | margin seen => exact ⟨_, rfl⟩
    obtain ⟨tokens, read⟩ := done
    refine ⟨tokens, read, ?_⟩
    rw [followed, followed, ofWords_tabs, newline, Passage.resume, Passage.resume,
      arrange_blank_line, mapError_map]

end SnakeFront.Token

namespace SnakeFront.Word

/-- Spaces and tabs, up to the end of the line or to a comment. -/
def BlankLine (line : List Char) : Prop :=
  '\n' ∉ line ∧ ∀ c ∈ line.takeWhile (· ≠ '#'), c = ' ' ∨ c = '\t'

instance : DecidablePred BlankLine := fun line =>
  have := List.decidableBAll (fun c => c = ' ' ∨ c = '\t') (line.takeWhile (· ≠ '#'))
  inferInstanceAs (Decidable (_ ∧ _))

theorem BlankLine.parts {run rest : List Char} (blank : BlankLine (run ++ rest))
    (mark : '#' ∉ run) : (∀ c ∈ run, c = ' ' ∨ c = '\t') ∧ BlankLine rest := by
  obtain ⟨single, margin⟩ := blank
  rw [takeWhile_unmarked mark, List.forall_mem_append] at margin
  exact ⟨margin.1, fun later => single (by simp [later]), margin.2⟩

theorem eq_tab_of_blank_line {line : List Char} (blank : BlankLine line) :
    ∀ word ∈ split line, word = tab := by
  induction line using run_induction with
  | nil => simp
  | blanks run rest longest ih =>
    have mark : '#' ∉ run := fun member => Bool.noConfusion (longest.all '#' member)
    rw [split_blanks longest, List.forall_mem_append]
    exact ⟨fun word member => List.eq_of_mem_replicate member, ih (blank.parts mark).2⟩
  | comment run rest longest ih =>
    have last : rest = [] := longest.last_of_line fun later => blank.1 (by simp [later])
    rw [split_comment longest, last, split_nil]
    simp
  | symbol c rest reserved other mark ih =>
    obtain ⟨margin, behind⟩ := @BlankLine.parts [c] rest blank (by simpa using mark.symm)
    have same : c = '\t' := (margin c (by simp)).resolve_left other
    rw [split_symbol reserved other mark, List.forall_mem_cons]
    exact ⟨by rw [same]; rfl, ih behind⟩
  | plain run rest longest ih =>
    obtain ⟨c, tail, rfl⟩ := List.exists_cons_of_ne_nil longest.nonempty
    have mark : '#' ∉ c :: tail := fun member => Bool.noConfusion (longest.all '#' member)
    have plain := longest.all c List.mem_cons_self
    rcases (blank.parts mark).1 c List.mem_cons_self with rfl | rfl <;> cases plain

theorem split_blank_line {line : List Char} (blank : BlankLine line) :
    split line = List.replicate (split line).length tab :=
  List.eq_replicate_iff.mpr ⟨rfl, eq_tab_of_blank_line blank⟩

end SnakeFront.Word

namespace SnakeFront.Source

open Layout Token

theorem words_newline (before after : ByteArray) :
    (ofBytes (before ++ "\n".toUTF8 ++ after)).words =
      (ofBytes before).words ++ Word.newline :: (ofBytes after).words := by
  have parted : Text.decode (before ++ "\n".toUTF8 ++ after) =
      Text.decode before ++ '\n' :: Text.decode after := Text.decode_parted before '\n' after
  simp only [words, ofBytes, parted, Word.split_newline]

/-- A blank line between two lines of a source is not seen. With the line and without it there are
the same tokens, or the same word is blamed for the same reason. The reported line is the same if
that word stands before the blank line, and one more with the blank line if it stands behind. -/
theorem blank_line_unseen {before line after : ByteArray}
    (blank : Word.BlankLine (Text.decode line))
    (ends : EndsUnquoted (ofBytes before).words) :
    let longer := ofBytes (before ++ "\n".toUTF8 ++ line ++ "\n".toUTF8 ++ after)
    let shorter := ofBytes (before ++ "\n".toUTF8 ++ after)
    let count := (ofBytes before).words.length
    (∃ tokens, longer.tokens = .ok tokens ∧ shorter.tokens = .ok tokens) ∨
    (∃ position < count, ∃ fault,
      Blamed longer.words position fault.cause ∧ Blamed shorter.words position fault.cause ∧
      longer.tokens = .error fault ∧ shorter.tokens = .error fault) ∨
    ∃ there ≥ count, ∃ here ≥ count, ∃ cause word number,
      Blamed longer.words there cause ∧ Blamed shorter.words here cause ∧
      longer.tokens = .error ⟨cause, word, number + 1⟩ ∧
      shorter.tokens = .error ⟨cause, word, number⟩ := by
  intro longer shorter count
  have less : shorter.words = (ofBytes before).words ++ Word.newline :: (ofBytes after).words :=
    words_newline before after
  have more : longer.words = (ofBytes before).words ++ Word.newline ::
      (List.replicate (ofBytes line).words.length Word.tab ++
        Word.newline :: (ofBytes after).words) := by
    rw [words_newline, words_newline, List.append_assoc, List.cons_append]
    congr 3
    exact Word.split_blank_line blank
  rcases ofWords_blank_line ends (ofBytes line).words.length (ofBytes after).words with
    ⟨fault, early, short, long⟩ | ⟨tokens, read, same⟩
  · obtain ⟨position, blamed, _⟩ := blamed_of_error early
    refine Or.inr (Or.inl ⟨position, ?_, fault, ?_, ?_, ?_, ?_⟩)
    · exact (blamed_newline ends [] blamed).1
    · rw [more]
      exact (blamed_newline ends _ blamed).2
    · rw [less]
      exact (blamed_newline ends _ blamed).2
    · rw [Source.tokens, more, long]
    · rw [Source.tokens, less, short]
  · rw [← more, ← less] at same
    cases outcome : ofWords shorter.words with
    | ok result =>
      rw [outcome] at same
      exact Or.inl ⟨result, same, outcome⟩
    | error fault =>
      rw [outcome] at same
      obtain ⟨here, blamed, _⟩ := blamed_of_error outcome
      obtain ⟨there, blamedToo, _⟩ := blamed_of_error same
      refine Or.inr (Or.inr ⟨there, ?_, here, ?_, fault.cause, fault.word, fault.line, blamedToo,
        blamed, same, outcome⟩)
      · rw [more] at blamedToo
        exact blamed_behind ends _ read blamedToo
      · rw [less] at blamed
        exact blamed_behind ends _ read blamed

theorem commented_line_unseen_in_body :
    let before := "def f():".toUTF8
    let line := "\t     # \"b\"".toUTF8
    let after := "\tc".toUTF8
    let tokens := [.define, .var "f", .openParen, .closeParen, .colon, .newline, .indent, .var "c"]
    Word.BlankLine (Text.decode line) ∧ EndsUnquoted (ofBytes before).words ∧
      (ofBytes (before ++ "\n".toUTF8 ++ after)).tokens = .ok tokens ∧
      (ofBytes (before ++ "\n".toUTF8 ++ line ++ "\n".toUTF8 ++ after)).tokens = .ok tokens := by
  intro before line after tokens
  have blank : Word.BlankLine (Text.decode line) := by
    rw [Text.decode_toUTF8]
    decide
  have head : (ofBytes before).words = ["def", "f", "(", ")", ":"] := by
    rw [words, ofBytes, Text.decode_toUTF8, Word.split_line (by decide)]
    decide
  have body : (ofBytes after).words = ["\t", "c"] := by
    rw [words, ofBytes, Text.decode_toUTF8, Word.split_line (by decide)]
    decide
  have ends : EndsUnquoted (ofBytes before).words := by
    rw [head]
    decide
  have short : (ofBytes (before ++ "\n".toUTF8 ++ after)).tokens = .ok tokens := by
    rw [Source.tokens, words_newline, head, body]
    rfl
  refine ⟨blank, ends, short, ?_⟩
  rcases @blank_line_unseen before line after blank ends with
    ⟨same, long, found⟩ | ⟨_, _, _, _, _, _, failed⟩ | ⟨_, _, _, _, _, _, _, _, _, _, failed⟩
  · rw [long, ← found, short]
  · cases short.symm.trans failed
  · cases short.symm.trans failed

end SnakeFront.Source
