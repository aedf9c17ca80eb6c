import SnakeFront.Proofs.Token.Positions
import SnakeFront.Proofs.Token.Reading
import SnakeFront.Proofs.Word.Joining

/-! The vocabulary of sources. A text gives readable words only, so that no line starts with a blank
word, a name is a plain word or a quote that was left open, and a string holds a single word. Main
statements: what the tokens of a source carry and why it may have none; a text in quotes is read as
one string exactly if it is a single word. -/
namespace SnakeFront.Token

open Layout Word

def InVocabulary : Token → Prop
  | .var name =>
    name = "\"" ∨ name = "'" ∨
      PlainWord name ∧ ¬ Digits name ∧ name ≠ "True" ∧ name ≠ "False" ∧ name ≠ "def"
  | .string text => Readable text
  | _ => True

/-- Blanks, single or wide, are not among the lexemes of a source. -/
def Usual : Lexeme → Prop
  | .newline | .tab => True
  | .wide | .blank => False
  | .token token => token.InVocabulary

theorem quote_or_plain {name : Word} (readable : Readable name)
    (admissible : (var name).Admissible) : name = "\"" ∨ name = "'" ∨ PlainWord name := by
  have symbols : ∀ word ∈ reserved.map String.singleton,
      word = " " ∨ word = "#" ∨ ¬ (var word).Admissible ∨ word = "\"" ∨ word = "'" := by decide
  rcases readable with ⟨c, found, blank, mark, rfl⟩ | plain
  · rcases symbols _ (List.mem_map_of_mem found) with same | same | named | double | single
    · exact absurd (by simpa using congrArg String.toList same) blank
    · exact absurd (by simpa using congrArg String.toList same) mark
    · exact absurd admissible named
    · exact Or.inl double
    · exact Or.inr (Or.inl single)
  · exact Or.inr (Or.inr plain)

theorem name_inVocabulary {name : Word} (readable : Readable name)
    (admissible : (var name).Admissible) : (var name).InVocabulary := by
  rcases quote_or_plain readable admissible with double | single | plain
  · exact Or.inl double
  · exact Or.inr (Or.inl single)
  · obtain ⟨_, _, yes, no, digits, marker, _⟩ := admissible
    have other : name ≠ "def" := by
      rintro rfl
      exact marker (by decide)
    exact Or.inr (Or.inr ⟨plain, digits, yes, no, other⟩)

theorem lexeme_usual {word : Word} (readable : Readable word) : Usual (Lexeme.ofWord word) := by
  have sound := lexeme_sound word
  have part := part_ofWord word
  generalize Lexeme.ofWord word = lexeme at sound part
  cases part with
  | newline | tab => trivial
  | wide | blank => exact absurd readable (by decide)
  | token _ _ _ =>
    have own := spelling_ofWord word
    obtain ⟨admissible, _⟩ := sound
    generalize ofWord word = token at own admissible
    cases token with
    | var name =>
      cases own
      exact name_inVocabulary readable admissible
    | string text => cases own
    | boolean | integer | operator => trivial
    | newline | indent | dedent | define => trivial
    | comma | colon | openParen | closeParen | equals => trivial

theorem lexemes_usual {words : List Word} (readable : ∀ word ∈ words, Readable word) :
    ∀ lexeme ∈ Lexeme.ofWords words, Usual lexeme := by
  induction words using scan_induction with
  | nil => simp [Lexeme.ofWords]
  | span mark text rest quote ih =>
    simp only [List.forall_mem_cons] at readable
    obtain ⟨_, word, _, later⟩ := readable
    simp only [(scan_span quote text rest).2, List.forall_mem_cons]
    exact ⟨word, ih later⟩
  | word word rest unclosed ih =>
    simp only [List.forall_mem_cons] at readable
    simp only [(scan_word unclosed).2, List.forall_mem_cons]
    exact ⟨lexeme_usual readable.1, ih readable.2⟩

def Speaks : Except Fault (List Token) → Prop
  | .ok tokens => ∀ token ∈ tokens, token.InVocabulary
  | .error fault => fault.cause = .strayTab ∧ fault.word = Word.tab

theorem Speaks.emit {emitted : List Token} {outcome : Except Fault (List Token)}
    (known : ∀ token ∈ emitted, token.InVocabulary) (speaks : Speaks outcome) :
    Speaks (outcome.map (emitted ++ ·)) := by
  cases outcome with
  | ok tokens => exact List.forall_mem_append.mpr ⟨known, speaks⟩
  | error fault => exact speaks

theorem shift_inVocabulary (depth target : Nat) :
    ∀ token ∈ shift depth target, token.InVocabulary := by
  intro token member
  simp only [shift, List.mem_append, List.mem_replicate] at member
  rcases member with ⟨_, rfl⟩ | ⟨_, rfl⟩ <;> trivial

/-- The layout adds only marks of its own, and blames a blank only if there is one. -/
theorem arrange_speaks {lexemes : List Lexeme} (usual : ∀ lexeme ∈ lexemes, Usual lexeme)
    (depth line : Nat) (place : Place) : Speaks (arrange depth line place lexemes) := by
  induction lexemes generalizing depth line place with
  | nil =>
    cases place with
    | inside => simp [arrange, Speaks]
    | margin tabs => exact shift_inVocabulary depth tabs
  | cons lexeme rest ih =>
    simp only [List.forall_mem_cons] at usual
    obtain ⟨here, later⟩ := usual
    cases lexeme with
    | wide | blank => exact here.elim
    | newline =>
      have behind := ih later depth (line + 1) (.margin 0)
      have known : ∀ token ∈ [Token.newline], token.InVocabulary := by simp [InVocabulary]
      cases place with
      | inside => exact behind.emit known
      | margin tabs => exact behind
    | tab =>
      cases place with
      | inside => exact ⟨rfl, rfl⟩
      | margin tabs => exact ih later depth line (.margin (tabs + 1))
    | token token =>
      have known : ∀ other ∈ shift depth (settled depth place) ++ [token], other.InVocabulary :=
        List.forall_mem_append.mpr ⟨shift_inVocabulary _ _, List.forall_mem_singleton.mpr here⟩
      have behind := (ih later (settled depth place) line .inside).emit known
      rw [arrange_token]
      simpa only [List.append_assoc, List.singleton_append] using behind

end SnakeFront.Token

namespace SnakeFront.Source

open Token Word

theorem tokens_speak (source : Source) : Speaks source.tokens :=
  arrange_speaks (lexemes_usual (readable_of_mem source.chars)) 0 1 .inside

theorem readable_of_string {source : Source} {tokens : List Token} {text : String}
    (read : source.tokens = .ok tokens) (member : .string text ∈ tokens) : Readable text := by
  have speaks := tokens_speak source
  rw [read] at speaks
  exact speaks _ member

/-- A source has no tokens only for a stray tab. A name among its tokens is a quote, or a plain word
that is no number and none of three words; the text of a string is a single word. -/
theorem source_vocabulary (source : Source) :
    (∀ fault, source.tokens = .error fault →
      fault.cause = .strayTab ∧ fault.word = "\t") ∧
    ∀ tokens, source.tokens = .ok tokens →
      (∀ name, .var name ∈ tokens → name = "\"" ∨ name = "'" ∨
        PlainWord name ∧ ¬ Digits name ∧ name ≠ "True" ∧ name ≠ "False" ∧ name ≠ "def") ∧
      ∀ text, .string text ∈ tokens → Readable text := by
  have speaks := tokens_speak source
  constructor
  · intro fault refused
    rw [refused] at speaks
    exact speaks
  · intro tokens read
    rw [read] at speaks
    exact ⟨fun name member => speaks _ member, fun text member => readable_of_string read member⟩

theorem open_quote_and_quoted_tab :
    let source := ofText "\"\t\" = _1'"
    let tokens := [.string "\t", .equals, .var "_1", .var "'"]
    source.tokens = .ok tokens ∧
      (∀ name, .var name ∈ tokens → name = "\"" ∨ name = "'" ∨
        PlainWord name ∧ ¬ Digits name ∧ name ≠ "True" ∧ name ≠ "False" ∧ name ≠ "def") ∧
      ∀ text, .string text ∈ tokens → Readable text := by
  intro source tokens
  have words : source.words = ["\"", "\t", "\"", "=", "_1", "'"] := by
    rw [Source.words, split_line (by decide)]
    decide
  have read : source.tokens = .ok tokens := by
    rw [Source.tokens, words]
    rfl
  exact ⟨read, (source_vocabulary source).2 tokens read⟩

theorem words_quoted {mark : Char} (quote : mark = '"' ∨ mark = '\'') {text : String}
    (readable : Readable text) :
    (ofText (String.singleton mark ++ text ++ String.singleton mark)).words =
      [String.singleton mark, text, String.singleton mark] := by
  have symbol : isReserved mark = true ∧ mark ≠ ' ' ∧ mark ≠ '#' := by
    rcases quote with rfl | rfl <;> decide
  obtain ⟨reserved, blank, comment⟩ := symbol
  have ends : ∀ c ∈ [mark].head?, isPlain c = false := by simp [isPlain, reserved]
  simp only [words, ofText, String.toList_append, String.toList_singleton, List.cons_append,
    List.nil_append]
  rw [split_symbol reserved blank comment, split_readable readable ends,
    split_symbol reserved blank comment, split_nil]

/-- A text in quotes is read as one string, with that text, exactly if it can be read as a word. A
text that is empty, holds a space or a comment mark, or has more words than one is not among the
strings of its quotation at all. -/
theorem quotation_iff_word {mark : Char} (quote : mark = '"' ∨ mark = '\'') (text : String) :
    let source := ofText (String.singleton mark ++ text ++ String.singleton mark)
    (source.tokens = .ok [.string text] ↔ Readable text) ∧
    (text = "" ∨ ' ' ∈ text.toList ∨ '#' ∈ text.toList ∨ 1 < (split text.toList).length →
      ∀ tokens, source.tokens = .ok tokens → .string text ∉ tokens) := by
  intro source
  refine ⟨⟨fun read => readable_of_string read (by simp), ?_⟩, ?_⟩
  · intro readable
    have spans : Lexeme.isQuote (String.singleton mark) = true := by
      rcases quote with rfl | rfl <;> decide
    rw [Source.tokens, words_quoted quote readable, ofWords, (scan_span spans text []).2]
    rfl
  · intro unfit tokens read member
    have readable := readable_of_string read member
    rcases unfit with rfl | space | comment | several
    · exact absurd readable (by decide)
    · exact (readable.ne_of_mem space).1 rfl
    · exact (readable.ne_of_mem comment).2 rfl
    · simp [readable_iff_split.mp readable] at several

theorem newline_quoted_and_blank_not :
    (Readable "\n" ∧ (ofText "'\n'").tokens = .ok [.string "\n"]) ∧
      ¬ Readable " " ∧ (ofText "\" \"").tokens ≠ .ok [.string " "] := by
  have word : Readable "\n" := by decide
  have none : ¬ Readable " " := by decide
  have single := @quotation_iff_word '\'' (Or.inr rfl) "\n"
  have double := @quotation_iff_word '"' (Or.inl rfl) " "
  exact ⟨⟨word, single.1.mpr word⟩, none, fun read => none (double.1.mp read)⟩

end SnakeFront.Source
