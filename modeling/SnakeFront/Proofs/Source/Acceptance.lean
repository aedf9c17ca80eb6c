import Mathlib.Data.List.Infix
import SnakeFront.Proofs.Token.Passage
import SnakeFront.Proofs.Token.Spelling
import SnakeFront.Proofs.Word.Joining

/-! Which sources have tokens, told from their characters. Without quotes, only a tab word can be
out of place: anywhere on the first line, and behind the margin on a later one. Main statement: a
source is refused exactly if one of its lines, up to the comment, has a tab or four spaces there,
and the first such line is reported. -/
namespace SnakeFront.Word

/-- The characters of a line up to its first comment mark. -/
def visible (line : List Char) : List Char := line.takeWhile (· ≠ '#')

/-- There is a tab in the text, or four spaces in a row. -/
def Indents (text : List Char) : Prop := '\t' ∈ text ∨ List.replicate 4 ' ' <:+: text

/-- The text indents behind some character that is neither a space nor a tab. -/
def IndentsBehind (text : List Char) : Prop :=
  ∃ front c back, text = front ++ c :: back ∧ c ≠ ' ' ∧ c ≠ '\t' ∧ Indents back

section
variable {c : Char} {run text : List Char}

theorem Indents.append_left (front : List Char) (indents : Indents text) :
    Indents (front ++ text) := by
  rcases indents with tab | spaces
  · exact Or.inl (List.mem_append_right front tab)
  · exact Or.inr (spaces.trans (List.suffix_append front text).isInfix)

theorem IndentsBehind.indents (behind : IndentsBehind text) : Indents text := by
  obtain ⟨front, c, back, rfl, _, _, indents⟩ := behind
  exact (indents.append_left [c]).append_left front

theorem indents_run (others : ∀ c ∈ run, c ≠ ' ' ∧ c ≠ '\t') :
    Indents (run ++ text) ↔ Indents text := by
  induction run with
  | nil => exact Iff.rfl
  | cons c rest ih =>
    rw [List.forall_mem_cons] at others
    obtain ⟨⟨space, tab⟩, others⟩ := others
    have apart : ¬ List.replicate 4 ' ' <+: c :: (rest ++ text) :=
      fun starts => space (List.cons_prefix_cons.mp starts).1.symm
    rw [← ih others, List.cons_append, Indents, Indents, List.infix_cons_iff, List.mem_cons]
    simp only [tab.symm, apart, false_or]

theorem spaces_prefix_iff (next : ∀ tail, text ≠ ' ' :: tail) (wanted count : Nat) :
    List.replicate wanted ' ' <+: List.replicate count ' ' ++ text ↔ wanted ≤ count := by
  induction wanted generalizing count with
  | zero => simp
  | succ wanted ih =>
    cases count with
    | zero =>
      refine iff_of_false ?_ (Nat.not_succ_le_zero wanted)
      rintro ⟨tail, same⟩
      exact next _ same.symm
    | succ count =>
      rw [List.replicate_succ, List.replicate_succ, List.cons_append, List.cons_prefix_cons, ih]
      simp

theorem spaces_infix_iff (next : ∀ tail, text ≠ ' ' :: tail) (count : Nat) :
    List.replicate 4 ' ' <:+: List.replicate count ' ' ++ text ↔
      4 ≤ count ∨ List.replicate 4 ' ' <:+: text := by
  induction count with
  | zero => simp
  | succ count ih =>
    have longer : List.replicate (count + 1) ' ' ++ text =
        ' ' :: (List.replicate count ' ' ++ text) := rfl
    have here := spaces_prefix_iff next 4 (count + 1)
    rw [longer] at here ⊢
    rw [List.infix_cons_iff, here, ih, ← or_assoc]
    refine or_congr_left ?_
    omega

theorem indents_blanks (longest : LongestRun isBlank run text) :
    Indents (run ++ text) ↔ 4 ≤ run.length ∨ Indents text := by
  have tab : '\t' ∉ run := fun member => Bool.noConfusion (longest.all '\t' member)
  have spaces := spaces_infix_iff longest.no_space_behind run.length
  rw [← longest.eq_spaces] at spaces
  rw [Indents, Indents, List.mem_append, spaces, or_iff_right tab]
  exact or_left_comm

theorem indentsBehind_cons :
    IndentsBehind (c :: text) ↔ (c ≠ ' ' ∧ c ≠ '\t') ∧ Indents text ∨ IndentsBehind text := by
  constructor
  · rintro ⟨front, d, back, same, space, tab, indents⟩
    cases front with
    | nil =>
      obtain ⟨rfl, rfl⟩ := List.cons.inj same
      exact Or.inl ⟨⟨space, tab⟩, indents⟩
    | cons e front => exact Or.inr ⟨front, d, back, (List.cons.inj same).2, space, tab, indents⟩
  · rintro (⟨⟨space, tab⟩, indents⟩ | ⟨front, d, back, rfl, space, tab, indents⟩)
    · exact ⟨[], c, text, rfl, space, tab, indents⟩
    · exact ⟨c :: front, d, back, rfl, space, tab, indents⟩

theorem indentsBehind_margin (margin : ∀ c ∈ run, c = ' ' ∨ c = '\t') :
    IndentsBehind (run ++ text) ↔ IndentsBehind text := by
  induction run with
  | nil => exact Iff.rfl
  | cons c rest ih =>
    rw [List.forall_mem_cons] at margin
    rw [List.cons_append, indentsBehind_cons, ih margin.2]
    refine or_iff_right ?_
    rintro ⟨⟨space, tab⟩, _⟩
    exact margin.1.elim space tab

theorem indentsBehind_other (space : c ≠ ' ') (tab : c ≠ '\t') :
    IndentsBehind (c :: text) ↔ Indents text := by
  rw [indentsBehind_cons]
  constructor
  · rintro (⟨_, indents⟩ | behind)
    · exact indents
    · exact behind.indents
  · exact fun indents => Or.inl ⟨⟨space, tab⟩, indents⟩

end

/-- The tabs among the words tell where the text indents. -/
structure Tells (words : List Word) (text : List Char) : Prop where
  anywhere : tab ∈ words ↔ Indents text
  behind : tab ∈ words.dropWhile (· = tab) ↔ IndentsBehind text

namespace Tells

variable {words : List Word} {first : Word} {run text : List Char}

theorem nil : Tells [] [] where
  anywhere := by simp [Indents]
  behind := by simp [IndentsBehind]

theorem blanks (longest : LongestRun isBlank run text) (tells : Tells words text) :
    Tells (List.replicate (run.length / 4) tab ++ words) (run ++ text) where
  anywhere := by
    have some : run.length / 4 ≠ 0 ↔ 4 ≤ run.length := by omega
    rw [indents_blanks longest, List.mem_append, List.mem_replicate, tells.anywhere]
    simp [some]
  behind := by
    have margin : ∀ c ∈ run, c = ' ' ∨ c = '\t' :=
      fun c member => Or.inl (by simpa [isBlank] using longest.all c member)
    rw [indentsBehind_margin margin, ← tells.behind]
    rw [List.dropWhile_append_of_pos fun word member => by simp [List.eq_of_mem_replicate member]]

theorem tab (tells : Tells words text) : Tells (tab :: words) ('\t' :: text) where
  anywhere := by simp [Indents]
  behind := by
    have margin : IndentsBehind ('\t' :: text) ↔ IndentsBehind text :=
      @indentsBehind_margin ['\t'] text (by simp)
    rw [margin, ← tells.behind, List.dropWhile_cons_of_pos (by simp)]

theorem word (nonempty : run ≠ []) (others : ∀ c ∈ run, c ≠ ' ' ∧ c ≠ '\t')
    (different : first ≠ Word.tab) (tells : Tells words text) :
    Tells (first :: words) (run ++ text) where
  anywhere := by
    rw [indents_run others, ← tells.anywhere, List.mem_cons]
    exact or_iff_right different.symm
  behind := by
    obtain ⟨c, rest, rfl⟩ := List.exists_cons_of_ne_nil nonempty
    rw [List.forall_mem_cons] at others
    rw [List.cons_append, indentsBehind_other others.1.1 others.1.2, indents_run others.2,
      ← tells.anywhere, List.dropWhile_cons_of_neg (by simpa using different), List.mem_cons]
    exact or_iff_right different.symm

end Tells

section
variable {line run rest : List Char}

theorem LongestRun.visible {p : Char → Bool} (longest : LongestRun p run rest) :
    LongestRun p run (visible rest) := by
  refine ⟨longest.nonempty, longest.all, ?_⟩
  intro c head
  refine longest.ends c ?_
  cases rest with
  | nil => cases head
  | cons d tail =>
    by_cases mark : d = '#'
    · simp [Word.visible, mark] at head
    · simpa [Word.visible, mark] using head

theorem tells_line (single : '\n' ∉ line) : Tells (split line) (visible line) := by
  induction line using run_induction with
  | nil =>
    rw [split_nil]
    exact .nil
  | blanks run rest longest ih =>
    have mark : '#' ∉ run := fun member => Bool.noConfusion (longest.all '#' member)
    rw [split_blanks longest, visible, takeWhile_unmarked mark]
    exact .blanks longest.visible (ih fun later => single (by simp [later]))
  | comment run rest longest ih =>
    have last := longest.last_of_line fun later => single (by simp [later])
    rw [split_comment longest, last, split_nil]
    exact .nil
  | symbol c rest reserved blank mark ih =>
    have behind := ih fun later => single (by simp [later])
    have front : visible (c :: rest) = c :: visible rest := by simp [visible, mark]
    rw [split_symbol reserved blank mark, front]
    by_cases same : c = '\t'
    · subst same
      exact behind.tab
    · refine .word (List.cons_ne_nil c []) (by simpa using ⟨blank, same⟩) ?_ behind
      intro equal
      exact same (by simpa [tab] using congrArg String.toList equal)
  | plain run rest longest ih =>
    have behind := ih fun later => single (by simp [later])
    have mark : '#' ∉ run := fun member => Bool.noConfusion (longest.all '#' member)
    rw [split_plain longest, visible, takeWhile_unmarked mark]
    have others : ∀ c ∈ run, c ≠ ' ' ∧ c ≠ '\t' := by
      intro c member
      constructor <;> rintro rfl <;> exact Bool.noConfusion (longest.all _ member)
    refine .word longest.nonempty others ?_ behind
    intro equal
    have chars : run = ['\t'] := by simpa [tab] using congrArg String.toList equal
    exact (others '\t' (by simp [chars])).2 rfl

theorem mem_visible {word : Word} (member : word ∈ lineWords line) :
    word = tab ∨ ∀ c ∈ word.toList, c ∈ visible line := by
  obtain ⟨piece, found, from_piece⟩ := List.mem_flatMap.mp member
  rw [pieceWords] at from_piece
  split at from_piece
  · exact Or.inl (List.eq_of_mem_replicate from_piece)
  · refine Or.inr fun c inside => ?_
    rw [List.mem_singleton.mp from_piece, String.toList_ofList] at inside
    rw [visible, ← List.flatten_splitBy joined (line.takeWhile _)]
    exact List.mem_flatten.mpr ⟨piece, found, inside⟩

/-- A tab, or a word that is read as a token by itself. -/
def Regular (word : Word) : Prop :=
  Lexeme.isQuote word = false ∧ (word = tab ∨ ∃ token, Lexeme.ofWord word = .token token)

theorem regular_of_mem {word : Word} (single : '\n' ∉ line)
    (unquoted : ∀ c ∈ visible line, c ≠ '"' ∧ c ≠ '\'') (member : word ∈ split line) :
    Regular word := by
  have readable := readable_of_mem line word member
  rw [split_line single] at member
  rcases mem_visible member with rfl | inside
  · exact ⟨rfl, Or.inl rfl⟩
  · constructor
    · rw [Bool.eq_false_iff]
      intro quote
      rcases Token.isQuote_iff.mp quote with rfl | rfl
      · exact (unquoted '"' (inside '"' (by simp))).1 rfl
      · exact (unquoted '\'' (inside '\'' (by simp))).2 rfl
    · have part := Token.part_ofWord word
      generalize Lexeme.ofWord word = lexeme at part
      cases part with
      | newline =>
        have shown : '\n' ∈ visible line := inside '\n' (by simp [newline])
        exact absurd ((List.takeWhile_prefix _).mem shown) single
      | tab => exact Or.inl rfl
      | wide => exact absurd readable (by decide)
      | blank => exact absurd readable (by decide)
      | token _ _ _ => exact Or.inr ⟨_, rfl⟩

end

theorem line_induction {P : List Char → Prop} (last : ∀ line, '\n' ∉ line → P line)
    (more : ∀ line rest, '\n' ∉ line → P rest → P (line ++ '\n' :: rest)) (text : List Char) :
    P text := by
  induction size : text.length using Nat.strongRecOn generalizing text with
  | ind size ih =>
    by_cases newline : '\n' ∈ text
    · obtain ⟨line, rest, rfl, single⟩ := List.eq_append_cons_of_mem newline
      exact more line rest single (ih rest.length (by simp [← size]; omega) rest rfl)
    · exact last text newline

end SnakeFront.Word

namespace SnakeFront.Layout

open Token

/-- A tab stands among the words of a line where it is not counted for the margin. -/
def Stray (words : List Word) : Place → Prop
  | .inside => Word.tab ∈ words
  | .margin _ => Word.tab ∈ words.dropWhile (· = Word.tab)

theorem stray_word {word : Word} (other : word ≠ Word.tab) (words : List Word) (place : Place) :
    Stray (word :: words) place ↔ Stray words .inside := by
  have later : Word.tab ∈ word :: words ↔ Word.tab ∈ words :=
    List.mem_cons.trans (or_iff_right other.symm)
  cases place with
  | inside => exact later
  | margin tabs =>
    rw [Stray, Stray, List.dropWhile_cons_of_neg (by simpa using other)]
    exact later

theorem stray_tab (words : List Word) (tabs : Nat) :
    Stray (Word.tab :: words) (.margin tabs) ↔ Stray words (.margin (tabs + 1)) := by
  rw [Stray, List.dropWhile_cons_of_pos (by simp)]
  rfl

theorem arrange_line {words : List Word} (regular : ∀ word ∈ words, Word.Regular word)
    (depth : Nat) (place : Place) :
    Stray words place ∧ (∀ line rest,
      arrange depth line place (Lexeme.ofWords words ++ rest) =
        .error ⟨.strayTab, Word.tab, line⟩) ∨
    ¬ Stray words place ∧ ∃ emitted target next, ∀ line rest,
      arrange depth line place (Lexeme.ofWords words ++ rest) =
        (arrange target line next rest).map (emitted ++ ·) := by
  induction words generalizing depth place with
  | nil =>
    refine Or.inr ⟨?_, [], depth, place, fun line rest => (map_append_nil _).symm⟩
    cases place with
    | inside | margin => simp [Stray]
  | cons word others ih =>
    rw [List.forall_mem_cons] at regular
    obtain ⟨⟨plain, kind⟩, later⟩ := regular
    rw [ofWords_cons plain]
    rcases kind with rfl | ⟨token, own⟩
    · have tab : Lexeme.ofWord Word.tab = .tab := rfl
      rw [tab]
      cases place with
      | inside => exact Or.inl ⟨List.mem_cons_self, fun line rest => rfl⟩
      | margin tabs =>
        rw [stray_tab]
        exact ih later depth (.margin (tabs + 1))
    · have other : word ≠ Word.tab := by
        rintro rfl
        cases own
      rw [own, stray_word other]
      rcases ih later (settled depth place) .inside with
        ⟨stray, refused⟩ | ⟨clear, emitted, target, next, passed⟩
      · refine Or.inl ⟨stray, fun line rest => ?_⟩
        rw [List.cons_append, arrange_token, refused]
        rfl
      · refine Or.inr ⟨clear, shift depth (settled depth place) ++ token :: emitted, target, next,
          fun line rest => ?_⟩
        rw [List.cons_append, arrange_token, passed]
        cases arrange target line next rest with
        | ok tokens => simp [Except.map]
        | error fault => rfl

theorem arrange_newline (depth line : Nat) (place : Place) (rest : List Lexeme) :
    ∃ emitted, arrange depth line place (.newline :: rest) =
      (arrange depth (line + 1) (.margin 0) rest).map (emitted ++ ·) := by
  cases place with
  | inside => exact ⟨[.newline], rfl⟩
  | margin tabs => exact ⟨[], (map_append_nil _).symm⟩

end SnakeFront.Layout

namespace SnakeFront.Source

open Layout Token Word

/-- The line with this number, counted from zero, indents where it must not: anywhere if it is the
first, else behind its margin. -/
def Offends : Nat → List Char → Prop
  | 0, line => Indents (visible line)
  | _ + 1, line => IndentsBehind (visible line)

def entry : Nat → Place
  | 0 => .inside
  | _ + 1 => .margin 0

theorem stray_entry_iff {line : List Char} (single : '\n' ∉ line) (number : Nat) :
    Stray (split line) (entry number) ↔ Offends number line := by
  cases number with
  | zero => exact (tells_line single).anywhere
  | succ number => exact (tells_line single).behind

def LineVerdict (lines : List (List Char)) (number : Nat) : Except Fault (List Token) → Prop
  | .ok _ => ∀ i line, lines[i]? = some line → ¬ Offends (number + i) line
  | .error fault => ∃ i line, lines[i]? = some line ∧ Offends (number + i) line ∧
      (∀ earlier < i, ∀ other, lines[earlier]? = some other → ¬ Offends (number + earlier) other) ∧
      fault = ⟨.strayTab, Word.tab, number + i + 1⟩

namespace LineVerdict

variable {lines : List (List Char)} {line : List Char} {number : Nat}
  {outcome : Except Fault (List Token)}

theorem map (f : List Token → List Token) (verdict : LineVerdict lines number outcome) :
    LineVerdict lines number (outcome.map f) := by
  cases outcome with
  | ok tokens => exact verdict
  | error fault => exact verdict

theorem here (offends : Offends number line) (rest : List (List Char)) :
    LineVerdict (line :: rest) number (.error ⟨.strayTab, Word.tab, number + 1⟩) :=
  ⟨0, line, rfl, offends, fun earlier below => absurd below (Nat.not_lt_zero earlier), rfl⟩

theorem cons (clear : ¬ Offends number line) (verdict : LineVerdict lines (number + 1) outcome) :
    LineVerdict (line :: lines) number outcome := by
  have shifted : ∀ i, number + (i + 1) = number + 1 + i := fun i => by omega
  cases outcome with
  | ok tokens =>
    intro i other found
    cases i with
    | zero =>
      cases found
      exact clear
    | succ i =>
      rw [shifted]
      exact verdict i other found
  | error fault =>
    obtain ⟨i, other, found, offends, first, reported⟩ := verdict
    refine ⟨i + 1, other, found, shifted i ▸ offends, ?_, shifted i ▸ reported⟩
    intro earlier below another foundToo
    cases earlier with
    | zero =>
      cases foundToo
      exact clear
    | succ earlier =>
      rw [shifted]
      exact first earlier (Nat.lt_of_succ_lt_succ below) another foundToo

end LineVerdict

/-- No quote stands in front of a comment. -/
def Unquoted (text : List Char) : Prop :=
  ∀ line ∈ text.splitOn '\n', ∀ c ∈ visible line, c ≠ '"' ∧ c ≠ '\''

-- Only the characters at hand are looked at, not all there are.
instance : DecidablePred Unquoted := fun text =>
  have (line : List Char) := List.decidableBAll (fun c => c ≠ '"' ∧ c ≠ '\'') (visible line)
  List.decidableBAll (fun line => ∀ c ∈ visible line, c ≠ '"' ∧ c ≠ '\'') (text.splitOn '\n')

/-- The layout finds the first line that indents where it must not. -/
theorem arrange_lines {text : List Char} (unquoted : Unquoted text) (depth number : Nat) :
    LineVerdict (text.splitOn '\n') number
      (arrange depth (number + 1) (entry number) (Lexeme.ofWords (split text))) := by
  -- The induction is along the lines; a line that is passed over leaves some depth and some place
  -- behind, and the newline makes the next line start at its margin again.
  induction text using line_induction generalizing depth number with
  | last line single =>
    rw [Unquoted, List.splitOn_eq_singleton single, List.forall_mem_singleton] at unquoted
    have regular := fun word => @regular_of_mem line word single unquoted
    rw [List.splitOn_eq_singleton single, ← List.append_nil (Lexeme.ofWords (split line))]
    rcases arrange_line regular depth (entry number) with
      ⟨stray, refused⟩ | ⟨clear, emitted, target, next, passed⟩
    · rw [refused]
      exact .here ((stray_entry_iff single number).mp stray) []
    · rw [passed]
      refine .map _ (.cons (mt (stray_entry_iff single number).mpr clear) ?_)
      cases next with
      | inside | margin =>
        intro i other found
        cases found
  | more line rest single ih =>
    rw [Unquoted, List.splitOn_append_cons_self_of_not_mem single, List.forall_mem_cons] at unquoted
    have regular := fun word => @regular_of_mem line word single unquoted.1
    have ends : EndsUnquoted (split line) :=
      fun word last => (regular word (List.mem_of_getLast? last)).1
    rw [List.splitOn_append_cons_self_of_not_mem single, split_newline, (scan_newline ends _).2]
    rcases arrange_line regular depth (entry number) with
      ⟨stray, refused⟩ | ⟨clear, emitted, target, next, passed⟩
    · rw [refused]
      exact .here ((stray_entry_iff single number).mp stray) _
    · obtain ⟨opened, behind⟩ := arrange_newline target (number + 1) next
        (Lexeme.ofWords (split rest))
      rw [passed, behind]
      exact .map _ (.map _ (.cons (mt (stray_entry_iff single number).mpr clear)
        (ih unquoted.2 target (number + 1))))

/-- Without quotes outside comments, a source has no tokens exactly if a line, up to its comment,
has a tab or four spaces in a row: anywhere on the first line, and on a later line behind some
character that is neither a space nor a tab. The fault is then a stray tab, reported with the number
of the first such line. -/
theorem refused_iff_offending_line {source : Source} (unquoted : Unquoted source.chars) :
    let lines := source.chars.splitOn '\n'
    ((∃ fault, source.tokens = .error fault) ↔
      ∃ number line, lines[number]? = some line ∧ Offends number line) ∧
    ∀ fault, source.tokens = .error fault →
      fault.cause = .strayTab ∧ fault.word = "\t" ∧
      ∃ number line, lines[number]? = some line ∧ Offends number line ∧
        (∀ earlier < number, ∀ other, lines[earlier]? = some other → ¬ Offends earlier other) ∧
        fault.line = number + 1 := by
  intro lines
  have verdict : LineVerdict lines 0 source.tokens := arrange_lines unquoted 0 0
  cases outcome : source.tokens with
  | ok tokens =>
    rw [outcome] at verdict
    refine ⟨iff_of_false (by simp) ?_, by simp⟩
    rintro ⟨number, line, found, offends⟩
    exact verdict number line found (by simpa using offends)
  | error fault =>
    rw [outcome] at verdict
    obtain ⟨number, line, found, offends, first, rfl⟩ := verdict
    simp only [Nat.zero_add] at offends first
    refine ⟨iff_of_true ⟨_, rfl⟩ ⟨number, line, found, offends⟩, ?_⟩
    rintro _ ⟨⟩
    exact ⟨rfl, rfl, number, line, found, offends, first, by simp⟩

/-- Quotes and a tab in a comment and the margin of the second line do no harm; the four spaces on
the third do. -/
theorem four_spaces_reported_on_third_line :
    let source := ofText "a # \"\t\n\tb\nc    d"
    Unquoted source.chars ∧ source.tokens = .error ⟨.strayTab, "\t", 3⟩ ∧
      ∃ number line, (source.chars.splitOn '\n')[number]? = some line ∧ Offends number line ∧
        3 = number + 1 := by
  intro source
  have unquoted : Unquoted source.chars := by decide
  have parted : source.chars =
      "a # \"\t".toList ++ '\n' :: ("\tb".toList ++ '\n' :: "c    d".toList) := by decide
  have words : source.words = ["a", "\n", "\t", "b", "\n", "c", "\t", "d"] := by
    rw [Source.words, parted, split_newline, split_newline, split_line (by decide),
      split_line (by decide), split_line (by decide)]
    decide
  have refused : source.tokens = .error ⟨.strayTab, "\t", 3⟩ := by
    rw [Source.tokens, words]
    rfl
  obtain ⟨_, _, number, line, found, offends, _, reported⟩ :=
    (refused_iff_offending_line unquoted).2 _ refused
  exact ⟨unquoted, refused, number, line, found, offends, reported⟩

end SnakeFront.Source
