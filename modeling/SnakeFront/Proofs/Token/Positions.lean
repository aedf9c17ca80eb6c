import SnakeFront.Token.Layout

/-! Where a word stands: inside quotes or outside, and at the margin of a line or behind its first
token. Both are said of positions in the whole word list, without the lexemes. A run of the layout
over the list is then followed position by position. -/
namespace SnakeFront.Token

open Layout

inductive Role where
  | bare
  | opening
  | quoted
  | closing
deriving DecidableEq

/-- The roles of the words. A quote that comes back two words later takes in the three words, and
the words behind them are looked at afresh. -/
def roles : List Word → List Role
  | mark :: text :: close :: rest =>
    if Lexeme.isQuote mark ∧ close = mark then .opening :: .quoted :: .closing :: roles rest
    else .bare :: roles (text :: close :: rest)
  | _ :: rest => .bare :: roles rest
  | [] => []

/-- The word stands at the position and has the role. -/
def Plays (role : Role) (words : List Word) (position : Nat) (word : Word) : Prop :=
  words[position]? = some word ∧ (roles words)[position]? = some role

abbrev Bare := Plays .bare

instance (role : Role) (words : List Word) (position : Nat) (word : Word) :
    Decidable (Plays role words position word) :=
  inferInstanceAs (Decidable (_ ∧ _))

/-- The position is behind a bare newline, with only bare newlines, tabs and wide blanks between. -/
def InMargin (words : List Word) (position : Nat) : Prop :=
  ∃ start < position, Bare words start Word.newline ∧
    ∀ between < position, start < between →
      Bare words between Word.newline ∨ Bare words between Word.tab ∨ Bare words between Word.wide

instance (words : List Word) (position : Nat) : Decidable (InMargin words position) :=
  inferInstanceAs (Decidable (∃ start < position, _))

def isTab (word : Word) : Bool := word = Word.tab || word = Word.wide

theorem isTab_iff {word : Word} : isTab word = true ↔ word = Word.tab ∨ word = Word.wide := by
  simp [isTab]

/-- How many newlines of the role stand before the position. -/
def newlinesBefore (role : Role) (words : List Word) (position : Nat) : Nat :=
  (List.range position).countP fun earlier => Plays role words earlier Word.newline

/-- The last bare newline before the position. -/
def lastNewline (words : List Word) : Nat → Option Nat
  | 0 => none
  | position + 1 =>
    if Bare words position Word.newline then some position else lastNewline words position

/-- How far the line at the position is indented: the tabs and wide blanks directly behind the last
bare newline, and none if there is no such newline. -/
def indentation (words : List Word) (position : Nat) : Nat :=
  match lastNewline words position with
  | some start => ((words.drop (start + 1)).takeWhile isTab).length
  | none => 0

section
variable {words : List Word} {position : Nat} {role other : Role} {word another : Word}

theorem Plays.word_unique (one : Plays role words position word)
    (two : Plays other words position another) : word = another :=
  Option.some.inj (one.1.symm.trans two.1)

theorem Plays.role_unique (one : Plays role words position word)
    (two : Plays other words position another) : role = other :=
  Option.some.inj (one.2.symm.trans two.2)

theorem Plays.not_bare (plays : Plays role words position word) (quoted : role ≠ .bare)
    (another : Word) : ¬ Bare words position another :=
  fun bare => quoted (plays.role_unique bare)

theorem not_inMargin_zero (words : List Word) : ¬ InMargin words 0 := by
  rintro ⟨start, below, _⟩
  exact Nat.not_lt_zero start below

theorem inMargin_succ (words : List Word) (position : Nat) :
    InMargin words (position + 1) ↔ Bare words position Word.newline ∨
      InMargin words position ∧ (Bare words position Word.tab ∨ Bare words position Word.wide) := by
  constructor
  · rintro ⟨start, below, newline, between⟩
    rcases Nat.lt_succ_iff_lt_or_eq.mp below with before | rfl
    · rcases between position (Nat.lt_succ_self position) before with here | indents
      · exact Or.inl here
      · exact Or.inr ⟨⟨start, before, newline, fun i under => between i (by omega)⟩, indents⟩
    · exact Or.inl newline
  · rintro (newline | ⟨⟨start, below, newline, between⟩, indents⟩)
    · exact ⟨position, Nat.lt_succ_self position, newline, fun i _ _ => by omega⟩
    · refine ⟨start, by omega, newline, ?_⟩
      intro i under above
      rcases Nat.lt_succ_iff_lt_or_eq.mp under with before | rfl
      · exact between i before above
      · exact Or.inr indents

theorem newlinesBefore_newline (newline : Plays role words position Word.newline) :
    newlinesBefore role words (position + 1) = newlinesBefore role words position + 1 := by
  simp [newlinesBefore, List.range_succ, newline]

theorem newlinesBefore_succ (other : ¬ Plays role words position Word.newline) :
    newlinesBefore role words (position + 1) = newlinesBefore role words position := by
  simp [newlinesBefore, List.range_succ, other]

theorem indentation_newline (newline : Bare words position Word.newline) :
    indentation words (position + 1) = ((words.drop (position + 1)).takeWhile isTab).length := by
  rw [indentation, lastNewline, if_pos newline]

theorem indentation_succ (other : ¬ Bare words position Word.newline) :
    indentation words (position + 1) = indentation words position := by
  rw [indentation, lastNewline, if_neg other, indentation]

end

/-- The word opens quotes that close two words later. -/
def Closes (word : Word) (rest : List Word) : Prop := Lexeme.isQuote word ∧ rest[1]? = some word

theorem scan_word {word : Word} {rest : List Word} (unclosed : ¬ Closes word rest) :
    roles (word :: rest) = .bare :: roles rest ∧
      Lexeme.ofWords (word :: rest) = Lexeme.ofWord word :: Lexeme.ofWords rest := by
  match rest with
  | [] | [_] => exact ⟨rfl, rfl⟩
  | text :: close :: others =>
    have apart : ¬ (Lexeme.isQuote word ∧ close = word) := by
      rintro ⟨quote, rfl⟩
      exact unclosed ⟨quote, rfl⟩
    exact ⟨by rw [roles, if_neg apart], by rw [Lexeme.ofWords, if_neg apart]⟩

theorem scan_span {mark : Word} (quote : Lexeme.isQuote mark) (text : Word) (rest : List Word) :
    roles (mark :: text :: mark :: rest) = .opening :: .quoted :: .closing :: roles rest ∧
      Lexeme.ofWords (mark :: text :: mark :: rest) =
        .token (.string text) :: Lexeme.ofWords rest := by
  simp [roles, Lexeme.ofWords, quote]

inductive Part : Word → Lexeme → Prop where
  | newline : Part Word.newline .newline
  | tab : Part Word.tab .tab
  | wide : Part Word.wide .wide
  | blank : Part Word.blank .blank
  | token {word : Word} : word ≠ Word.newline → isTab word = false → word ≠ Word.blank →
      Part word (.token (ofWord word))

theorem part_ofWord (word : Word) : Part word (Lexeme.ofWord word) := by
  unfold Lexeme.ofWord
  split
  next same => exact same ▸ .newline
  next newline =>
    split
    next same => exact same ▸ .tab
    next tab =>
      split
      next same => exact same ▸ .wide
      next wide =>
        split
        next same => exact same ▸ .blank
        next blank => exact .token newline (by simp [isTab, tab, wide]) blank

/-- Induction along the scan: a quoted span is taken in one step, any other word alone. -/
theorem scan_induction {P : List Word → Prop} (nil : P [])
    (span : ∀ mark text rest, Lexeme.isQuote mark → P rest → P (mark :: text :: mark :: rest))
    (word : ∀ word rest, ¬ Closes word rest → P rest → P (word :: rest)) (words : List Word) :
    P words := by
  fun_induction roles words with
  | case1 mark text close rest quoted ih =>
    obtain ⟨quote, rfl⟩ := quoted
    exact span close text rest quote ih
  | case2 mark text close rest unquoted ih =>
    refine word mark _ ?_ ih
    rintro ⟨quote, closed⟩
    exact unquoted ⟨quote, Option.some.inj closed⟩
  | case3 first rest short ih =>
    refine word first rest ?_ ih
    rintro ⟨_, closed⟩
    match rest with
    | [] | [_] => cases closed
    | text :: close :: others => exact short text close others rfl
  | case4 => exact nil

theorem isQuote_iff {word : Word} : Lexeme.isQuote word ↔ word = "\"" ∨ word = "'" := by
  simp [Lexeme.isQuote]

theorem isQuote_ne_newline {mark : Word} (quote : Lexeme.isQuote mark) : mark ≠ Word.newline := by
  rcases isQuote_iff.mp quote with rfl | rfl <;> decide

theorem newline_unclosed (rest : List Word) : ¬ Closes Word.newline rest := by
  rintro ⟨quote, _⟩
  exact isQuote_ne_newline quote rfl

theorem isQuote_not_tab {mark : Word} (quote : Lexeme.isQuote mark) : isTab mark = false := by
  rcases isQuote_iff.mp quote with rfl | rfl <;> decide

/-- What the scan has left at a position: the words, and the roles they have in the whole list. -/
structure Remains (words : List Word) (position : Nat) (rest : List Word) : Prop where
  words_eq : words.drop position = rest
  roles_eq : (roles words).drop position = roles rest

section
variable {words rest : List Word} {position : Nat} {word mark text : Word}

theorem Remains.start (words : List Word) : Remains words 0 words := ⟨rfl, rfl⟩

theorem Remains.plays (remains : Remains words position rest) (role : Role) (i : Nat)
    (word : Word) :
    Plays role words (position + i) word ↔ Plays role rest i word := by
  rw [Plays, Plays, ← remains.roles_eq, ← remains.words_eq, List.getElem?_drop, List.getElem?_drop]

theorem Remains.after_word (remains : Remains words position (word :: rest))
    (unclosed : ¬ Closes word rest) :
    Remains words (position + 1) rest ∧ Bare words position word := by
  have scanned := (scan_word unclosed).1
  refine ⟨⟨?_, ?_⟩, ?_⟩
  · rw [← List.drop_drop, remains.words_eq, List.drop_one, List.tail_cons]
  · rw [← List.drop_drop, remains.roles_eq, scanned, List.drop_one, List.tail_cons]
  · exact (remains.plays .bare 0 word).mpr ⟨rfl, by rw [scanned]; rfl⟩

theorem Remains.after_span (remains : Remains words position (mark :: text :: mark :: rest))
    (quote : Lexeme.isQuote mark) :
    Remains words (position + 3) rest ∧ Plays .opening words position mark ∧
      Plays .quoted words (position + 1) text ∧ Plays .closing words (position + 2) mark := by
  have scanned := (scan_span quote text rest).1
  refine ⟨⟨?_, ?_⟩, ?_, ?_, ?_⟩
  · rw [← List.drop_drop, remains.words_eq]
    rfl
  · rw [← List.drop_drop, remains.roles_eq, scanned]
    rfl
  · exact (remains.plays .opening 0 mark).mpr ⟨rfl, by rw [scanned]; rfl⟩
  · exact (remains.plays .quoted 1 text).mpr ⟨rfl, by rw [scanned]; rfl⟩
  · exact (remains.plays .closing 2 mark).mpr ⟨rfl, by rw [scanned]; rfl⟩

end

theorem newline_role {words : List Word} {position : Nat}
    (here : words[position]? = some Word.newline) :
    Bare words position Word.newline ∨ Plays .quoted words position Word.newline := by
  induction words using scan_induction generalizing position with
  | nil => cases here
  | span mark text rest quote ih =>
    have different := isQuote_ne_newline quote
    obtain ⟨remains, _, quoted, _⟩ :=
      (Remains.start (mark :: text :: mark :: rest)).after_span quote
    match position, here with
    | 0, here | 2, here => exact absurd (Option.some.inj here) different
    | 1, here => exact Or.inr ⟨here, quoted.2⟩
    | i + 3, here =>
      have shifted : i + 3 = 0 + 3 + i := by omega
      rw [shifted]
      exact (or_congr (remains.plays _ i _) (remains.plays _ i _)).mpr (ih here)
  | word word rest unclosed ih =>
    obtain ⟨remains, bare⟩ := (Remains.start (word :: rest)).after_word unclosed
    match position, here with
    | 0, here => exact Or.inl ⟨here, bare.2⟩
    | i + 1, here =>
      have shifted : i + 1 = 0 + 1 + i := by omega
      rw [shifted]
      exact (or_congr (remains.plays _ i _) (remains.plays _ i _)).mpr (ih here)

theorem count_newlines (words : List Word) (position : Nat) :
    (words.take position).count Word.newline =
      newlinesBefore .bare words position + newlinesBefore .quoted words position := by
  induction position with
  | zero => rfl
  | succ position ih =>
    rw [List.take_add_one, List.count_append, ih]
    by_cases here : words[position]? = some Word.newline
    · have one : (words[position]?.toList).count Word.newline = 1 := by
        rw [here]
        rfl
      rcases newline_role here with bare | quoted
      · rw [one, newlinesBefore_newline bare,
          newlinesBefore_succ fun quoted => Role.noConfusion (bare.role_unique quoted)]
        omega
      · rw [one, newlinesBefore_newline quoted, newlinesBefore_succ (quoted.not_bare (by decide) _)]
        omega
    · have none : (words[position]?.toList).count Word.newline = 0 := by
        rw [List.count_eq_zero, Option.mem_toList]
        exact here
      rw [none, newlinesBefore_succ fun bare => here bare.1,
        newlinesBefore_succ fun quoted => here quoted.1]
      omega

/-- The depth of the line as soon as its first token is read. -/
def settled (depth : Nat) : Place → Nat
  | .inside => depth
  | .margin tabs => tabs

theorem arrange_token (depth line : Nat) (place : Place) (token : Token) (rest : List Lexeme) :
    arrange depth line place (.token token :: rest) =
      (arrange (settled depth place) line .inside rest).map
        (shift depth (settled depth place) ++ token :: ·) := by
  cases place with
  | inside => simp [arrange, settled, shift]
  | margin tabs => rfl

/-- The place and the depth fit the position. At the margin, the tabs counted so far and those still
ahead make up the indentation of the line. -/
def Fits (words : List Word) (position : Nat) (rest : List Word) (depth : Nat) : Place → Prop
  | .inside => ¬ InMargin words position ∧ indentation words position = depth
  | .margin tabs =>
    InMargin words position ∧ indentation words position = tabs + (rest.takeWhile isTab).length

/-- The layout has come to a position: what it keeps in mind there is true of the words before. -/
structure Reached (words : List Word) (position : Nat) (rest : List Word) (place : Place)
    (line depth : Nat) : Prop extends Remains words position rest where
  fits : Fits words position rest depth place
  line_eq : line = 1 + newlinesBefore .bare words position

namespace Reached

variable {words rest : List Word} {position line depth tabs : Nat} {place : Place}
  {word mark text : Word}

theorem start (words : List Word) : Reached words 0 words .inside 1 0 where
  toRemains := Remains.start words
  fits := ⟨not_inMargin_zero words, rfl⟩
  line_eq := rfl

theorem inMargin_iff (reached : Reached words position rest place line depth) :
    InMargin words position ↔ place ≠ .inside := by
  cases place with
  | inside => simpa using reached.fits.1
  | margin tabs => simpa using reached.fits.1

theorem settled_eq (reached : Reached words position (word :: rest) place line depth)
    (ends : place = .inside ∨ isTab word = false) :
    indentation words position = settled depth place := by
  have fits := reached.fits
  cases place with
  | inside => exact fits.2
  | margin tabs =>
    have other : isTab word = false := by simpa using ends
    simpa [Fits, settled, other] using fits.2

theorem newline (reached : Reached words position (Word.newline :: rest) place line depth) :
    Reached words (position + 1) rest (.margin 0) (line + 1) depth := by
  obtain ⟨remains, bare⟩ := reached.toRemains.after_word (newline_unclosed rest)
  refine ⟨remains, ⟨(inMargin_succ words position).mpr (Or.inl bare), ?_⟩, ?_⟩
  · rw [indentation_newline bare, remains.words_eq, Nat.zero_add]
  · rw [newlinesBefore_newline bare, reached.line_eq, Nat.add_assoc]

theorem tab (reached : Reached words position (word :: rest) (.margin tabs) line depth)
    (indents : isTab word = true) :
    Reached words (position + 1) rest (.margin (tabs + 1)) line depth := by
  have unclosed : ¬ Closes word rest := by
    rintro ⟨quote, _⟩
    exact Bool.noConfusion ((isQuote_not_tab quote).symm.trans indents)
  obtain ⟨remains, bare⟩ := reached.toRemains.after_word unclosed
  have other : ¬ Bare words position Word.newline := by
    intro newline
    have same := bare.word_unique newline
    subst same
    exact Bool.noConfusion indents
  have stays : InMargin words (position + 1) := by
    refine (inMargin_succ words position).mpr (Or.inr ⟨reached.fits.1, ?_⟩)
    rcases isTab_iff.mp indents with rfl | rfl
    · exact Or.inl bare
    · exact Or.inr bare
  refine ⟨remains, ⟨stays, ?_⟩, ?_⟩
  · have counted := reached.fits.2
    rw [List.takeWhile_cons_of_pos indents, List.length_cons] at counted
    rw [indentation_succ other, counted]
    omega
  · rw [newlinesBefore_succ other, reached.line_eq]

theorem token (reached : Reached words position (word :: rest) place line depth)
    (unclosed : ¬ Closes word rest) (other : word ≠ Word.newline)
    (ends : place = .inside ∨ isTab word = false) :
    Reached words (position + 1) rest .inside line (settled depth place) := by
  obtain ⟨remains, bare⟩ := reached.toRemains.after_word unclosed
  have noNewline : ¬ Bare words position Word.newline := fun newline =>
    other (bare.word_unique newline)
  have leaves : ¬ InMargin words (position + 1) := by
    rw [inMargin_succ, reached.inMargin_iff]
    rintro (newline | ⟨margin, indents⟩)
    · exact noNewline newline
    · have plain := ends.resolve_left margin
      have indent : isTab word = true := isTab_iff.mpr
        (indents.imp (fun tab => bare.word_unique tab) fun wide => bare.word_unique wide)
      exact Bool.noConfusion (plain.symm.trans indent)
  refine ⟨remains, ⟨leaves, ?_⟩, ?_⟩
  · rw [indentation_succ noNewline, reached.settled_eq ends]
  · rw [newlinesBefore_succ noNewline, reached.line_eq]

theorem span (reached : Reached words position (mark :: text :: mark :: rest) place line depth)
    (quote : Lexeme.isQuote mark) :
    Reached words (position + 3) rest .inside line (settled depth place) := by
  obtain ⟨remains, opening, quoted, closing⟩ := reached.toRemains.after_span quote
  have first := opening.not_bare (by decide)
  have second := quoted.not_bare (by decide)
  have third := closing.not_bare (by decide)
  have leaves : ¬ InMargin words (position + 3) := by
    rw [inMargin_succ]
    rintro (newline | ⟨_, tab | wide⟩)
    · exact third _ newline
    · exact third _ tab
    · exact third _ wide
  refine ⟨remains, ⟨leaves, ?_⟩, ?_⟩
  · rw [indentation_succ (third _), indentation_succ (second _), indentation_succ (first _),
      reached.settled_eq (Or.inr (isQuote_not_tab quote))]
  · rw [newlinesBefore_succ (third _), newlinesBefore_succ (second _),
      newlinesBefore_succ (first _), reached.line_eq]

end Reached

end SnakeFront.Token
