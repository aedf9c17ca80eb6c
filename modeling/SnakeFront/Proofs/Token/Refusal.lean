import SnakeFront.Proofs.Token.Positions

/-! Word lists that have no tokens. Two kinds of word are out of place: a tab behind the first token
of a line, and a blank at its margin. Main statements: a list is refused exactly if it holds such a
word, and the first of them is blamed; the line that is reported counts the newlines before it that
are not in quotes. -/
namespace SnakeFront.Token

open Layout

/-- The word at the position is out of place. -/
def Misplaced (words : List Word) (position : Nat) : Cause → Prop
  | .strayTab => Bare words position Word.tab ∧ ¬ InMargin words position
  | .leadingSpace => Bare words position Word.blank ∧ InMargin words position

instance (words : List Word) (position : Nat) : DecidablePred (Misplaced words position)
  | .strayTab => inferInstanceAs (Decidable (_ ∧ _))
  | .leadingSpace => inferInstanceAs (Decidable (_ ∧ _))

/-- The first word that is out of place is at the position. -/
def Blamed (words : List Word) (position : Nat) (cause : Cause) : Prop :=
  Misplaced words position cause ∧ ∀ earlier < position, ∀ other, ¬ Misplaced words earlier other

def Verdict (words : List Word) (position : Nat) : Except Fault (List Token) → Prop
  | .ok _ => ∀ later ≥ position, ∀ cause, ¬ Misplaced words later cause
  | .error fault => ∃ found ≥ position, Misplaced words found fault.cause ∧
      words[found]? = some fault.word ∧
      (∀ later ≥ position, later < found → ∀ cause, ¬ Misplaced words later cause) ∧
      fault.line = 1 + newlinesBefore .bare words found

section
variable {words rest : List Word} {position line depth : Nat} {place : Place} {word : Word}
  {outcome : Except Fault (List Token)}

theorem Verdict.map (f : List Token → List Token) (verdict : Verdict words position outcome) :
    Verdict words position (outcome.map f) := by
  cases outcome with
  | ok tokens => exact verdict
  | error fault => exact verdict

theorem Verdict.back (proper : ∀ cause, ¬ Misplaced words position cause)
    (verdict : Verdict words (position + 1) outcome) : Verdict words position outcome := by
  have split : ∀ later ≥ position, later = position ∨ later ≥ position + 1 := by
    intro later above
    omega
  cases outcome with
  | ok tokens =>
    intro later above
    rcases split later above with rfl | beyond
    · exact proper
    · exact verdict later beyond
  | error fault =>
    obtain ⟨found, above, misplaced, here, first, line⟩ := verdict
    refine ⟨found, by omega, misplaced, here, ?_, line⟩
    intro later from_here before
    rcases split later from_here with rfl | beyond
    · exact proper
    · exact first later beyond before

theorem Verdict.here {cause : Cause} (misplaced : Misplaced words position cause)
    (found : words[position]? = some word) :
    Verdict words position (.error ⟨cause, word, 1 + newlinesBefore .bare words position⟩) :=
  ⟨position, Nat.le_refl position, misplaced, found, fun later above before => by omega, rfl⟩

theorem misplaced_bare {cause : Cause} (misplaced : Misplaced words position cause) :
    ∃ word, Bare words position word := by
  cases cause with
  | strayTab => exact ⟨_, misplaced.1⟩
  | leadingSpace => exact ⟨_, misplaced.1⟩

theorem proper_of_word (bare : Bare words position word)
    (tab : word ≠ Word.tab ∨ InMargin words position)
    (blank : word ≠ Word.blank ∨ ¬ InMargin words position) :
    ∀ cause, ¬ Misplaced words position cause
  | .strayTab, ⟨found, inside⟩ => tab.elim (· (bare.word_unique found)) inside
  | .leadingSpace, ⟨found, margin⟩ => blank.elim (· (bare.word_unique found)) (· margin)

theorem proper_of_quoted {role : Role} (plays : Plays role words position word)
    (quoted : role ≠ .bare) : ∀ cause, ¬ Misplaced words position cause := by
  intro cause misplaced
  obtain ⟨other, bare⟩ := misplaced_bare misplaced
  exact plays.not_bare quoted other bare

theorem proper_of_end (remains : Remains words position []) :
    ∀ later ≥ position, ∀ cause, ¬ Misplaced words later cause := by
  intro later above cause misplaced
  obtain ⟨i, rfl⟩ := Nat.exists_eq_add_of_le above
  obtain ⟨word, bare⟩ := misplaced_bare misplaced
  cases ((remains.plays .bare i word).mp bare).1

end

/-- The layout finds the first word out of place. -/
theorem arrange_verdict {words rest : List Word} {position line depth : Nat} {place : Place}
    (reached : Reached words position rest place line depth) :
    Verdict words position (arrange depth line place (Lexeme.ofWords rest)) := by
  -- The induction is along the scan; at each word the verdict on what follows is carried back over
  -- a position where nothing is out of place.
  induction rest using scan_induction generalizing position line depth place with
  | nil =>
    have proper := proper_of_end reached.toRemains
    cases place with
    | inside => exact proper
    | margin tabs => exact proper
  | span mark text rest quote ih =>
    obtain ⟨_, opening, quoted, closing⟩ := reached.toRemains.after_span quote
    have behind := ih (reached.span quote)
    have verdict := Verdict.back (proper_of_quoted opening (by decide))
      (.back (proper_of_quoted quoted (by decide))
        (.back (proper_of_quoted closing (by decide)) behind))
    rw [(scan_span quote text rest).2, arrange_token]
    exact verdict.map _
  | word word rest unclosed ih =>
    obtain ⟨_, bare⟩ := reached.toRemains.after_word unclosed
    rw [(scan_word unclosed).2]
    have part := part_ofWord word
    generalize Lexeme.ofWord word = lexeme at part
    cases part with
    | newline =>
      have proper := proper_of_word bare (.inl (by decide)) (.inl (by decide))
      have verdict := Verdict.back proper (ih reached.newline)
      cases place with
      | inside => exact verdict.map _
      | margin tabs => exact verdict
    | tab =>
      cases place with
      | inside =>
        rw [arrange, reached.line_eq]
        exact .here ⟨bare, reached.fits.1⟩ bare.1
      | margin tabs =>
        have proper := proper_of_word bare (.inr reached.fits.1) (.inl (by decide))
        exact .back proper (ih (reached.tab rfl))
    | wide =>
      have proper := proper_of_word bare (.inl (by decide)) (.inl (by decide))
      cases place with
      | inside =>
        exact (Verdict.back proper (ih (reached.token unclosed (by decide) (Or.inl rfl)))).map _
      | margin tabs => exact .back proper (ih (reached.tab rfl))
    | blank =>
      cases place with
      | inside =>
        have proper := proper_of_word bare (.inl (by decide)) (.inr reached.fits.1)
        exact (Verdict.back proper (ih (reached.token unclosed (by decide) (Or.inl rfl)))).map _
      | margin tabs =>
        rw [arrange, reached.line_eq]
        exact .here ⟨bare, reached.fits.1⟩ bare.1
    | token newline plain blank =>
      have tab : word ≠ Word.tab := by
        rintro rfl
        cases plain
      have proper := proper_of_word bare (.inl tab) (.inl blank)
      rw [arrange_token]
      exact (Verdict.back proper (ih (reached.token unclosed newline (Or.inr plain)))).map _

theorem ofWords_verdict (words : List Word) : Verdict words 0 (ofWords words) :=
  arrange_verdict (Reached.start words)

theorem blamed_of_error {words : List Word} {fault : Fault}
    (refused : ofWords words = .error fault) :
    ∃ position, Blamed words position fault.cause ∧ words[position]? = some fault.word ∧
      fault.line = 1 + newlinesBefore .bare words position := by
  have verdict := ofWords_verdict words
  rw [refused] at verdict
  obtain ⟨position, _, misplaced, found, first, line⟩ := verdict
  exact ⟨position, ⟨misplaced, fun earlier => first earlier (Nat.zero_le earlier)⟩, found, line⟩

/-- A word list has no tokens exactly if a word is out of place in it: a tab outside quotes that is
not at the margin, or a blank outside quotes that is. The first such word is the one blamed, for the
reason that puts it out of place. -/
theorem refused_iff_misplaced (words : List Word) :
    ((∃ fault, ofWords words = .error fault) ↔ ∃ position cause, Misplaced words position cause) ∧
    ∀ fault, ofWords words = .error fault →
      ∃ position, words[position]? = some fault.word ∧ Blamed words position fault.cause := by
  refine ⟨⟨?_, ?_⟩, ?_⟩
  · rintro ⟨fault, refused⟩
    obtain ⟨position, blamed, _⟩ := blamed_of_error refused
    exact ⟨position, fault.cause, blamed.1⟩
  · rintro ⟨position, cause, misplaced⟩
    have verdict := ofWords_verdict words
    cases outcome : ofWords words with
    | ok tokens =>
      rw [outcome] at verdict
      exact absurd misplaced (verdict position (Nat.zero_le position) cause)
    | error fault => exact ⟨fault, rfl⟩
  · intro fault refused
    obtain ⟨position, blamed, found, _⟩ := blamed_of_error refused
    exact ⟨position, found, blamed⟩

/-- A quoted tab is passed over, a tab on a blank line too; the blank behind it is not. -/
theorem leading_blank_blamed :
    let words := ["\"", "\t", "\"", "\n", "\t", "\n", " ", "\t"]
    ofWords words = .error ⟨.leadingSpace, " ", 3⟩ ∧
      ∃ position, words[position]? = some " " ∧ Blamed words position .leadingSpace := by
  intro words
  have refused : ofWords words = .error ⟨.leadingSpace, " ", 3⟩ := rfl
  exact ⟨refused, (refused_iff_misplaced words).2 _ refused⟩

/-- The reported line counts the newlines outside quotes before the word that is blamed. It is the
line of that word, as all newlines count it, exactly if none of them is in quotes. -/
theorem reported_line_iff_unquoted {words : List Word} {fault : Fault}
    (refused : ofWords words = .error fault) :
    ∃ position, Blamed words position fault.cause ∧
      fault.line = 1 + newlinesBefore .bare words position ∧
      (fault.line = 1 + (words.take position).count Word.newline ↔
        ∀ earlier < position, ¬ Plays .quoted words earlier Word.newline) := by
  obtain ⟨position, blamed, _, line⟩ := blamed_of_error refused
  refine ⟨position, blamed, line, ?_⟩
  have unquoted : newlinesBefore .quoted words position = 0 ↔
      ∀ earlier < position, ¬ Plays .quoted words earlier Word.newline := by
    simp [newlinesBefore, List.countP_eq_zero]
  rw [line, count_newlines, ← unquoted]
  omega

theorem blank_lines_counted :
    let words := ["x", "\n", "\t", "\n", " "]
    ofWords words = .error ⟨.leadingSpace, " ", 3⟩ ∧
      ∃ position, Blamed words position .leadingSpace ∧
        3 = 1 + newlinesBefore .bare words position ∧
        (3 = 1 + (words.take position).count Word.newline ↔
          ∀ earlier < position, ¬ Plays .quoted words earlier Word.newline) := by
  intro words
  have refused : ofWords words = .error ⟨.leadingSpace, " ", 3⟩ := rfl
  exact ⟨refused, reported_line_iff_unquoted refused⟩

/-- A string that holds a newline hides it from the count: the tab behind the string is on line two
and reported on line one. -/
theorem quoted_newline_uncounted :
    let words := ["\"", "\n", "\"", "\t"]
    Blamed words 3 .strayTab ∧ ofWords words = .error ⟨.strayTab, "\t", 1⟩ ∧
      1 + (words.take 3).count Word.newline = 2 := by
  intro words
  have first : ∀ earlier < 3, ∀ cause, ¬ Misplaced words earlier cause := by
    intro earlier below cause
    cases cause with
    | strayTab =>
      revert earlier
      decide
    | leadingSpace =>
      revert earlier
      decide
  exact ⟨⟨by decide, first⟩, rfl, rfl⟩

end SnakeFront.Token
