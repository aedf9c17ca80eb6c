import SnakeFront.Proofs.Token.Refusal

/-! Word lists in parts. The layout goes through a first part in one of two ways, whatever follows:
it finds a fault there, or it hands on a depth and a place to the rest. Words that do not end in a
quote are a part of their own where a newline follows, and what is out of place among them is out of
place in the whole list. -/
namespace SnakeFront.Layout

/-- What becomes of lexemes in front of others. Newlines are those passed on the way. -/
inductive Passage where
  | halts (cause : Cause) (word : Word) (newlines : Nat)
  | passes (emitted : List Token) (newlines depth : Nat) (place : Place)

/-- The outcome for lexemes that start on `line`, with `rest` behind them. -/
def Passage.resume (line : Nat) (rest : List Lexeme) : Passage → Except Fault (List Token)
  | halts cause word newlines => .error ⟨cause, word, line + newlines⟩
  | passes emitted newlines depth place =>
    (arrange depth (line + newlines) place rest).map (emitted ++ ·)

theorem map_append_nil (outcome : Except Fault (List Token)) : outcome.map ([] ++ ·) = outcome := by
  cases outcome with
  | ok tokens => rfl
  | error fault => rfl

theorem map_append_append (first second : List Token) (outcome : Except Fault (List Token)) :
    (outcome.map (second ++ ·)).map (first ++ ·) = outcome.map (first ++ second ++ ·) := by
  cases outcome with
  | ok tokens => exact congrArg Except.ok (List.append_assoc first second tokens).symm
  | error fault => rfl

theorem arrange_step (depth : Nat) (place : Place) (lexeme : Lexeme) :
    ∃ passage : Passage, ∀ line rest,
      arrange depth line place (lexeme :: rest) = passage.resume line rest := by
  cases place with
  | inside =>
    cases lexeme with
    | newline => exact ⟨.passes [.newline] 1 depth (.margin 0), fun _ _ => rfl⟩
    | tab => exact ⟨.halts .strayTab Word.tab 0, fun _ _ => rfl⟩
    | wide => exact ⟨.passes [.var Word.wide] 0 depth .inside, fun _ _ => rfl⟩
    | blank => exact ⟨.passes [.var Word.blank] 0 depth .inside, fun _ _ => rfl⟩
    | token token => exact ⟨.passes [token] 0 depth .inside, fun _ _ => rfl⟩
  | margin tabs =>
    cases lexeme with
    | newline => exact ⟨.passes [] 1 depth (.margin 0), fun _ _ => (map_append_nil _).symm⟩
    | tab | wide =>
      exact ⟨.passes [] 0 depth (.margin (tabs + 1)), fun _ _ => (map_append_nil _).symm⟩
    | blank => exact ⟨.halts .leadingSpace Word.blank 0, fun _ _ => rfl⟩
    | token token =>
      refine ⟨.passes (shift depth tabs ++ [token]) 0 tabs .inside, fun line rest => ?_⟩
      simp [arrange, Passage.resume]

theorem arrange_run (depth : Nat) (place : Place) (first : List Lexeme) :
    ∃ passage : Passage, ∀ line rest,
      arrange depth line place (first ++ rest) = passage.resume line rest := by
  induction first generalizing depth place with
  | nil => exact ⟨.passes [] 0 depth place, fun _ _ => (map_append_nil _).symm⟩
  | cons lexeme others ih =>
    obtain ⟨step, one⟩ := arrange_step depth place lexeme
    cases step with
    | halts cause word newlines => exact ⟨.halts cause word newlines, fun line rest => one line _⟩
    | passes emitted newlines target next =>
      obtain ⟨run, later⟩ := ih target next
      simp only [Passage.resume] at one
      cases run with
      | halts cause word more =>
        refine ⟨.halts cause word (newlines + more), fun line rest => ?_⟩
        simp only [Passage.resume] at later ⊢
        rw [List.cons_append, one, later, Nat.add_assoc]
        rfl
      | passes others more final last =>
        refine ⟨.passes (emitted ++ others) (newlines + more) final last, fun line rest => ?_⟩
        simp only [Passage.resume] at later ⊢
        rw [List.cons_append, one, later, Nat.add_assoc, map_append_append]

def Fault.below (fault : Fault) : Fault := { fault with line := fault.line + 1 }

theorem mapError_map (outcome : Except Fault (List Token)) (f : List Token → List Token) :
    (outcome.mapError Fault.below).map f = (outcome.map f).mapError Fault.below := by
  cases outcome with
  | ok tokens => rfl
  | error fault => rfl

theorem arrange_below (depth line : Nat) (place : Place) (lexemes : List Lexeme) :
    arrange depth (line + 1) place lexemes =
      (arrange depth line place lexemes).mapError Fault.below := by
  obtain ⟨passage, run⟩ := arrange_run depth place lexemes
  have whole := fun line => run line []
  simp only [List.append_nil] at whole
  rw [whole, whole]
  cases passage with
  | halts cause word newlines =>
    have shifted : line + 1 + newlines = line + newlines + 1 := Nat.add_right_comm line 1 newlines
    rw [Passage.resume, shifted]
    rfl
  | passes emitted newlines target next =>
    cases next with
    | inside => rfl
    | margin tabs => rfl

end SnakeFront.Layout

namespace SnakeFront.Token

open Layout

section
variable {words : List Word} {position : Nat} {role : Role} {word : Word} {cause : Cause}

theorem length_roles (words : List Word) : (roles words).length = words.length := by
  induction words using scan_induction with
  | nil => rfl
  | span mark text rest quote ih => simp [(scan_span quote text rest).1, ih]
  | word word rest unclosed ih => simp [(scan_word unclosed).1, ih]

/-- Words behind a newline close no quotes, unless these were opened right before it. -/
theorem unclosed_newline (unclosed : ¬ Closes word words)
    (last : words = [] → Lexeme.isQuote word = false) (rest : List Word) :
    ¬ Closes word (words ++ Word.newline :: rest) := by
  rintro ⟨quote, closed⟩
  match words with
  | [] => exact Bool.noConfusion (quote.symm.trans (last rfl))
  | [text] => exact isQuote_ne_newline quote (Option.some.inj closed).symm
  | text :: close :: others => exact unclosed ⟨quote, closed⟩

/-- The words end in no quote, so that none of them can be opened by the last. -/
def EndsUnquoted (words : List Word) : Prop :=
  ∀ word ∈ words.getLast?, Lexeme.isQuote word = false

instance : DecidablePred EndsUnquoted := fun words =>
  inferInstanceAs (Decidable (∀ word ∈ words.getLast?, Lexeme.isQuote word = false))

theorem EndsUnquoted.tail (ends : EndsUnquoted (word :: words)) : EndsUnquoted words := by
  intro last found
  refine ends last ?_
  rw [List.getLast?_cons, Option.mem_def.mp found]
  rfl

theorem scan_newline (ends : EndsUnquoted words) (rest : List Word) :
    roles (words ++ Word.newline :: rest) = roles words ++ .bare :: roles rest ∧
      Lexeme.ofWords (words ++ Word.newline :: rest) =
        Lexeme.ofWords words ++ .newline :: Lexeme.ofWords rest := by
  induction words using scan_induction with
  | nil => exact scan_word (newline_unclosed rest)
  | span mark text others quote ih =>
    have later := ih ends.tail.tail.tail
    have whole := scan_span quote text (others ++ Word.newline :: rest)
    have front := scan_span quote text others
    simp only [List.cons_append, whole, front, later, and_self]
  | word word others unclosed ih =>
    have later := ih ends.tail
    have still : ¬ Closes word (others ++ Word.newline :: rest) := by
      apply unclosed_newline unclosed
      rintro rfl
      exact ends word rfl
    have whole := scan_word still
    have front := scan_word unclosed
    simp only [List.cons_append, whole, front, later, and_self]

theorem plays_newline (ends : EndsUnquoted words) (rest : List Word)
    (below : position < words.length) :
    Plays role (words ++ Word.newline :: rest) position word ↔ Plays role words position word := by
  have scanned : position < (roles words).length := by
    rw [length_roles]
    exact below
  rw [Plays, Plays, (scan_newline ends rest).1, List.getElem?_append_left below,
    List.getElem?_append_left scanned]

theorem inMargin_newline (ends : EndsUnquoted words) (rest : List Word)
    (below : position ≤ words.length) :
    InMargin (words ++ Word.newline :: rest) position ↔ InMargin words position := by
  induction position with
  | zero => exact iff_of_false (not_inMargin_zero _) (not_inMargin_zero _)
  | succ position ih =>
    simp only [inMargin_succ, ih (Nat.le_of_succ_le below), plays_newline ends rest below]

theorem misplaced_newline (ends : EndsUnquoted words) (rest : List Word)
    (below : position < words.length) :
    Misplaced (words ++ Word.newline :: rest) position cause ↔ Misplaced words position cause := by
  have plays := fun word => @plays_newline words position .bare word ends rest below
  have margin := inMargin_newline ends rest (Nat.le_of_lt below)
  cases cause with
  | strayTab => simp only [Misplaced, plays, margin]
  | leadingSpace => simp only [Misplaced, plays, margin]

theorem blamed_newline (ends : EndsUnquoted words) (rest : List Word)
    (blamed : Blamed words position cause) :
    position < words.length ∧ Blamed (words ++ Word.newline :: rest) position cause := by
  obtain ⟨word, found, _⟩ := misplaced_bare blamed.1
  have below : position < words.length := (List.getElem?_eq_some_iff.mp found).1
  refine ⟨below, (misplaced_newline ends rest below).mpr blamed.1, ?_⟩
  intro earlier before other misplaced
  have within : earlier < words.length := Nat.lt_trans before below
  exact blamed.2 earlier before other ((misplaced_newline ends rest within).mp misplaced)

theorem blamed_behind {tokens : List Token} (ends : EndsUnquoted words) (rest : List Word)
    (read : ofWords words = .ok tokens)
    (blamed : Blamed (words ++ Word.newline :: rest) position cause) : words.length ≤ position := by
  have verdict := ofWords_verdict words
  rw [read] at verdict
  apply Nat.le_of_not_lt
  intro below
  exact verdict position (Nat.zero_le position) cause ((misplaced_newline ends rest below).mp blamed.1)

end

end SnakeFront.Token
