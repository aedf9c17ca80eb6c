import SnakeFront.Token.Layout

/-! Tokens spelled as words. A newline is written with the tabs of the line it opens, so the indents
and dedents that follow it need no words of their own. Main statement: a token list arranged in lines,
with no quote for a name, is read back from its spelling. -/
namespace SnakeFront.Token

/-- The words of a token inside a line; a string is put in double quotes. -/
def spelling : Token → List Word
  | .string text => ["\"", text, "\""]
  | .boolean word | .integer word | .var word | .operator word => [word]
  | .define => ["def"]
  | .comma => [","]
  | .colon => [":"]
  | .openParen => ["("]
  | .closeParen => [")"]
  | .equals => ["="]
  | .newline | .indent | .dedent => []

def depthAfter (depth : Nat) : List Token → Nat
  | .indent :: rest => depthAfter (depth + 1) rest
  | .dedent :: rest => depthAfter (depth - 1) rest
  | _ => depth

def unlex (depth : Nat) : List Token → List Word
  | [] => []
  | .newline :: rest =>
    Word.newline :: List.replicate (depthAfter depth rest) Word.tab ++ unlex depth rest
  | .indent :: rest => unlex (depth + 1) rest
  | .dedent :: rest => unlex (depth - 1) rest
  | token :: rest => token.spelling ++ unlex depth rest

def Digits (word : Word) : Prop := word ≠ "" ∧ ∀ c ∈ word.toList, c.isDigit

theorem isInteger_iff (word : Word) : isInteger word = true ↔ Digits word := by
  simp [isInteger, Digits]

instance (word : Word) : Decidable (Digits word) := decidable_of_iff _ (isInteger_iff word)

/-- Tokens that stand inside a line, with the texts they can carry. -/
def Admissible : Token → Prop
  | .boolean word => word = "True" ∨ word = "False"
  | .integer digits => Digits digits
  | .operator symbol => symbol ∈ operators
  | .var name =>
    name ≠ Word.newline ∧ name ≠ Word.tab ∧ name ≠ "True" ∧ name ≠ "False" ∧
      ¬ Digits name ∧ name ∉ markers.map Prod.fst ∧ name ∉ operators
  | .newline | .indent | .dedent => False
  | .string _ | .define | .comma | .colon | .openParen | .closeParen | .equals => True

instance : DecidablePred Admissible
  | .boolean word => inferInstanceAs (Decidable (word = "True" ∨ word = "False"))
  | .integer digits => inferInstanceAs (Decidable (Digits digits))
  | .operator symbol => inferInstanceAs (Decidable (symbol ∈ operators))
  | .var name => inferInstanceAs (Decidable (name ≠ Word.newline ∧ name ≠ Word.tab ∧
      name ≠ "True" ∧ name ≠ "False" ∧ ¬ Digits name ∧ name ∉ markers.map Prod.fst ∧
      name ∉ operators))
  | .newline | .indent | .dedent => inferInstanceAs (Decidable False)
  | .string _ | .define | .comma | .colon | .openParen | .closeParen | .equals =>
    inferInstanceAs (Decidable True)

def OpensLine (token : Token) : Prop :=
  token ≠ .newline ∧ token ≠ .var Word.blank ∧ token ≠ .var Word.wide

instance (token : Token) : Decidable token.OpensLine :=
  inferInstanceAs (Decidable (token ≠ .newline ∧ token ≠ .var Word.blank ∧ token ≠ .var Word.wide))

/-- Steps from one depth to another, all up or all down. -/
inductive Run : Nat → List Token → Nat → Prop where
  | rise (depth count : Nat) : Run depth (List.replicate count .indent) (depth + count)
  | fall (depth count : Nat) : Run (depth + count) (List.replicate count .dedent) depth

/-- Token lists in lines, seen from inside a line of some depth. A newline comes with its run, and
the line behind it is either the end or starts with a token of its own. -/
inductive Arranged : Nat → List Token → Prop where
  | done (depth : Nat) : Arranged depth []
  | token {depth : Nat} {token : Token} {rest : List Token} :
      token.Admissible → Arranged depth rest → Arranged depth (token :: rest)
  | line {depth target : Nat} {run rest : List Token} :
      Run depth run target → (∀ first ∈ rest.head?, first.OpensLine) → Arranged target rest →
        Arranged depth (.newline :: (run ++ rest))

def Unquoted (tokens : List Token) : Prop :=
  ∀ name, .var name ∈ tokens → name ≠ "\"" ∧ name ≠ "'"

theorem Unquoted.head {token : Token} {rest : List Token} (unquoted : Unquoted (token :: rest)) :
    ∀ name, token = .var name → name ≠ "\"" ∧ name ≠ "'" := by
  rintro name rfl
  exact unquoted name List.mem_cons_self

theorem Unquoted.tail {token : Token} {rest : List Token} (unquoted : Unquoted (token :: rest)) :
    Unquoted rest :=
  fun name member => unquoted name (List.mem_cons_of_mem token member)

structure Canonical (tokens : List Token) : Prop where
  arranged : Arranged 0 tokens
  unquoted : Unquoted tokens

def lexeme (token : Token) : Lexeme :=
  if token = .var Word.wide then .wide
  else if token = .var Word.blank then .blank
  else .token token

theorem ofWords_cons {word : Word} (plain : Lexeme.isQuote word = false) (words : List Word) :
    Lexeme.ofWords (word :: words) = Lexeme.ofWord word :: Lexeme.ofWords words := by
  match words with
  | [] => rfl
  | [_] => rfl
  | _ :: _ :: _ => simp [Lexeme.ofWords, plain]

theorem Digits.ne {word other : Word} (digits : Digits word) (not_digits : ¬ Digits other) :
    word ≠ other := by
  rintro rfl
  exact not_digits digits

theorem ofWord_integer {word : Word} (digits : Digits word) : ofWord word = .integer word := by
  have yes : word ≠ "True" := digits.ne (by decide)
  have no : word ≠ "False" := digits.ne (by decide)
  simp [ofWord, yes, no, (isInteger_iff word).mpr digits]

theorem ofWord_var {name : Word} (admissible : (var name).Admissible) : ofWord name = .var name := by
  obtain ⟨_, _, yes, no, digits, marker, operator⟩ := admissible
  have number : isInteger name = false := by
    rw [Bool.eq_false_iff, ne_eq, isInteger_iff]
    exact digits
  have missing : markers.lookup name = none := by
    rw [List.lookup_eq_none_iff]
    rintro entry member
    have different : name ≠ entry.1 := by
      rintro rfl
      exact marker (List.mem_map_of_mem member)
    simpa using different
  simp [ofWord, yes, no, number, missing, operator]

theorem lexeme_ofWord {word : Word} (newline : word ≠ Word.newline) (tab : word ≠ Word.tab)
    (wide : word ≠ Word.wide) (blank : word ≠ Word.blank) :
    Lexeme.ofWord word = .token (ofWord word) := by
  simp [Lexeme.ofWord, newline, tab, wide, blank]

theorem lexeme_integer {word : Word} (digits : Digits word) :
    Lexeme.ofWord word = .token (.integer word) := by
  rw [lexeme_ofWord (digits.ne (by decide)) (digits.ne (by decide)) (digits.ne (by decide))
    (digits.ne (by decide)), ofWord_integer digits]

theorem lexeme_var {name : Word} (admissible : (var name).Admissible) :
    Lexeme.ofWord name = (var name).lexeme := by
  have own := ofWord_var admissible
  obtain ⟨newline, tab, _⟩ := admissible
  unfold lexeme
  by_cases wide : name = Word.wide
  · subst wide
    rfl
  · by_cases blank : name = Word.blank
    · subst blank
      rfl
    · rw [lexeme_ofWord newline tab wide blank, own, if_neg (by simpa using wide),
        if_neg (by simpa using blank)]

theorem ofWords_spelling {token : Token} (admissible : token.Admissible)
    (unquoted : ∀ name, token = .var name → name ≠ "\"" ∧ name ≠ "'") (words : List Word) :
    Lexeme.ofWords (token.spelling ++ words) = token.lexeme :: Lexeme.ofWords words := by
  cases token with
  | string text => simp [spelling, Lexeme.ofWords, Lexeme.isQuote, lexeme]
  | boolean word =>
    rcases admissible with rfl | rfl <;> exact ofWords_cons (by decide) words
  | integer digits =>
    have double : digits ≠ "\"" := Digits.ne admissible (by decide)
    have single : digits ≠ "'" := Digits.ne admissible (by decide)
    have plain : Lexeme.isQuote digits = false := by
      simp [Lexeme.isQuote, double, single]
    rw [spelling, List.singleton_append, ofWords_cons plain, lexeme_integer admissible]
    rfl
  | var name =>
    have plain : Lexeme.isQuote name = false := by
      simp [Lexeme.isQuote, unquoted name rfl]
    rw [spelling, List.singleton_append, ofWords_cons plain, lexeme_var admissible]
  | operator symbol =>
    simp only [Admissible, operators, List.mem_cons, List.not_mem_nil, or_false] at admissible
    rcases admissible with rfl | rfl | rfl | rfl | rfl <;> exact ofWords_cons (by decide) words
  | define | comma | colon | openParen | closeParen | equals => exact ofWords_cons (by decide) words
  | newline | indent | dedent => cases admissible

section
open Layout
variable {depth target line : Nat} {run rest tokens : List Token}

theorem Run.eq_shift (stepped : Run depth run target) : run = shift depth target := by
  cases stepped with
  | rise depth count => simp [shift]
  | fall depth count => simp [shift]

theorem run_shift (depth target : Nat) : Run depth (shift depth target) target := by
  rcases Nat.le_total depth target with up | down
  · obtain ⟨count, rfl⟩ := Nat.exists_eq_add_of_le up
    simpa [shift] using Run.rise depth count
  · obtain ⟨count, rfl⟩ := Nat.exists_eq_add_of_le down
    simpa [shift] using Run.fall target count

/-- A run adds no words; what follows it is spelled at the depth it leads to. -/
theorem Run.absorbed (stepped : Run depth run target) (rest : List Token) :
    depthAfter depth (run ++ rest) = depthAfter target rest ∧
      unlex depth (run ++ rest) = unlex target rest := by
  cases stepped with
  | rise depth count =>
    induction count generalizing depth with
    | zero => exact ⟨rfl, rfl⟩
    | succ count ih =>
      have sum : depth + 1 + count = depth + (count + 1) := by omega
      rw [List.replicate_succ, List.cons_append, depthAfter, unlex, ← sum]
      exact ih
  | fall target count =>
    induction count with
    | zero => exact ⟨rfl, rfl⟩
    | succ count ih =>
      rw [List.replicate_succ, List.cons_append, depthAfter, unlex]
      exact ih

theorem Arranged.depthAfter (arranged : Arranged depth tokens) :
    depthAfter depth tokens = depth := by
  cases arranged with
  | done => rfl
  | @token _ first rest admissible _ =>
    cases first with
    | newline | indent | dedent => cases admissible
    | string | boolean | integer | var | operator => rfl
    | define | comma | colon | openParen | closeParen | equals => rfl
  | line => rfl

theorem unlex_token {token : Token} (admissible : token.Admissible) (depth : Nat)
    (rest : List Token) : unlex depth (token :: rest) = token.spelling ++ unlex depth rest := by
  cases token with
  | newline | indent | dedent => cases admissible
  | string | boolean | integer | var | operator => rfl
  | define | comma | colon | openParen | closeParen | equals => rfl

theorem ofWords_tabs (count : Nat) (words : List Word) :
    Lexeme.ofWords (List.replicate count Word.tab ++ words) =
      List.replicate count .tab ++ Lexeme.ofWords words := by
  induction count with
  | zero => rfl
  | succ count ih =>
    rw [List.replicate_succ, List.cons_append, ofWords_cons (by decide), ih]
    rfl

theorem arrange_tabs (depth line tabs count : Nat) (rest : List Lexeme) :
    arrange depth line (.margin tabs) (List.replicate count .tab ++ rest) =
      arrange depth line (.margin (tabs + count)) rest := by
  induction count generalizing tabs with
  | zero => rfl
  | succ count ih =>
    rw [List.replicate_succ, List.cons_append, arrange, ih (tabs + 1)]
    congr 2
    omega

theorem arrange_lexeme (depth line : Nat) (token : Token) (rest : List Lexeme) :
    arrange depth line .inside (token.lexeme :: rest) =
      (arrange depth line .inside rest).map (token :: ·) := by
  unfold lexeme
  split
  next same => rw [same, arrange]
  next =>
    split
    next same => rw [same, arrange]
    next => rw [arrange]

theorem arrange_margin (arranged : Arranged target rest) (unquoted : Unquoted rest)
    (opens : ∀ first ∈ rest.head?, first.OpensLine) (depth line : Nat) :
    arrange depth line (.margin target) (Lexeme.ofWords (unlex target rest)) =
      (arrange target line .inside (Lexeme.ofWords (unlex target rest))).map
        (shift depth target ++ ·) := by
  cases arranged with
  | done =>
    simp [unlex, Lexeme.ofWords, arrange, Except.map]
  | @token _ first others admissible _ =>
    obtain ⟨_, blank, wide⟩ := opens first (by simp)
    have own : first.lexeme = .token first := by
      rw [lexeme, if_neg wide, if_neg blank]
    rw [unlex_token admissible, ofWords_spelling admissible unquoted.head, own, arrange, arrange]
    cases arrange target line .inside (Lexeme.ofWords (unlex target others)) <;> rfl
  | line => exact absurd rfl (opens .newline (by simp)).1

theorem arrange_unlex (arranged : Arranged depth tokens) (unquoted : Unquoted tokens) (line : Nat) :
    arrange depth line .inside (Lexeme.ofWords (unlex depth tokens)) = .ok tokens := by
  induction arranged generalizing line with
  | done => rfl
  | @token depth first rest admissible _ ih =>
    rw [unlex_token admissible, ofWords_spelling admissible unquoted.head, arrange_lexeme,
      ih unquoted.tail]
    rfl
  | @line depth target run rest stepped opens arranged ih =>
    have later : Unquoted rest := fun name member => unquoted name (by simp [member])
    have absorbed := stepped.absorbed rest
    rw [unlex, absorbed.1, absorbed.2, arranged.depthAfter, List.cons_append,
      ofWords_cons (by decide), ofWords_tabs]
    have newline : Lexeme.ofWord Word.newline = .newline := rfl
    rw [newline, arrange, arrange_tabs, Nat.zero_add, arrange_margin arranged later opens, ih later,
      stepped.eq_shift]
    rfl

end

end SnakeFront.Token
