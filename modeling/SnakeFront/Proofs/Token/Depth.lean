import SnakeFront.Proofs.Token.Positions
import SnakeFront.Proofs.Token.Reading

/-! Depth of tokens. The indents and dedents in front of a token add up to the indentation of the
line it was read from, though they are given out in steps from line to line. Main statement: this
holds of every token that is no layout, and of the whole list with its last line. -/
namespace SnakeFront.Token

open Layout

def isLayout : Token → Bool
  | .newline | .indent | .dedent => true
  | _ => false

def balance (tokens : List Token) : Int := tokens.count .indent - tokens.count .dedent

/-- A token is read from the position on: quotes open there, or a bare word stands there that is no
newline and does not indent its line. -/
def Starts (words : List Word) (position : Nat) : Prop :=
  (roles words)[position]? = some .opening ∨
    (roles words)[position]? = some .bare ∧ ¬ Bare words position Word.newline ∧
      ¬ (InMargin words position ∧ (Bare words position Word.tab ∨ Bare words position Word.wide))

instance (words : List Word) : DecidablePred (Starts words) :=
  fun _ => inferInstanceAs (Decidable (_ ∨ _))

/-- The positions from which tokens are read. -/
def starts (words : List Word) : List Nat := (List.range words.length).filter (Starts words ·)

/-- The token that is read from the position on. -/
def tokenAt (words : List Word) (position : Nat) : Token :=
  if (roles words)[position]? = some .opening then .string (words.getD (position + 1) "")
  else ofWord (words.getD position "")

/-- The tokens that are no layout, each with the depth reached in front of it. -/
def levels (depth : Int) : List Token → List (Token × Int)
  | [] => []
  | .indent :: rest => levels (depth + 1) rest
  | .dedent :: rest => levels (depth - 1) rest
  | .newline :: rest => levels depth rest
  | token :: rest => (token, depth) :: levels depth rest

section
variable {token : Token} {tokens : List Token}

@[simp] theorem balance_nil : balance [] = 0 := rfl

@[simp] theorem balance_append (first second : List Token) :
    balance (first ++ second) = balance first + balance second := by
  simp only [balance, List.count_append]
  omega

theorem balance_cons (token : Token) (rest : List Token) :
    balance (token :: rest) = balance [token] + balance rest :=
  balance_append [token] rest

theorem balance_token (proper : token.isLayout = false) : balance [token] = 0 := by
  cases token with
  | newline | indent | dedent => cases proper
  | string | boolean | integer | var | operator => rfl
  | define | comma | colon | openParen | closeParen | equals => rfl

theorem balance_shift (depth target : Nat) : balance (shift depth target) = target - depth := by
  rw [shift, balance_append]
  simp [balance, List.count_replicate]
  omega

theorem levels_token (proper : token.isLayout = false) (depth : Int) (rest : List Token) :
    levels depth (token :: rest) = (token, depth) :: levels depth rest := by
  cases token with
  | newline | indent | dedent => cases proper
  | string | boolean | integer | var | operator => rfl
  | define | comma | colon | openParen | closeParen | equals => rfl

theorem levels_layout (layout : token.isLayout = true) (depth : Int) (rest : List Token) :
    levels depth (token :: rest) = levels (depth + balance [token]) rest := by
  cases token with
  | newline => exact congrArg (levels · rest) (Int.add_zero depth).symm
  | indent | dedent => rfl
  | string | boolean | integer | var | operator => cases layout
  | define | comma | colon | openParen | closeParen | equals => cases layout

theorem levels_rise (depth : Int) (count : Nat) (rest : List Token) :
    levels depth (List.replicate count .indent ++ rest) = levels (depth + count) rest := by
  induction count generalizing depth with
  | zero => simp
  | succ count ih =>
    rw [List.replicate_succ, List.cons_append, levels, ih]
    congr 1
    omega

theorem levels_fall (depth : Int) (count : Nat) (rest : List Token) :
    levels depth (List.replicate count .dedent ++ rest) = levels (depth - count) rest := by
  induction count generalizing depth with
  | zero => simp
  | succ count ih =>
    rw [List.replicate_succ, List.cons_append, levels, ih]
    congr 1
    omega

theorem levels_shift (depth target : Nat) (rest : List Token) :
    levels depth (shift depth target ++ rest) = levels target rest := by
  rw [shift, List.append_assoc, levels_rise, levels_fall]
  congr 1
  omega

theorem levels_fst (depth : Int) (tokens : List Token) :
    (levels depth tokens).map Prod.fst = tokens.filter (!·.isLayout) := by
  induction tokens generalizing depth with
  | nil => rfl
  | cons first rest ih =>
    cases layout : first.isLayout with
    | true => rw [levels_layout layout, ih, List.filter_cons_of_neg (by simp [layout])]
    | false =>
      rw [levels_token layout, List.map_cons, ih, List.filter_cons_of_pos (by simp [layout])]

theorem levels_getElem {index : Nat} (depth : Int) (found : tokens[index]? = some token)
    (proper : token.isLayout = false) :
    (levels depth tokens)[(tokens.take index).countP (!·.isLayout)]? =
      some (token, depth + balance (tokens.take index)) := by
  induction tokens generalizing index depth with
  | nil => cases found
  | cons first rest ih =>
    cases index with
    | zero =>
      cases found
      simp [levels_token proper]
    | succ index =>
      rw [List.take_succ_cons, balance_cons]
      cases layout : first.isLayout with
      | true =>
        rw [levels_layout layout, List.countP_cons_of_neg (by simp [layout]), ih _ found,
          Int.add_assoc]
      | false =>
        rw [levels_token layout, List.countP_cons_of_pos (by simp [layout]),
          List.getElem?_cons_succ, ih depth found, balance_token layout, Int.zero_add]

theorem isLayout_ofWord (word : Word) : (ofWord word).isLayout = false := by
  have spelled := spelling_ofWord word
  generalize ofWord word = token at spelled
  cases token with
  | newline | indent | dedent => cases spelled
  | string | boolean | integer | var | operator => rfl
  | define | comma | colon | openParen | closeParen | equals => rfl

end

section
variable {words : List Word} {position : Nat} {word mark text : Word} {role : Role}

theorem starts_bare_iff (bare : Bare words position word) :
    Starts words position ↔
      word ≠ Word.newline ∧ ¬ (InMargin words position ∧ isTab word = true) := by
  have same : ∀ other, Bare words position other ↔ word = other := by
    intro other
    constructor
    · exact bare.word_unique
    · rintro rfl
      exact bare
  simp [Starts, same, isTab_iff, bare.2]

theorem starts_quoted_iff (plays : Plays role words position word) (quoted : role ≠ .bare) :
    Starts words position ↔ role = .opening := by
  simp [Starts, plays.2, quoted]

theorem tokenAt_bare (bare : Bare words position word) : tokenAt words position = ofWord word := by
  simp [tokenAt, bare.2, List.getD_eq_getElem?_getD, bare.1]

theorem tokenAt_span (opening : Plays .opening words position mark)
    (quoted : Plays .quoted words (position + 1) text) : tokenAt words position = .string text := by
  simp [tokenAt, opening.2, List.getD_eq_getElem?_getD, quoted.1]

end

/-- The tokens stand at the depths of the lines of the next `count` words, read from `depth` on. -/
structure Levelled (words : List Word) (position count depth : Nat) (tokens : List Token) :
    Prop where
  levels_eq : levels depth tokens = ((List.range' position count).filter (Starts words ·)).map
    fun start => (tokenAt words start, (indentation words start : Int))
  balance_eq : depth + balance tokens = indentation words (position + count)

namespace Levelled

variable {words : List Word} {position count depth target : Nat} {tokens : List Token}
  {first : Token}

theorem newline (levelled : Levelled words position count depth tokens) :
    Levelled words position count depth (.newline :: tokens) := by
  constructor
  · rw [← levelled.levels_eq, levels]
  · have flat : balance [.newline] = 0 := rfl
    rw [← levelled.balance_eq, balance_cons, flat, Int.zero_add]

theorem skip (absent : ¬ Starts words position)
    (levelled : Levelled words (position + 1) count depth tokens) :
    Levelled words position (count + 1) depth tokens := by
  constructor
  · rw [levelled.levels_eq, List.range'_succ, List.filter_cons_of_neg (by simpa using absent)]
  · have sum : position + (count + 1) = position + 1 + count := by omega
    rw [levelled.balance_eq, sum]

theorem token (present : Starts words position) (proper : first.isLayout = false)
    (read : tokenAt words position = first) (level : indentation words position = target)
    (levelled : Levelled words (position + 1) count target tokens) :
    Levelled words position (count + 1) depth (shift depth target ++ first :: tokens) := by
  constructor
  · rw [levels_shift, levels_token proper, levelled.levels_eq, List.range'_succ,
      List.filter_cons_of_pos (by simpa using present), List.map_cons, read, level]
  · have sum : position + (count + 1) = position + 1 + count := by omega
    rw [balance_append, balance_cons, balance_shift, balance_token proper, sum,
      ← levelled.balance_eq]
    omega

end Levelled

/-- Every token is read at the depth of its line. -/
theorem arrange_levelled {words rest : List Word} {position line depth : Nat} {place : Place}
    {tokens : List Token} (reached : Reached words position rest place line depth)
    (read : arrange depth line place (Lexeme.ofWords rest) = .ok tokens) :
    Levelled words position rest.length depth tokens := by
  -- The induction is along the scan; a word that is no token leaves the depths as they are.
  induction rest using scan_induction generalizing position line depth place tokens with
  | nil =>
    have fits := reached.fits
    cases place with
    | inside =>
      cases read
      exact ⟨rfl, by simp [fits.2]⟩
    | margin tabs =>
      cases read
      have counted : indentation words position = tabs := by simpa using fits.2
      constructor
      · have flat := levels_shift depth tabs []
        rw [List.append_nil] at flat
        exact flat
      · rw [balance_shift, List.length_nil, Nat.add_zero, counted]
        omega
  | span mark text rest quote ih =>
    obtain ⟨_, opening, quoted, closing⟩ := reached.toRemains.after_span quote
    rw [(scan_span quote text rest).2, arrange_token] at read
    obtain ⟨others, behind, rfl⟩ := map_eq_ok.mp read
    have level := reached.settled_eq (Or.inr (isQuote_not_tab quote))
    have later := ih (reached.span quote) behind
    refine .token ((starts_quoted_iff opening (by decide)).mpr rfl) rfl
      (tokenAt_span opening quoted) level (.skip ?_ (.skip ?_ later))
    · rw [starts_quoted_iff quoted (by decide)]
      decide
    · rw [starts_quoted_iff closing (by decide)]
      decide
  | word word rest unclosed ih =>
    obtain ⟨_, bare⟩ := reached.toRemains.after_word unclosed
    rw [(scan_word unclosed).2] at read
    have part := part_ofWord word
    generalize Lexeme.ofWord word = lexeme at part read
    have indents (margin : InMargin words position) (tab : isTab word = true) :
        ¬ Starts words position := fun start => ((starts_bare_iff bare).mp start).2 ⟨margin, tab⟩
    -- A word that is read as a token, at the margin or behind it.
    have token {others : List Token} (newline : word ≠ Word.newline)
        (ends : place = .inside ∨ isTab word = false)
        (behind : arrange (settled depth place) line .inside (Lexeme.ofWords rest) = .ok others) :
        Levelled words position (rest.length + 1) depth
          (shift depth (settled depth place) ++ ofWord word :: others) := by
      have start : Starts words position := by
        refine (starts_bare_iff bare).mpr ⟨newline, ?_⟩
        rintro ⟨margin, tab⟩
        have plain := ends.resolve_left (reached.inMargin_iff.mp margin)
        exact Bool.noConfusion (plain.symm.trans tab)
      exact .token start (isLayout_ofWord word) (tokenAt_bare bare) (reached.settled_eq ends)
        (ih (reached.token unclosed newline ends) behind)
    cases part with
    | newline =>
      have absent : ¬ Starts words position := fun start => ((starts_bare_iff bare).mp start).1 rfl
      cases place with
      | inside =>
        obtain ⟨others, behind, rfl⟩ := map_eq_ok.mp read
        exact .newline (.skip absent (ih reached.newline behind))
      | margin tabs => exact .skip absent (ih reached.newline read)
    | tab =>
      cases place with
      | inside => cases read
      | margin tabs => exact .skip (indents reached.fits.1 rfl) (ih (reached.tab rfl) read)
    | wide =>
      cases place with
      | inside =>
        obtain ⟨others, behind, rfl⟩ := map_eq_ok.mp read
        have own : ofWord Word.wide = .var Word.wide := rfl
        simpa [shift, settled, own] using token (by decide) (Or.inl rfl) behind
      | margin tabs => exact .skip (indents reached.fits.1 rfl) (ih (reached.tab rfl) read)
    | blank =>
      cases place with
      | inside =>
        obtain ⟨others, behind, rfl⟩ := map_eq_ok.mp read
        have own : ofWord Word.blank = .var Word.blank := rfl
        simpa [shift, settled, own] using token (by decide) (Or.inl rfl) behind
      | margin tabs => cases read
    | token newline plain _ =>
      rw [arrange_token] at read
      obtain ⟨others, behind, rfl⟩ := map_eq_ok.mp read
      exact token newline (Or.inr plain) behind

theorem ofWords_levels {words : List Word} {tokens : List Token}
    (read : ofWords words = .ok tokens) :
    levels 0 tokens =
        (starts words).map (fun start => (tokenAt words start, (indentation words start : Int))) ∧
      balance tokens = indentation words words.length := by
  have levelled := arrange_levelled (Reached.start words) read
  refine ⟨?_, by simpa using levelled.balance_eq⟩
  rw [starts, List.range_eq_range']
  exact levelled.levels_eq

/-- The tokens that are no layout are read one by one from their positions, and each stands as deep
as its line is indented: the indents less the dedents before it are the tabs behind the last newline
outside quotes before its words. The whole list is as deep as its last line, so it is balanced
exactly if that line is not indented. -/
theorem depth_eq_indentation {words : List Word} {tokens : List Token}
    (read : ofWords words = .ok tokens) :
    tokens.filter (!·.isLayout) = (starts words).map (tokenAt words) ∧
    (∀ index token, tokens[index]? = some token → token.isLayout = false →
      ∃ position, (starts words)[(tokens.take index).countP (!·.isLayout)]? = some position ∧
        tokenAt words position = token ∧
        balance (tokens.take index) = indentation words position) ∧
    balance tokens = indentation words words.length ∧
    (tokens.count .indent = tokens.count .dedent ↔ indentation words words.length = 0) := by
  obtain ⟨each, whole⟩ := ofWords_levels read
  refine ⟨?_, ?_, whole, ?_⟩
  · rw [← levels_fst 0, each, List.map_map]
    rfl
  · intro index token found proper
    have level := levels_getElem 0 found proper
    rw [each, List.getElem?_map, Option.map_eq_some_iff] at level
    obtain ⟨position, start, same⟩ := level
    obtain ⟨sameToken, sameDepth⟩ := Prod.mk.inj same
    exact ⟨position, start, sameToken, by simpa using sameDepth.symm⟩
  · rw [balance] at whole
    omega

/-- A string that holds a newline leaves its line as it is, a blank line with a tab counts for
nothing, and wide blanks behind a token are a name. -/
theorem quoted_newline_keeps_depth :
    let words := ["x", "\n", "\t", "\"", "\n", "\"", "    ", "\n", "\t", "\n", "    ", "\t", "y",
      "\n"]
    let tokens : List Token := [.var "x", .newline, .indent, .string "\n", .var "    ", .newline,
      .indent, .var "y", .newline, .dedent, .dedent]
    ofWords words = .ok tokens ∧
      (∃ position, (starts words)[3]? = some position ∧ tokenAt words position = .var "y" ∧
        balance (tokens.take 7) = indentation words position) ∧
      balance tokens = indentation words words.length := by
  intro words tokens
  have read : ofWords words = .ok tokens := rfl
  obtain ⟨_, each, whole, _⟩ := depth_eq_indentation read
  exact ⟨read, each 7 (.var "y") rfl rfl, whole⟩

end SnakeFront.Token
