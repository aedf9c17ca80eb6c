import SnakeFront.Proofs.Token.Positions
import SnakeFront.Proofs.Token.Spelling

/-! Token lists that reading can give. They are arranged in lines, and a quote is a name in them
only where the words have it outside of strings. -/
namespace SnakeFront.Token

section
open Layout
variable {depth line : Nat} {tokens : List Token}

/-- What the reading of words can produce: a token that is no layout and is at home in a line. -/
def Sound : Lexeme → Prop
  | .token token => token.Admissible ∧ token.OpensLine
  | .newline | .tab | .wide | .blank => True

theorem ofWord_sound {word : Word} (newline : word ≠ Word.newline) (tab : word ≠ Word.tab)
    (wide : word ≠ Word.wide) (blank : word ≠ Word.blank) : Sound (.token (ofWord word)) := by
  unfold ofWord
  split
  next boolean => exact ⟨boolean, by simp [OpensLine]⟩
  next boolean =>
    split
    next number => exact ⟨(isInteger_iff word).mp number, by simp [OpensLine]⟩
    next number =>
      split
      next marker found =>
        have each : ∀ entry ∈ markers, entry.2.Admissible ∧ entry.2.OpensLine := by decide
        obtain ⟨before, after, table, _⟩ := List.lookup_eq_some_iff.mp found
        exact each (word, marker) (by simp [table])
      next missing =>
        have marker : word ∉ markers.map Prod.fst := by
          intro member
          obtain ⟨entry, present, rfl⟩ := List.mem_map.mp member
          simpa using List.lookup_eq_none_iff.mp missing entry present
        rw [isInteger_iff] at number
        split
        next operator => exact ⟨operator, by simp [OpensLine]⟩
        next operator =>
          exact ⟨⟨newline, tab, fun yes => boolean (Or.inl yes), fun no => boolean (Or.inr no),
            number, marker, operator⟩, by simp [OpensLine, wide, blank]⟩

theorem lexeme_sound (word : Word) : Sound (Lexeme.ofWord word) := by
  unfold Lexeme.ofWord
  split
  next => trivial
  next newline =>
    split
    next => trivial
    next tab =>
      split
      next => trivial
      next wide =>
        split
        next => trivial
        next blank => exact ofWord_sound newline tab wide blank

theorem ofWords_sound (words : List Word) : ∀ lexeme ∈ Lexeme.ofWords words, Sound lexeme := by
  fun_induction Lexeme.ofWords words with
  | case1 mark text close rest quoted ih =>
    refine List.forall_mem_cons.mpr ⟨⟨trivial, by simp [OpensLine]⟩, ih⟩
  | case2 mark text close rest _ ih => exact List.forall_mem_cons.mpr ⟨lexeme_sound mark, ih⟩
  | case3 word rest _ ih => exact List.forall_mem_cons.mpr ⟨lexeme_sound word, ih⟩
  | case4 => simp

def Placed (depth : Nat) (tokens : List Token) : Place → Prop
  | .inside => Arranged depth tokens
  | .margin _ => ∃ target rest, tokens = shift depth target ++ rest ∧
      (∀ first ∈ rest.head?, first.OpensLine) ∧ Arranged target rest

theorem map_eq_ok {α β : Type} {outcome : Except Fault α} {f : α → β} {result : β} :
    outcome.map f = .ok result ↔ ∃ value, outcome = .ok value ∧ f value = result := by
  cases outcome with
  | error fault => simp [Except.map]
  | ok value => simp [Except.map]

theorem placed_of_arrange {place : Place} {lexemes : List Lexeme}
    (sound : ∀ lexeme ∈ lexemes, Sound lexeme)
    (read : arrange depth line place lexemes = .ok tokens) : Placed depth tokens place := by
  induction lexemes generalizing depth line place tokens with
  | nil =>
    cases place with
    | inside =>
      cases read
      exact .done depth
    | margin tabs =>
      cases read
      exact ⟨tabs, [], by simp, by simp, .done tabs⟩
  | cons lexeme rest ih =>
    have later : ∀ lexeme ∈ rest, Sound lexeme := fun other member => sound other (by simp [member])
    have here := sound lexeme (by simp)
    cases place with
    | inside =>
      cases lexeme with
      | newline =>
        obtain ⟨others, behind, rfl⟩ := map_eq_ok.mp read
        obtain ⟨target, tail, rfl, opens, arranged⟩ := ih later behind
        exact .line (run_shift depth target) opens arranged
      | tab => cases read
      | wide =>
        obtain ⟨others, behind, rfl⟩ := map_eq_ok.mp read
        exact .token (by decide) (ih later behind)
      | blank =>
        obtain ⟨others, behind, rfl⟩ := map_eq_ok.mp read
        exact .token (by decide) (ih later behind)
      | token token =>
        obtain ⟨others, behind, rfl⟩ := map_eq_ok.mp read
        exact .token here.1 (ih later behind)
    | margin tabs =>
      cases lexeme with
      | newline | tab | wide =>
        rw [arrange] at read
        have behind := ih later read
        exact behind
      | blank => cases read
      | token token =>
        obtain ⟨others, behind, rfl⟩ := map_eq_ok.mp read
        exact ⟨tabs, token :: others, rfl, by simpa using here.2, .token here.1 (ih later behind)⟩

theorem arranged_ofWords {words : List Word} (read : ofWords words = .ok tokens) :
    Arranged 0 tokens :=
  placed_of_arrange (ofWords_sound words) read

theorem token_mem_of_arrange {place : Place} {lexemes : List Lexeme} {token : Token}
    (read : arrange depth line place lexemes = .ok tokens) (admissible : token.Admissible)
    (opens : token.OpensLine) (member : token ∈ tokens) : .token token ∈ lexemes := by
  have no_shift : ∀ depth target, token ∉ shift depth target := by
    intro depth target stepped
    simp only [shift, List.mem_append, List.mem_replicate] at stepped
    rcases stepped with ⟨_, rfl⟩ | ⟨_, rfl⟩ <;> exact admissible
  induction lexemes generalizing depth line place tokens with
  | nil =>
    cases place with
    | inside =>
      cases read
      cases member
    | margin tabs =>
      cases read
      exact absurd member (no_shift depth tabs)
  | cons lexeme rest ih =>
    cases place with
    | inside =>
      cases lexeme with
      | tab => cases read
      | newline =>
        obtain ⟨others, behind, rfl⟩ := map_eq_ok.mp read
        have later := (List.mem_cons.mp member).resolve_left opens.1
        exact List.mem_cons_of_mem _ (ih behind later)
      | wide =>
        obtain ⟨others, behind, rfl⟩ := map_eq_ok.mp read
        have later := (List.mem_cons.mp member).resolve_left opens.2.2
        exact List.mem_cons_of_mem _ (ih behind later)
      | blank =>
        obtain ⟨others, behind, rfl⟩ := map_eq_ok.mp read
        have later := (List.mem_cons.mp member).resolve_left opens.2.1
        exact List.mem_cons_of_mem _ (ih behind later)
      | token first =>
        obtain ⟨others, behind, rfl⟩ := map_eq_ok.mp read
        rcases List.mem_cons.mp member with rfl | later
        · exact List.mem_cons_self
        · exact List.mem_cons_of_mem _ (ih behind later)
    | margin tabs =>
      cases lexeme with
      | blank => cases read
      | newline | tab | wide =>
        rw [arrange] at read
        exact List.mem_cons_of_mem _ (ih read member)
      | token first =>
        obtain ⟨others, behind, rfl⟩ := map_eq_ok.mp read
        have found := (List.mem_append.mp member).resolve_left (no_shift depth tabs)
        rcases List.mem_cons.mp found with rfl | later
        · exact List.mem_cons_self
        · exact List.mem_cons_of_mem _ (ih behind later)

end

theorem spelling_ofWord (word : Word) : (ofWord word).spelling = [word] := by
  unfold ofWord
  split
  next => rfl
  next =>
    split
    next => rfl
    next =>
      split
      next marker found =>
        have each : ∀ entry ∈ markers, entry.2.spelling = [entry.1] := by decide
        obtain ⟨before, after, table, _⟩ := List.lookup_eq_some_iff.mp found
        exact each (word, marker) (by simp [table])
      next => split <;> rfl

theorem word_of_lexeme {word : Word} {token : Token} (read : Lexeme.ofWord word = .token token) :
    token.spelling = [word] := by
  have own : token = ofWord word := by
    unfold Lexeme.ofWord at read
    grind
  rw [own, spelling_ofWord]

/-- A name is a word that stands outside quotes. -/
theorem bare_of_mem {words rest : List Word} {position : Nat} {name : Word}
    (remains : Remains words position rest)
    (member : .token (.var name) ∈ Lexeme.ofWords rest) : ∃ found, Bare words found name := by
  -- The induction is along the scan: within a span there is no name to be found.
  induction rest using scan_induction generalizing position with
  | nil => cases member
  | span mark text rest quote ih =>
    rw [(scan_span quote text rest).2] at member
    have later : .token (.var name) ∈ Lexeme.ofWords rest := by simpa using member
    exact ih (remains.after_span quote).1 later
  | word word rest unclosed ih =>
    obtain ⟨behind, bare⟩ := remains.after_word unclosed
    rw [(scan_word unclosed).2] at member
    rcases List.mem_cons.mp member with here | later
    · have same : name = word := by simpa [spelling] using word_of_lexeme here.symm
      exact ⟨position, same ▸ bare⟩
    · exact ih behind later

theorem bare_of_read {mark : Word} {words : List Word} {tokens : List Token}
    (read : ofWords words = .ok tokens) (quote : Lexeme.isQuote mark)
    (member : .var mark ∈ tokens) : ∃ position, Bare words position mark := by
  have home : (var mark).Admissible ∧ (var mark).OpensLine := by
    rcases isQuote_iff.mp quote with rfl | rfl <;> decide
  exact bare_of_mem (.start words) (token_mem_of_arrange read home.1 home.2 member)

/-- Canonical token lists are spelled and read back unchanged. Every list that is read is arranged
in lines, and it is canonical too unless a quote outside of strings became a name. -/
theorem spelling_round_trip_and_image :
    (∀ tokens, Canonical tokens → ofWords (unlex 0 tokens) = .ok tokens) ∧
    ∀ words tokens, ofWords words = .ok tokens →
      Arranged 0 tokens ∧
        (Canonical tokens ∨ ∃ position mark,
          Lexeme.isQuote mark ∧ Bare words position mark ∧ .var mark ∈ tokens) := by
  constructor
  · intro tokens canonical
    exact arrange_unlex canonical.arranged canonical.unquoted 1
  · intro words tokens read
    have arranged := arranged_ofWords read
    refine ⟨arranged, ?_⟩
    by_cases quoted : ∃ mark, Lexeme.isQuote mark ∧ .var mark ∈ tokens
    · obtain ⟨mark, quote, member⟩ := quoted
      obtain ⟨position, bare⟩ := bare_of_read read quote member
      exact Or.inr ⟨position, mark, quote, bare, member⟩
    · refine Or.inl ⟨arranged, ?_⟩
      intro name member
      have plain : ¬ Lexeme.isQuote name := fun quote => quoted ⟨name, quote, member⟩
      simpa [Lexeme.isQuote] using plain

theorem indented_line_and_open_quote :
    (Canonical [.colon, .newline, .indent, .var "x", .equals, .string "\n", .newline, .dedent,
        .var "y", .var " "] ∧
      ofWords [":", "\n", "\t", "x", "=", "\"", "\n", "\"", "\n", "y", " "] =
        .ok [.colon, .newline, .indent, .var "x", .equals, .string "\n", .newline, .dedent,
          .var "y", .var " "]) ∧
    ofWords ["\"", "x", "\n"] = .ok [.var "\"", .var "x", .newline] ∧
      Arranged 0 [.var "\"", .var "x", .newline] := by
  have last : Arranged 0 [.var "y", .var " "] :=
    .token (by decide) (.token (by decide) (.done 0))
  have body : Arranged 1 [.var "x", .equals, .string "\n", .newline, .dedent, .var "y", .var " "] :=
    .token (by decide) (.token (by decide) (.token (by decide)
      (.line (Run.fall 0 1) (by decide) last)))
  have arranged : Arranged 0 [.colon, .newline, .indent, .var "x", .equals, .string "\n", .newline,
      .dedent, .var "y", .var " "] :=
    .token (by decide) (.line (Run.rise 0 1) (by decide) body)
  have canonical : Canonical [.colon, .newline, .indent, .var "x", .equals, .string "\n", .newline,
      .dedent, .var "y", .var " "] :=
    ⟨arranged, by simp [Unquoted]⟩
  have read : ofWords ["\"", "x", "\n"] = .ok [.var "\"", .var "x", .newline] := rfl
  exact ⟨⟨canonical, spelling_round_trip_and_image.1 _ canonical⟩, read,
    (spelling_round_trip_and_image.2 _ _ read).1⟩

end SnakeFront.Token
