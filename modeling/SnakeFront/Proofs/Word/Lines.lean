import Mathlib.Data.List.SplitBy
import Mathlib.Data.List.TakeWhile
import SnakeFront.Word

/-! Words line by line. A text is read run by run, and no run reaches over the end of its line, so
each line has its words to itself. Main statement: the words of a text are those of its lines, with
a newline word between one line and the next; the words of a line are those of its pieces in front
of the comment. -/
namespace SnakeFront.Word

def isBlank (c : Char) : Bool := c = ' '

def isInLine (c : Char) : Bool := c ≠ '\n'

/-- The characters in front have the property, and the text behind them does not go on with it. -/
structure LongestRun (p : Char → Bool) (run rest : List Char) : Prop where
  nonempty : run ≠ []
  all : ∀ c ∈ run, p c = true
  ends : ∀ c ∈ rest.head?, p c = false

section
variable {p : Char → Bool} {c : Char} {run rest : List Char}

theorem exists_longestRun (p : Char → Bool) (rest : List Char) (first : p c = true) :
    ∃ run others, c :: rest = c :: run ++ others ∧ LongestRun p (c :: run) others ∧
      others.length < (c :: rest).length := by
  refine ⟨rest.takeWhile p, rest.dropWhile p, ?_, ⟨?_, ?_, ?_⟩, length_dropWhile_lt p c rest⟩
  · rw [List.cons_append, List.takeWhile_append_dropWhile]
  · exact List.cons_ne_nil c _
  · intro d member
    rcases List.mem_cons.mp member with rfl | later
    · exact first
    · exact List.mem_takeWhile_imp later
  · intro d head
    have stopped := List.head?_dropWhile_not p rest
    rw [Option.mem_def.mp head] at stopped
    exact stopped

theorem LongestRun.takeWhile_tail (longest : LongestRun p (c :: run) rest) :
    (run ++ rest).takeWhile p = run := by
  have all : ∀ d ∈ run, p d = true := fun d member => longest.all d (by simp [member])
  rw [List.takeWhile_append_of_pos all]
  cases rest with
  | nil => exact List.append_nil run
  | cons d tail => simp [longest.ends d rfl]

theorem LongestRun.dropWhile_tail (longest : LongestRun p (c :: run) rest) :
    (run ++ rest).dropWhile p = rest := by
  have all : ∀ d ∈ run, p d = true := fun d member => longest.all d (by simp [member])
  rw [List.dropWhile_append_of_pos all]
  cases rest with
  | nil => rfl
  | cons d tail => simp [longest.ends d rfl]

theorem LongestRun.newline (longest : LongestRun p run rest) (stops : p '\n' = false)
    (others : List Char) : LongestRun p run (rest ++ '\n' :: others) := by
  refine ⟨longest.nonempty, longest.all, ?_⟩
  cases rest with
  | nil => simpa using stops
  | cons d tail => exact longest.ends

theorem LongestRun.last_of_line (longest : LongestRun isInLine run rest) (single : '\n' ∉ rest) :
    rest = [] := by
  cases rest with
  | nil => rfl
  | cons d tail =>
    have ended : d = '\n' := by simpa [isInLine] using longest.ends d rfl
    exact absurd (by simp [ended]) single

theorem LongestRun.eq_spaces (longest : LongestRun isBlank run rest) :
    run = List.replicate run.length ' ' :=
  List.eq_replicate_iff.mpr ⟨rfl, fun d member => by simpa [isBlank] using longest.all d member⟩

theorem LongestRun.no_space_behind (longest : LongestRun isBlank run rest) :
    ∀ tail, rest ≠ ' ' :: tail := by
  rintro tail rfl
  cases longest.ends ' ' rfl

end

section
variable {c : Char} {run rest : List Char}

@[simp] theorem split_nil : split [] = [] := split.eq_1

theorem split_symbol (reserved : isReserved c = true) (blank : c ≠ ' ') (comment : c ≠ '#')
    (rest : List Char) : split (c :: rest) = String.singleton c :: split rest := by
  rw [split.eq_5 c rest (fun _ same _ => blank same) blank comment, if_pos reserved]

theorem split_plain (longest : LongestRun isPlain run rest) :
    split (run ++ rest) = String.ofList run :: split rest := by
  obtain ⟨c, tail, rfl⟩ := List.exists_cons_of_ne_nil longest.nonempty
  have unreserved : ¬ isReserved c = true := by
    simpa [isPlain] using longest.all c List.mem_cons_self
  have blank : c ≠ ' ' := by
    rintro rfl
    exact unreserved rfl
  have comment : c ≠ '#' := by
    rintro rfl
    exact unreserved rfl
  rw [List.cons_append, split.eq_5 c _ (fun _ same _ => blank same) blank comment,
    if_neg unreserved, longest.takeWhile_tail, longest.dropWhile_tail]

theorem split_comment (longest : LongestRun isInLine ('#' :: run) rest) :
    split ('#' :: run ++ rest) = split rest := by
  rw [List.cons_append, split]
  exact congrArg split longest.dropWhile_tail

theorem split_few_spaces (next : ∀ tail, rest ≠ ' ' :: tail) {count : Nat} (few : count < 4) :
    split (List.replicate count ' ' ++ rest) = split rest := by
  induction count with
  | zero => rfl
  | succ count ih =>
    have none : ∀ tail, List.replicate count ' ' ++ rest ≠ ' ' :: ' ' :: ' ' :: tail := by
      have cases : count = 0 ∨ count = 1 ∨ count = 2 := by omega
      rcases cases with rfl | rfl | rfl <;> simp [next]
    rw [List.replicate_succ, List.cons_append, split.eq_3 _ none]
    exact ih (Nat.lt_of_succ_lt few)

theorem split_spaces (next : ∀ tail, rest ≠ ' ' :: tail) (count : Nat) :
    split (List.replicate count ' ' ++ rest) =
      List.replicate (count / 4) tab ++ split rest := by
  induction count using Nat.strongRecOn with
  | ind count ih =>
    by_cases few : count < 4
    · rw [split_few_spaces next few, Nat.div_eq_of_lt few, List.replicate_zero, List.nil_append]
    · obtain ⟨fewer, rfl⟩ := Nat.exists_eq_add_of_le' (Nat.le_of_not_lt few)
      have more : (fewer + 4) / 4 = fewer / 4 + 1 := by omega
      have later := ih fewer (Nat.lt_add_of_pos_right (by omega))
      rw [more, List.replicate_succ (a := tab), List.cons_append, ← later]
      exact split.eq_2 _

theorem split_blanks (longest : LongestRun isBlank run rest) :
    split (run ++ rest) = List.replicate (run.length / 4) tab ++ split rest := by
  rw [longest.eq_spaces, List.length_replicate]
  exact split_spaces longest.no_space_behind run.length

end

/-- Induction along a text: blanks, a comment and plain characters are taken a run at a time, any
other character alone. -/
theorem run_induction {P : List Char → Prop} (nil : P [])
    (blanks : ∀ run rest, LongestRun isBlank run rest → P rest → P (run ++ rest))
    (comment : ∀ run rest, LongestRun isInLine ('#' :: run) rest → P rest → P ('#' :: run ++ rest))
    (symbol : ∀ c rest, isReserved c = true → c ≠ ' ' → c ≠ '#' → P rest → P (c :: rest))
    (plain : ∀ run rest, LongestRun isPlain run rest → P rest → P (run ++ rest))
    (text : List Char) : P text := by
  induction size : text.length using Nat.strongRecOn generalizing text with
  | ind size ih =>
    subst size
    match text with
    | [] => exact nil
    | c :: rest =>
      by_cases blank : c = ' '
      · have first : isBlank c = true := by simp [isBlank, blank]
        obtain ⟨run, others, whole, longest, shorter⟩ := exists_longestRun isBlank rest first
        rw [whole]
        exact blanks _ others longest (ih _ shorter others rfl)
      · by_cases mark : c = '#'
        · subst mark
          obtain ⟨run, others, whole, longest, shorter⟩ :=
            exists_longestRun (c := '#') isInLine rest rfl
          rw [whole]
          exact comment run others longest (ih _ shorter others rfl)
        · cases reserved : isReserved c with
          | true => exact symbol c rest reserved blank mark (ih _ (Nat.lt_succ_self _) rest rfl)
          | false =>
            have first : isPlain c = true := by simp [isPlain, reserved]
            obtain ⟨run, others, whole, longest, shorter⟩ := exists_longestRun isPlain rest first
            rw [whole]
            exact plain _ others longest (ih _ shorter others rfl)

theorem split_newline (text others : List Char) :
    split (text ++ '\n' :: others) = split text ++ newline :: split others := by
  induction text using run_induction with
  | nil =>
    rw [split_nil]
    exact split_symbol (c := '\n') rfl (by decide) (by decide) others
  | blanks run rest longest ih =>
    rw [List.append_assoc, split_blanks (longest.newline rfl others), ih, split_blanks longest,
      List.append_assoc]
  | comment run rest longest ih =>
    rw [List.append_assoc, split_comment (longest.newline rfl others), ih, split_comment longest]
  | symbol c rest reserved blank mark ih =>
    rw [List.cons_append, split_symbol reserved blank mark, ih, split_symbol reserved blank mark,
      List.cons_append]
  | plain run rest longest ih =>
    rw [List.append_assoc, split_plain (longest.newline rfl others), ih, split_plain longest,
      List.cons_append]

/-- Neighbours that stay together: two blanks, or two plain characters. -/
def joined (c d : Char) : Bool := isBlank c && isBlank d || isPlain c && isPlain d

/-- A line cut wherever two neighbours do not stay together: into longest runs of blanks, longest
runs of plain characters, and every other character alone. -/
def pieces (line : List Char) : List (List Char) := line.splitBy joined

/-- Blanks give a tab for every four of them; any other piece is a word. -/
def pieceWords (piece : List Char) : List Word :=
  if piece.all isBlank then List.replicate (piece.length / 4) tab else [String.ofList piece]

/-- The words of a line, up to its first comment mark. -/
def lineWords (line : List Char) : List Word :=
  (pieces (line.takeWhile (· ≠ '#'))).flatMap pieceWords

section
variable {run rest : List Char}

theorem takeWhile_unmarked (mark : '#' ∉ run) :
    (run ++ rest).takeWhile (· ≠ '#') = run ++ rest.takeWhile (· ≠ '#') := by
  apply List.takeWhile_append_of_pos
  intro c member
  have different : c ≠ '#' := by
    rintro rfl
    exact mark member
  simpa using different

theorem lineWords_append (nonempty : run ≠ []) (mark : '#' ∉ run)
    (chain : run.IsChain fun c d => joined c d = true)
    (apart : ∀ c ∈ run, ∀ d ∈ rest.head?, joined c d = false) :
    lineWords (run ++ rest) = pieceWords run ++ lineWords rest := by
  have parted : ∀ c ∈ run.getLast?, ∀ d ∈ (rest.takeWhile (· ≠ '#')).head?, joined c d = false := by
    intro c last d head
    refine apart c (List.mem_of_getLast? last) d ?_
    cases rest with
    | nil => cases head
    | cons e tail =>
      by_cases same : e = '#'
      · simp [same] at head
      · simpa [same] using head
  rw [lineWords, takeWhile_unmarked mark, pieces, List.splitBy_append parted,
    List.splitBy_of_isChain nonempty chain]
  rfl

theorem lineWords_run {p : Char → Bool} (longest : LongestRun p run rest)
    (mark : p '#' = false) (same : ∀ c d, p c = true → joined c d = p d) :
    lineWords (run ++ rest) = pieceWords run ++ lineWords rest := by
  have within : ∀ c ∈ run, ∀ d ∈ run, joined c d = true := by
    intro c first d second
    rw [same c d (longest.all c first)]
    exact longest.all d second
  refine lineWords_append longest.nonempty ?_ (List.pairwise_of_forall_mem_list within).isChain ?_
  · intro member
    exact Bool.noConfusion (mark.symm.trans (longest.all '#' member))
  · intro c first d next
    rw [same c d (longest.all c first)]
    exact longest.ends d next

end

section
variable {c : Char}

theorem isPlain_of_blank (blank : isBlank c = true) : isPlain c = false := by
  have same : c = ' ' := by simpa [isBlank] using blank
  subst same
  rfl

theorem joined_blank (blank : isBlank c = true) (d : Char) : joined c d = isBlank d := by
  simp [joined, blank, isPlain_of_blank blank]

theorem joined_plain (plain : isPlain c = true) (d : Char) : joined c d = isPlain d := by
  cases blank : isBlank c with
  | true => exact Bool.noConfusion (plain.symm.trans (isPlain_of_blank blank))
  | false => simp [joined, plain, blank]

theorem joined_symbol (reserved : isReserved c = true) (blank : c ≠ ' ') (d : Char) :
    joined c d = false := by
  simp [joined, isBlank, isPlain, reserved, blank]

end

/-- A line by itself. A comment runs to its end, so nothing is left behind it. -/
theorem split_line {line : List Char} (single : '\n' ∉ line) : split line = lineWords line := by
  induction line using run_induction with
  | nil => rw [split_nil]; rfl
  | blanks run rest longest ih =>
    have spaces : run.all isBlank = true := List.all_eq_true.mpr longest.all
    rw [split_blanks longest, lineWords_run longest rfl fun c d blank => joined_blank blank d,
      pieceWords, if_pos spaces, ih fun later => single (by simp [later])]
  | comment run rest longest ih =>
    have last := longest.last_of_line fun later => single (by simp [later])
    rw [split_comment longest, last, split_nil]
    rfl
  | symbol c rest reserved blank mark ih =>
    have word : ¬ [c].all isBlank = true := by simpa [isBlank] using blank
    have piece : lineWords (c :: rest) = pieceWords [c] ++ lineWords rest := by
      refine lineWords_append (List.cons_ne_nil c []) (by simpa using mark.symm) (by simp) ?_
      intro d only e _
      rw [List.mem_singleton.mp only, joined_symbol reserved blank]
    rw [split_symbol reserved blank mark, piece, pieceWords, if_neg word,
      ih fun later => single (by simp [later])]
    rfl
  | plain run rest longest ih =>
    obtain ⟨c, tail, rfl⟩ := List.exists_cons_of_ne_nil longest.nonempty
    have plain := longest.all c List.mem_cons_self
    have word : ¬ (c :: tail).all isBlank = true := by
      intro blank
      have first : isBlank c = true := List.all_eq_true.mp blank c List.mem_cons_self
      exact Bool.noConfusion (plain.symm.trans (isPlain_of_blank first))
    rw [split_plain longest, lineWords_run longest rfl fun c d plain => joined_plain plain d,
      pieceWords, if_neg word, ih fun later => single (by simp [later])]
    rfl

/-- The words of a text are those of its lines, with a newline between one line and the next. -/
theorem split_eq_lines (text : List Char) :
    split text = [newline].intercalate ((text.splitOn '\n').map lineWords) := by
  induction size : text.length using Nat.strongRecOn generalizing text with
  | ind size ih =>
    by_cases more : '\n' ∈ text
    · obtain ⟨line, rest, rfl, single⟩ := List.eq_append_cons_of_mem more
      have behind := ih rest.length (by simp [← size]; omega) rest rfl
      obtain ⟨next, others, lines⟩ := List.exists_cons_of_ne_nil (List.splitOn_ne_nil '\n' rest)
      rw [split_newline, split_line single, behind, List.splitOn_append_cons_self_of_not_mem single,
        lines, List.map_cons, List.map_cons, List.map_cons, List.intercalate_cons_cons,
        List.append_assoc, List.singleton_append]
    · rw [split_line more, List.splitOn_eq_singleton more]
      simp

example : lineWords "f(x)      # four of six".toList = ["f", "(", "x", ")", "\t"] := by decide

end SnakeFront.Word
