import SnakeFront.Command.Run
import SnakeFront.Proofs.Source.Vocabulary

/-! Debug mode and the result of a run. Debug mode prints lines with marks of their own, and nothing
else that is printed has such a line in it, not even a string token that holds a newline. Main
statement: runs with the same path and the same wish for words end with the same code, and print the
same up to the lines of debug mode. -/
namespace SnakeFront.Text

theorem newline_not_mem_hexDigits (width n : Nat) : '\n' ∉ hexDigits width n := by
  have digit : ∀ value < 16, hexDigit value ≠ '\n' := by decide
  induction width generalizing n with
  | zero => simp [hexDigits]
  | succ width ih =>
    have last := digit (n % 16) (Nat.mod_lt n (by decide))
    simp [hexDigits, ih, last.symm]

theorem newline_not_mem_escapeCode (code : Nat) : '\n' ∉ escapeCode code := by
  unfold escapeCode
  split
  next letter found =>
    have each : ∀ control ∈ controlLetters, control.2 ≠ '\n' := by decide
    obtain ⟨before, after, table, _⟩ := List.lookup_eq_some_iff.mp found
    have other := each (code, letter) (by simp [table])
    simp [other.symm]
  next =>
    split
    · simp [newline_not_mem_hexDigits]
    · split <;> simp [newline_not_mem_hexDigits]

theorem newline_not_mem_escape (c : Char) : '\n' ∉ escape c := by
  have control : isPrintable '\n' = false := by decide +kernel
  unfold escape
  split
  next mark =>
    rcases mark with rfl | rfl <;> decide
  next =>
    split
    next printable =>
      have other : c ≠ '\n' := by
        rintro rfl
        exact Bool.noConfusion (control.symm.trans printable)
      simpa using other.symm
    next => exact newline_not_mem_escapeCode c.toNat

theorem newline_not_mem_quote (text : String) : '\n' ∉ (quote text).toList := by
  simp [quote, newline_not_mem_escape]

theorem newline_not_mem_digits (n : Nat) : '\n' ∉ Nat.toDigits 10 n := by
  intro member
  cases Nat.isDigit_of_mem_toDigits (by decide) (by decide) member

end SnakeFront.Text

namespace SnakeFront.Token

open Word

theorem Arranged.admissible_or_layout {depth : Nat} {tokens : List Token}
    (arranged : Arranged depth tokens) : ∀ token ∈ tokens, token.Admissible ∨ token.text = "" := by
  induction arranged with
  | done => simp
  | token admissible _ ih =>
    rw [List.forall_mem_cons]
    exact ⟨Or.inl admissible, ih⟩
  | line run _ _ ih =>
    rw [List.forall_mem_cons, List.forall_mem_append]
    refine ⟨Or.inr rfl, ?_, ih⟩
    intro token member
    rw [run.eq_shift] at member
    simp only [Layout.shift, List.mem_append, List.mem_replicate] at member
    rcases member with ⟨_, rfl⟩ | ⟨_, rfl⟩ <;> exact Or.inr rfl

theorem newline_not_mem_plain {word : Word} (plain : PlainWord word) : '\n' ∉ word.toList := by
  intro member
  cases plain.2 '\n' member

theorem newline_not_mem_readable {word : Word} (readable : Readable word) :
    word = "\n" ∨ '\n' ∉ word.toList := by
  rcases readable with ⟨c, _, _, _, rfl⟩ | plain
  · by_cases newline : c = '\n'
    · exact Or.inl (by rw [newline]; rfl)
    · exact Or.inr (by simpa using Ne.symm newline)
  · exact Or.inr (newline_not_mem_plain plain)

/-- Of the tokens of a source only a string can hold a newline, and that holds nothing else. -/
theorem text_newline {source : Source} {tokens : List Token} (read : source.tokens = .ok tokens)
    {token : Token} (member : token ∈ tokens) : token.text = "\n" ∨ '\n' ∉ token.text.toList := by
  have speaks := source.tokens_speak
  rw [read] at speaks
  have vocabulary := speaks token member
  rcases (arranged_ofWords read).admissible_or_layout token member with admissible | layout
  · cases token with
    | string text => exact newline_not_mem_readable vocabulary
    | var name =>
      rcases vocabulary with rfl | rfl | ⟨plain, _⟩
      · exact Or.inr (by decide)
      · exact Or.inr (by decide)
      · exact Or.inr (newline_not_mem_plain plain)
    | boolean word =>
      rcases admissible with rfl | rfl <;> exact Or.inr (by decide)
    | integer digits =>
      refine Or.inr fun found => ?_
      cases admissible.2 '\n' found
    | operator symbol =>
      have each : ∀ symbol ∈ operators, '\n' ∉ symbol.toList := by decide
      exact Or.inr (each symbol admissible)
    | newline | indent | dedent => exact Or.inr (by decide)
    | define | comma | colon | openParen | closeParen | equals => exact Or.inr (by decide)
  · exact Or.inr (by simp [layout])

end SnakeFront.Token

namespace SnakeFront.Command

def isDebugLine (line : List Char) : Bool :=
  "[DEBUG] ".toList.isPrefixOf line || "[pipeline] ".toList.isPrefixOf line

def textLines (text : String) : List (List Char) := text.toList.splitOn '\n'

/-- A text without its lines that have a mark of debug mode. -/
def undebugged (text : String) : String :=
  String.ofList (['\n'].intercalate ((textLines text).filter fun line => !isDebugLine line))

def remaining (entries : List String) : List (List Char) :=
  (entries.flatMap textLines).filter fun line => !isDebugLine line

theorem remaining_append (first second : List String) :
    remaining (first ++ second) = remaining first ++ remaining second := by
  simp [remaining]

theorem textLines_stdout (outcome : Outcome) :
    textLines outcome.stdout = outcome.lines.flatMap textLines ++ [[]] := by
  obtain ⟨exit, entries⟩ := outcome
  have joined : ∀ entries : List String, textLines (String.join (entries.map (· ++ "\n"))) =
      entries.flatMap textLines ++ [[]] := by
    intro entries
    induction entries with
    | nil => rfl
    | cons entry rest ih =>
      rw [List.map_cons, String.join_cons, textLines, String.toList_append, String.toList_append,
        List.append_assoc, List.flatMap_cons, List.append_assoc, ← ih]
      exact List.splitOn_append_cons_self _ _
  exact joined entries

theorem undebugged_stdout (outcome : Outcome) :
    undebugged outcome.stdout =
      String.ofList (['\n'].intercalate (remaining outcome.lines ++ [[]])) := by
  rw [undebugged, textLines_stdout, List.filter_append]
  rfl

def Shown (entry : String) : Prop := ∀ line ∈ textLines entry, isDebugLine line = false

instance : DecidablePred Shown := fun entry => List.decidableBAll _ (textLines entry)

theorem undebugged_shown {outcome : Outcome} (shown : ∀ entry ∈ outcome.lines, Shown entry) :
    undebugged outcome.stdout = outcome.stdout := by
  have whole : (textLines outcome.stdout).filter (fun line => !isDebugLine line) =
      textLines outcome.stdout := by
    rw [List.filter_eq_self, textLines_stdout, List.forall_mem_append]
    refine ⟨?_, by simp [isDebugLine]⟩
    intro line member
    obtain ⟨entry, present, within⟩ := List.mem_flatMap.mp member
    simp [shown entry present line within]
  rw [undebugged, whole, textLines, List.intercalate_splitOn, String.ofList_toList]

theorem textLines_single {entry : String} (single : '\n' ∉ entry.toList) :
    textLines entry = [entry.toList] :=
  List.splitOn_eq_singleton single

theorem shown_single {entry : String} (single : '\n' ∉ entry.toList)
    (unmarked : entry.toList.head? ≠ some '[') : Shown entry := by
  intro line member
  rw [textLines_single single, List.mem_singleton] at member
  subst member
  cases chars : entry.toList with
  | nil => rfl
  | cons c rest =>
    have other : '[' ≠ c := by
      rintro rfl
      exact unmarked (by simp [chars])
    simp [isDebugLine, List.isPrefixOf, other]

theorem remaining_marked {mark : String} (marked : ∀ rest, isDebugLine (mark.toList ++ rest) = true)
    (single : '\n' ∉ mark.toList) {messages : List String}
    (each : ∀ message ∈ messages, '\n' ∉ message.toList) :
    remaining (messages.map (mark ++ ·)) = [] := by
  rw [remaining, List.filter_eq_nil_iff]
  intro line member
  obtain ⟨entry, present, within⟩ := List.mem_flatMap.mp member
  obtain ⟨message, listed, rfl⟩ := List.mem_map.mp present
  have one : '\n' ∉ (mark ++ message).toList := by simp [single, each message listed]
  rw [textLines_single one, List.mem_singleton] at within
  rw [within, String.toList_append, marked]
  simp

/-- A token is shown whole. If it holds a newline, its second line is the closing bracket. -/
theorem shown_label (kind : Token.Kind) {text : String} (held : text = "\n" ∨ '\n' ∉ text.toList) :
    Shown ("  " ++ kind.label text) := by
  rcases held with rfl | single
  · cases kind <;> decide
  · have title : '\n' ∉ kind.title.toList := by cases kind <;> decide
    refine shown_single ?_ (by simp)
    unfold Token.Kind.label
    split <;> simp [title, single]

theorem shown_failure (fault : Layout.Fault) : Shown ("  " ++ Source.failure fault) := by
  have detail : '\n' ∉ fault.cause.detail.toList := by
    cases fault.cause <;> simp [Layout.Cause.detail]
  refine shown_single ?_ (by simp)
  simp [Source.failure, Layout.Fault.message, Text.newline_not_mem_digits,
    Text.newline_not_mem_quote, detail]

namespace Invocation

def quiet (call : Invocation) : Invocation := { call with debug := false }

def result (find : String → Entry) (call : Invocation) : Outcome :=
  match call.path with
  | none => ⟨1, ["Usage: snake [--debug] [--words] <file>"]⟩
  | some path => call.quiet.conclude (find path)

theorem remaining_debugLines (call : Invocation) {messages : List String}
    (each : ∀ message ∈ messages, '\n' ∉ message.toList) :
    remaining (call.debugLines messages) = [] := by
  unfold debugLines
  split
  · exact remaining_marked (fun rest => by simp [isDebugLine, List.isPrefixOf]) (by decide) each
  · rfl

theorem newline_not_mem_readingTrace (source : Source) :
    ∀ entry ∈ source.readingTrace, '\n' ∉ entry.toList := by
  rw [Source.readingTrace, List.forall_mem_append]
  constructor
  · simp [Text.newline_not_mem_digits]
  · cases source.tokens with
    | ok tokens => simp [Text.newline_not_mem_digits]
    | error fault => simp

theorem remaining_traceLines (call : Invocation) (source : Source) :
    remaining (call.traceLines source) = [] := by
  unfold traceLines
  split
  · exact remaining_marked (fun rest => by simp [isDebugLine, List.isPrefixOf]) (by decide)
      (newline_not_mem_readingTrace source)
  · rfl

theorem present_quiet (call : Invocation) (source : Source) :
    (call.present source).exit = (call.quiet.present source).exit ∧
      remaining (call.present source).lines = remaining (call.quiet.present source).lines := by
  unfold present
  split
  · refine ⟨rfl, ?_⟩
    have single : ∀ message ∈ ["Front end finished successfully."], '\n' ∉ message.toList := by
      simp
    rw [remaining_append, remaining_append, call.remaining_debugLines single,
      call.quiet.remaining_debugLines single]
  · exact ⟨rfl, rfl⟩

theorem conclude_quiet (call : Invocation) (entry : Entry) :
    (call.conclude entry).exit = (call.quiet.conclude entry).exit ∧
      remaining (call.conclude entry).lines = remaining (call.quiet.conclude entry).lines := by
  cases entry with
  | missing => exact ⟨rfl, rfl⟩
  | unreadable details => exact ⟨rfl, rfl⟩
  | readable source =>
    obtain ⟨exit, lines⟩ := call.present_quiet source
    refine ⟨exit, ?_⟩
    simp only [conclude, Outcome.after, remaining_append, remaining_traceLines, lines]
    rfl

theorem exit_conclude_eq_zero (call : Invocation) (entry : Entry) :
    (call.conclude entry).exit = 0 ↔
      ∃ source tokens, entry = .readable source ∧ source.tokens = .ok tokens := by
  cases entry with
  | missing => simp [conclude]
  | unreadable details => simp [conclude]
  | readable source =>
    cases read : source.tokens with
    | ok tokens => simp [conclude, Outcome.after, present, read]
    | error fault => simp [conclude, Outcome.after, present, read]

theorem wordLines_shown (call : Invocation) (source : Source) :
    ∀ line ∈ call.wordLines source, Shown line := by
  unfold wordLines
  split
  · rw [List.forall_mem_cons, List.forall_mem_map]
    refine ⟨by decide, ?_⟩
    intro word _
    exact shown_single (by simp [Text.newline_not_mem_quote]) (by simp)
  · simp

theorem present_shown (call : Invocation) (source : Source) :
    ∀ line ∈ (call.quiet.present source).lines, Shown line := by
  unfold present
  split
  next tokens read =>
    rw [List.forall_mem_append, List.forall_mem_cons, List.forall_mem_map]
    refine ⟨⟨by decide, ?_⟩, by simp [debugLines, quiet]⟩
    intro token member
    exact shown_label token.kind (Token.text_newline read member)
  next fault _ =>
    rw [List.forall_mem_cons, List.forall_mem_singleton]
    exact ⟨by decide, shown_failure fault⟩

/-- Without debug mode, nothing that is printed looks like a line of it. -/
theorem conclude_shown (call : Invocation) {entry : Entry}
    (single : ∀ details, entry = .unreadable details → '\n' ∉ details.toList) :
    ∀ line ∈ (call.quiet.conclude entry).lines, Shown line := by
  cases entry with
  | missing => exact List.forall_mem_singleton.mpr (by decide)
  | unreadable details =>
    rw [conclude, List.forall_mem_cons, List.forall_mem_singleton]
    refine ⟨by decide, shown_single ?_ (by simp)⟩
    simpa using single details rfl
  | readable source =>
    rw [conclude, Outcome.after, List.forall_mem_append, List.forall_mem_append]
    refine ⟨⟨?_, call.quiet.wordLines_shown source⟩, call.present_shown source⟩
    simp [traceLines, quiet]

end Invocation

section
variable (find : String → Entry) {args others : List String}

/-- A run ends with the result that its call has without debug mode, and prints that result up to
the lines of debug mode. -/
theorem run_result (single : ∀ path, args.find? isPath = some path → '\n' ∉ path.toList) :
    (run find args).exit = ((Invocation.ofArgs args).result find).exit ∧
      remaining (run find args).lines = remaining ((Invocation.ofArgs args).result find).lines := by
  have banner : ∀ message ∈ ["Snake front end V" ++ version, "Using debug mode."],
      '\n' ∉ message.toList := by simp [version]
  generalize known : Invocation.ofArgs args = call
  have path_eq : call.path = args.find? isPath := by rw [← known]; rfl
  simp only [run, Invocation.result, known]
  cases named : call.path with
  | none =>
    refine ⟨rfl, ?_⟩
    simp only [remaining_append, call.remaining_debugLines banner, List.nil_append]
  | some path =>
    obtain ⟨exit, lines⟩ := call.conclude_quiet (find path)
    refine ⟨exit, ?_⟩
    have reading : ∀ message ∈ ["Reading: " ++ path], '\n' ∉ message.toList := by
      simpa using single path (path_eq.symm.trans named)
    simp only [Outcome.after, remaining_append, call.remaining_debugLines banner,
      call.remaining_debugLines reading, List.nil_append, lines]

theorem run_without_debug (off : "--debug" ∉ args) :
    run find args = (Invocation.ofArgs args).result find := by
  have quiet : (Invocation.ofArgs args).quiet = Invocation.ofArgs args := by
    simp [Invocation.quiet, Invocation.ofArgs, off]
  rw [Invocation.result, quiet, run]
  cases (Invocation.ofArgs args).path with
  | none => simp [Invocation.debugLines, Invocation.ofArgs, off]
  | some path => simp [Invocation.debugLines, Invocation.ofArgs, off, Outcome.after]

theorem result_eq (words : "--words" ∈ args ↔ "--words" ∈ others)
    (same : args.find? isPath = others.find? isPath) :
    (Invocation.ofArgs args).result find = (Invocation.ofArgs others).result find := by
  have quiet : (Invocation.ofArgs args).quiet = (Invocation.ofArgs others).quiet := by
    simp [Invocation.quiet, Invocation.ofArgs, words, same]
  have path : (Invocation.ofArgs args).path = (Invocation.ofArgs others).path := same
  rw [Invocation.result, Invocation.result, quiet, path]

theorem exit_result_eq_zero : ((Invocation.ofArgs args).result find).exit = 0 ↔
    ∃ path source tokens, args.find? isPath = some path ∧ find path = .readable source ∧
      source.tokens = .ok tokens := by
  have path_eq : (Invocation.ofArgs args).path = args.find? isPath := rfl
  rw [Invocation.result, path_eq]
  cases args.find? isPath with
  | none => simp
  | some path => simp [Invocation.exit_conclude_eq_zero]

theorem result_shown
    (single : ∀ path details, args.find? isPath = some path → find path = .unreadable details →
      '\n' ∉ details.toList) :
    ∀ line ∈ ((Invocation.ofArgs args).result find).lines, Shown line := by
  have path_eq : (Invocation.ofArgs args).path = args.find? isPath := rfl
  rw [Invocation.result, path_eq]
  cases named : args.find? isPath with
  | none => exact List.forall_mem_singleton.mpr (by decide)
  | some path => exact Invocation.conclude_shown _ fun details => single path details named

end

/-- Two runs with the same path, on one line, and the same wish for words end with the same code,
which is zero if there is a path and what it leads to can be read and has tokens. Without the lines
of debug mode they print the same; if one of them was run without it and all its details are on one
line, that is all it printed. -/
theorem debug_lines_do_not_interfere (find : String → Entry) {args others : List String}
    (words : "--words" ∈ args ↔ "--words" ∈ others)
    (same : args.find? isPath = others.find? isPath)
    (single : ∀ path, args.find? isPath = some path → '\n' ∉ path.toList) :
    (run find args).exit = (run find others).exit ∧
    ((run find args).exit = 0 ↔ ∃ path source tokens, args.find? isPath = some path ∧
      find path = .readable source ∧ source.tokens = .ok tokens) ∧
    undebugged (run find args).stdout = undebugged (run find others).stdout ∧
    ("--debug" ∉ others → (∀ path details, others.find? isPath = some path →
        find path = .unreadable details → '\n' ∉ details.toList) →
      undebugged (run find args).stdout = (run find others).stdout) := by
  obtain ⟨exit, lines⟩ := run_result find single
  obtain ⟨exitToo, linesToo⟩ := run_result find (same ▸ single)
  have result := result_eq find words same
  have printed : undebugged (run find args).stdout = undebugged (run find others).stdout := by
    rw [undebugged_stdout, undebugged_stdout, lines, linesToo, result]
  refine ⟨?_, ?_, printed, ?_⟩
  · rw [exit, exitToo, result]
  · rw [exit, exit_result_eq_zero]
  · intro off details
    rw [printed, run_without_debug find off]
    exact undebugged_shown (result_shown find details)

/-- A string that is a newline is printed on two lines, and both are there with and without debug
mode, wherever the flags stand and whatever follows the path. -/
theorem quoted_newline_kept_under_debug :
    let find (path : String) : Entry :=
      if path = "a" then .readable (Source.ofText "'\n'") else .missing
    let args := ["--verbose", "a", "--debug", "b"]
    let others := ["", "a"]
    "[DEBUG] Reading: a" ∈ (run find args).lines ∧
      (run find args).exit = 0 ∧ (run find others).exit = 0 ∧
      undebugged (run find args).stdout = undebugged (run find others).stdout ∧
      undebugged (run find args).stdout = "Tokens:\n  String(\n)\n" := by
  intro find args others
  have readable : Word.Readable "\n" := by decide
  have words := Source.words_quoted (Or.inr rfl) readable
  have tokens : (Source.ofText "'\n'").tokens = .ok [.string "\n"] := by
    rw [Source.tokens]
    exact congrArg Token.ofWords words
  have named : args.find? isPath = some "a" := rfl
  have single : ∀ path, args.find? isPath = some path → '\n' ∉ path.toList := by
    rintro path found
    cases named.symm.trans found
    decide
  have details : ∀ path details, others.find? isPath = some path →
      find path = .unreadable details → '\n' ∉ details.toList := by
    intro path details _ found
    simp only [find] at found
    split at found <;> cases found
  obtain ⟨exit, zero, printed, kept⟩ :=
    @debug_lines_do_not_interfere find args others (by decide) rfl single
  have ended := zero.mpr ⟨"a", _, _, named, rfl, tokens⟩
  refine ⟨?_, ended, exit ▸ ended, printed, (kept (by decide) details).trans ?_⟩
  · simp [run, args, Invocation.ofArgs, isPath, Outcome.after, Invocation.debugLines]
  · have found : find "a" = .readable (Source.ofText "'\n'") := rfl
    have shown : "  " ++ (Token.string "\n").render = "  String(\n)" := by decide
    simp [run, others, Invocation.ofArgs, isPath, found, Invocation.conclude, Invocation.present,
      tokens, Outcome.after, Invocation.debugLines, Invocation.traceLines, Invocation.wordLines,
      shown, Outcome.stdout]

end SnakeFront.Command
