import SnakeFront.Lexeme
import SnakeFront.Text.Quoted

/-! Layout of tokens. A newline opens a margin; the tabs counted there are the depth of the line,
and the line's first token is preceded by the indents or dedents that lead from the old depth to
the new one. A further newline in the margin starts the count again and leaves no token, so blank
lines are not seen. -/
namespace SnakeFront.Layout

inductive Cause where
  | leadingSpace
  | strayTab
deriving DecidableEq

namespace Cause

def title : Cause → String
  | leadingSpace => "leading space indentation"
  | strayTab => "tab in the middle of a statement"

def detail : Cause → String
  | leadingSpace => "lines cannot be indented with spaces"
  | strayTab => "cannot have a tab in the middle of a statement"

end Cause

/-- Why a word list has no tokens, the word that was found, and its line, counted from one. -/
structure Fault where
  cause : Cause
  word : Word
  line : Nat
deriving DecidableEq

def Fault.message (fault : Fault) : String :=
  "line " ++ toString fault.line ++ ": " ++ fault.cause.detail ++
    " (got " ++ Text.quote fault.word ++ ")"

inductive Place where
  /-- Behind the first token of a line. -/
  | inside
  /-- At the start of a line, with the tabs seen so far. -/
  | margin (tabs : Nat)
deriving DecidableEq

def shift (depth target : Nat) : List Token :=
  List.replicate (target - depth) .indent ++ List.replicate (depth - target) .dedent

def arrange (depth line : Nat) : Place → List Lexeme → Except Fault (List Token)
  | .inside, [] => .ok []
  | .inside, .newline :: rest =>
    (arrange depth (line + 1) (.margin 0) rest).map (.newline :: ·)
  | .inside, .tab :: _ => .error ⟨.strayTab, Word.tab, line⟩
  | .inside, .wide :: rest => (arrange depth line .inside rest).map (.var Word.wide :: ·)
  | .inside, .blank :: rest => (arrange depth line .inside rest).map (.var Word.blank :: ·)
  | .inside, .token token :: rest => (arrange depth line .inside rest).map (token :: ·)
  | .margin tabs, [] => .ok (shift depth tabs)
  | .margin _, .newline :: rest => arrange depth (line + 1) (.margin 0) rest
  | .margin tabs, .tab :: rest => arrange depth line (.margin (tabs + 1)) rest
  | .margin tabs, .wide :: rest => arrange depth line (.margin (tabs + 1)) rest
  | .margin _, .blank :: _ => .error ⟨.leadingSpace, Word.blank, line⟩
  | .margin tabs, .token token :: rest =>
    (arrange tabs line .inside rest).map (shift depth tabs ++ token :: ·)

end SnakeFront.Layout

namespace SnakeFront.Token

/-- The tokens of a word list: it starts on line one, inside a line of depth zero. -/
def ofWords (words : List Word) : Except Layout.Fault (List Token) :=
  Layout.arrange 0 1 .inside (Lexeme.ofWords words)

end SnakeFront.Token
