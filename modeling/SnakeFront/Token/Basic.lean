import SnakeFront.Word

/-! Tokens. Literals, names and operators carry their text; layout marks, the word `def` and the
punctuation are tokens by themselves. -/
namespace SnakeFront

inductive Token where
  | string (text : String)
  | boolean (word : Word)
  | integer (digits : Word)
  | var (name : Word)
  | operator (symbol : Word)
  | newline
  | indent
  | dedent
  | define
  | comma
  | colon
  | openParen
  | closeParen
  | equals
deriving DecidableEq

namespace Token

inductive Kind where
  | string | boolean | integer | var | operator
  | newline | indent | dedent
  | define | comma | colon | openParen | closeParen | equals
deriving DecidableEq

namespace Kind

def all : List Kind :=
  [string, boolean, integer, var, operator, newline, indent, dedent,
   define, comma, colon, openParen, closeParen, equals]

def code : Kind → String
  | string => "STRING"
  | boolean => "BOOLEAN"
  | integer => "INTEGER"
  | var => "VARIABLE"
  | operator => "OPERATOR"
  | newline => "NEWLINE"
  | indent => "INDENT"
  | dedent => "DEDENT"
  | define => "DEF"
  | comma => "COMMA"
  | colon => "COLON"
  | openParen => "LPAREN"
  | closeParen => "RPAREN"
  | equals => "EQUALS"

def title : Kind → String
  | string => "String"
  | boolean => "Boolean"
  | integer => "Integer"
  | var => "Variable"
  | operator => "Operator"
  | newline => "Newline"
  | indent => "Indent"
  | dedent => "Dedent"
  | define => "Def"
  | comma => "Comma"
  | colon => "Colon"
  | openParen => "OpenParen"
  | closeParen => "CloseParen"
  | equals => "Equals"

def carriesText : Kind → Bool
  | string | boolean | integer | var | operator => true
  | _ => false

def ofCode? (text : String) : Option Kind := all.find? (·.code == text)

def label (kind : Kind) (text : String) : String :=
  if kind.carriesText then kind.title ++ "(" ++ text ++ ")" else kind.title

end Kind

def kind : Token → Kind
  | .string _ => .string
  | .boolean _ => .boolean
  | .integer _ => .integer
  | .var _ => .var
  | .operator _ => .operator
  | .newline => .newline
  | .indent => .indent
  | .dedent => .dedent
  | .define => .define
  | .comma => .comma
  | .colon => .colon
  | .openParen => .openParen
  | .closeParen => .closeParen
  | .equals => .equals

def text : Token → String
  | .string text | .boolean text | .integer text | .var text | .operator text => text
  | _ => ""

def render (token : Token) : String := token.kind.label token.text

/-- Shows a kind given by its code; a code that names no kind is shown as it stands. -/
def describe (code text : String) : String :=
  match Kind.ofCode? code with
  | some kind => kind.label text
  | none => code

def isInteger (word : Word) : Bool := word ≠ "" && word.toList.all Char.isDigit

def markers : List (Word × Token) :=
  [("def", define), (",", comma), (":", colon), ("(", openParen), (")", closeParen),
   ("=", equals)]

def operators : List Word := ["+", "-", "*", "/", "%"]

def ofWord (word : Word) : Token :=
  if word = "True" ∨ word = "False" then boolean word
  else if isInteger word then integer word
  else match markers.lookup word with
    | some marker => marker
    | none => if word ∈ operators then operator word else var word

end Token
end SnakeFront
