import SnakeFront.Token.Basic

/-! Words sorted by their part in the layout. A quote word, any word, and the same quote word again
are one string; a quote that does not close two words later is a word like any other. -/
namespace SnakeFront

inductive Lexeme where
  | newline
  | tab
  | wide
  | blank
  | token (token : Token)
deriving DecidableEq

namespace Lexeme

def ofWord (word : Word) : Lexeme :=
  if word = Word.newline then newline
  else if word = Word.tab then tab
  else if word = Word.wide then wide
  else if word = Word.blank then blank
  else token (Token.ofWord word)

def isQuote (word : Word) : Bool := word = "\"" || word = "'"

def ofWords : List Word → List Lexeme
  | mark :: text :: close :: rest =>
    if isQuote mark ∧ close = mark then token (.string text) :: ofWords rest
    else ofWord mark :: ofWords (text :: close :: rest)
  | word :: rest => ofWord word :: ofWords rest
  | [] => []

end Lexeme
end SnakeFront
