import SnakeFront.Source.Basic
import SnakeFront.Token.Layout
import SnakeFront.Trace

/-! Reading of a source text, first to words and then to tokens. The words are known even where
there are no tokens. -/
namespace SnakeFront.Source

def words (source : Source) : List Word := Word.split source.chars

def tokens (source : Source) : Except Layout.Fault (List Token) := Token.ofWords source.words

def failure (fault : Layout.Fault) : String := "lexing failed: " ++ fault.message

def readingTrace (source : Source) : List String :=
  ["Tokenizing " ++ toString source.size ++ " bytes...",
   "Tokenizing complete. " ++ toString source.words.length ++ " words produced.",
   "Lexing..."] ++
  match source.tokens with
  | .ok tokens => ["Lexing complete. " ++ toString tokens.length ++ " tokens produced."]
  | .error _ => []

end SnakeFront.Source
