/-! Words of a source text. A reserved character is a word of its own and every other word is a
longest run of plain characters. Four spaces make one tab word, other spaces only separate, and a
comment runs from its mark up to the end of the line. -/
namespace SnakeFront

abbrev Word := String

namespace Word

/-- The word of a tab character, and of four spaces in a row. -/
def tab : Word := "\t"

def newline : Word := "\n"

def wide : Word := "    "

def blank : Word := " "

def reserved : List Char := " \n\t=,:()\"'+-*/%#".toList

def isReserved (c : Char) : Bool := reserved.contains c

def isPlain (c : Char) : Bool := !isReserved c

theorem length_dropWhile_lt (p : Char → Bool) (c : Char) (rest : List Char) :
    (rest.dropWhile p).length < (c :: rest).length := by
  have suffix : rest.dropWhile p <:+ rest := List.dropWhile_suffix p
  exact Nat.lt_succ_of_le suffix.length_le

def split : List Char → List Word
  | [] => []
  | ' ' :: ' ' :: ' ' :: ' ' :: rest => tab :: split rest
  | ' ' :: rest => split rest
  | '#' :: rest => split (rest.dropWhile (· ≠ '\n'))
  | c :: rest =>
    if isReserved c then String.singleton c :: split rest
    else String.ofList (c :: rest.takeWhile isPlain) :: split (rest.dropWhile isPlain)
termination_by text => text.length
decreasing_by
  · simp only [List.length_cons]
    omega
  · exact Nat.lt_succ_self _
  · exact length_dropWhile_lt _ _ _
  · exact Nat.lt_succ_self _
  · exact length_dropWhile_lt _ _ _

end Word
end SnakeFront
