/-! Snake trees. A program is a list of nodes; assignments, definitions and calls do something as
statements, every other node is an expression. Trees come from outside and need not be sensible: a
node may be absent or of no known shape, a parameter may be any node, and an assignment may have
lost its target. -/
namespace SnakeFront.Tree

inductive Node where
  | text (value : String)
  | boolean (word : String)
  | integer (digits : String)
  | var (name : String)
  | call (name : String) (args : List Node)
  | binary (op : String) (left right : Node)
  | unary (op : String) (operand : Node)
  | define (name : String) (params body : List Node)
  | assign (target : Option String) (value : Node)
  | unknown
  | absent

abbrev Program := List Node

/-- A node that can stand in statement position only. -/
def Node.isStatement : Node → Bool
  | define .. | assign .. => true
  | _ => false

end SnakeFront.Tree
