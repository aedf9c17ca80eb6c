import SnakeFront.Tree.Printer

/-! Why a program has no normal form. Each cause belongs to one of four kinds, blames one node of
the tree and has its own wording. -/
namespace SnakeFront.Lowering

open SnakeFront.Tree (Node)

inductive Kind where
  | unbound
  | badParameter
  | notExpression
  | unknownNode
deriving DecidableEq

namespace Kind

def title : Kind → String
  | unbound => "uninitialized variable"
  | badParameter => "invalid parameter"
  | notExpression => "not an expression"
  | unknownNode => "unknown node"

def ofCode? (code : Int) : Option Kind :=
  if code = 0 then some unbound
  else if code = 1 then some badParameter
  else if code = 2 then some notExpression
  else if code = 3 then some unknownNode
  else none

def titleOfCode (code : Int) : String := (ofCode? code).elim "unknown" title

end Kind

inductive Fault where
  | unbound (name : String)
  | badParameter (name : String) (params body : List Node) (index : Nat) (found : Node)
  /-- A statement stands where a value is needed. -/
  | notExpression (found : Node)
  /-- A boolean literal is neither of the two words. -/
  | badBoolean (word : String)
  /-- A node of no known shape stands where a value is needed. -/
  | strayExpression (found : Node)
  /-- A node of no known shape stands where a statement is needed. -/
  | strayStatement (found : Node)
  | noTarget (value : Node)

namespace Fault

def kind : Fault → Kind
  | unbound .. => .unbound
  | badParameter .. => .badParameter
  | notExpression .. => .notExpression
  | badBoolean .. | strayExpression .. | strayStatement .. | noTarget .. => .unknownNode

def node : Fault → Node
  | unbound name => .var name
  | badParameter name params body _ _ => .define name params body
  | notExpression found => found
  | badBoolean word => .boolean word
  | strayExpression found => found
  | strayStatement found => found
  | noTarget value => .assign none value

def detail : Fault → String
  | unbound name => "uninitialized variable " ++ Text.quote name ++ " was found"
  | badParameter name _ _ index found =>
    "parameter " ++ toString index ++ " of " ++ Text.quote name ++ " is " ++ found.render ++
      ", not a variable"
  | notExpression _ => "found a statement where there can only be expressions"
  | badBoolean word => "invalid boolean literal " ++ Text.quote word
  | strayExpression _ => "found an unknown node where an expression is expected"
  | strayStatement _ => "found an unknown node where a statement is expected"
  | noTarget _ => "assignment without a target variable"

def message (fault : Fault) : String :=
  fault.kind.title ++ ": " ++ fault.detail ++ " (in " ++ fault.node.render ++ ")"

end Fault
end SnakeFront.Lowering
