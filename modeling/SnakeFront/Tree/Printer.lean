import SnakeFront.Tree.Basic
import SnakeFront.Text.Indent
import SnakeFront.Text.Quoted

/-! Two views of a tree: a node on one line, where a definition hides its parameters and body, and
the outline of a program, one line per statement with bodies indented under their definition. -/
namespace SnakeFront.Tree

mutual

def Node.render : Node → String
  | .text value => Text.quote value
  | .boolean word => word
  | .integer digits => digits
  | .var name => name
  | .call name args => name ++ "(" ++ ", ".intercalate (renderAll args) ++ ")"
  | .binary op left right => "(" ++ left.render ++ " " ++ op ++ " " ++ right.render ++ ")"
  | .unary op operand => "(" ++ op ++ operand.render ++ ")"
  | .define name _ _ => "def " ++ name ++ "(…)"
  | .assign (some target) value => target ++ " = " ++ value.render
  | .assign none value => "<nil> = " ++ value.render
  | .unknown => "<unknown node>"
  | .absent => "<nil>"

def renderAll : List Node → List String
  | [] => []
  | node :: rest => node.render :: renderAll rest

end

theorem renderAll_eq_map (nodes : List Node) : renderAll nodes = nodes.map Node.render := by
  induction nodes with
  | nil => rfl
  | cons node rest ih => rw [renderAll, ih, List.map_cons]

def Node.headline : Node → String
  | .define name params body =>
    "FunctionDef " ++ name ++ "(" ++ ", ".intercalate (renderAll params) ++ ") [" ++
      toString body.length ++ " statements]"
  | .assign target value => "Assign " ++ (Node.assign target value).render
  | .call name args => "Call " ++ (Node.call name args).render
  | node => "Expr " ++ node.render

mutual

def Node.outline (level : Nat) : Node → String
  | .define name params body =>
    Text.indent "  " level ++ (Node.define name params body).headline ++ "\n" ++
      outlineAll (level + 1) body
  | node => Text.indent "  " level ++ node.headline ++ "\n"

def outlineAll (level : Nat) : List Node → String
  | [] => ""
  | node :: rest => node.outline level ++ outlineAll level rest

end

def outline (program : Program) : String := "Program\n" ++ outlineAll 1 program

end SnakeFront.Tree
