import SnakeFront.Tree.Basic

/-! Names of variables throughout a tree. A variable is named where it is read, where it is assigned
and where it is a parameter, and these names can be exchanged for others. Calls and definitions have
names of their own, which stay. -/
namespace SnakeFront.Tree

mutual

def Node.mentions : Node → List String
  | .text _ | .boolean _ | .integer _ | .unknown | .absent => []
  | .var name => [name]
  | .call _ args => mentionsAll args
  | .binary _ left right => left.mentions ++ right.mentions
  | .unary _ operand => operand.mentions
  | .define _ params body => mentionsAll params ++ mentionsAll body
  | .assign target value => target.toList ++ value.mentions

def mentionsAll : List Node → List String
  | [] => []
  | node :: rest => node.mentions ++ mentionsAll rest

end

mutual

def Node.rename (new : String → String) : Node → Node
  | .text value => .text value
  | .boolean word => .boolean word
  | .integer digits => .integer digits
  | .var name => .var (new name)
  | .call name args => .call name (renameAll new args)
  | .binary op left right => .binary op (left.rename new) (right.rename new)
  | .unary op operand => .unary op (operand.rename new)
  | .define name params body => .define name (renameAll new params) (renameAll new body)
  | .assign target value => .assign (target.map new) (value.rename new)
  | .unknown => .unknown
  | .absent => .absent

def renameAll (new : String → String) : List Node → List Node
  | [] => []
  | node :: rest => node.rename new :: renameAll new rest

end

theorem length_renameAll (new : String → String) (nodes : List Node) :
    (renameAll new nodes).length = nodes.length := by
  induction nodes with
  | nil => rfl
  | cons node rest ih => simp only [renameAll, List.length_cons, ih]

mutual

theorem rename_id : (node : Node) → node.rename id = node
  | .text _ | .boolean _ | .integer _ | .var _ | .unknown | .absent => rfl
  | .call name args => by simp only [Node.rename, renameAll_id args]
  | .binary op left right => by simp only [Node.rename, rename_id left, rename_id right]
  | .unary op operand => by simp only [Node.rename, rename_id operand]
  | .define name params body => by simp only [Node.rename, renameAll_id params, renameAll_id body]
  | .assign target value => by simp only [Node.rename, Option.map_id, id_eq, rename_id value]

theorem renameAll_id : (nodes : List Node) → renameAll id nodes = nodes
  | [] => rfl
  | node :: rest => by simp only [renameAll, rename_id node, renameAll_id rest]

end

end SnakeFront.Tree
