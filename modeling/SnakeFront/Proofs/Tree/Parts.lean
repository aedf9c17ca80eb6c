import SnakeFront.Tree.Basic

/-! Parts of an expression, and the shapes of expression whose slots survive until they are read.
Operands share two temporaries and arguments share the parameter slots, so an operation inside a
right operand, or a call with arguments inside a later argument, writes where a value is waiting. -/
namespace SnakeFront.Tree

mutual

/-- The nodes of an expression, itself first. A statement is not looked into. -/
def Node.parts : Node → List Node
  | .call name args => .call name args :: partsAll args
  | .binary op left right => .binary op left right :: (left.parts ++ right.parts)
  | .unary op operand => .unary op operand :: operand.parts
  | node => [node]

def partsAll : List Node → List Node
  | [] => []
  | node :: rest => node.parts ++ partsAll rest

end

theorem partsAll_eq_flatMap (nodes : List Node) : partsAll nodes = nodes.flatMap Node.parts := by
  induction nodes with
  | nil => rfl
  | cons node rest ih => rw [partsAll, ih, List.flatMap_cons]

namespace Node

def isOperation : Node → Bool
  | binary .. | unary .. => true
  | _ => false

def passesArguments : Node → Bool
  | call _ (_ :: _) => true
  | _ => false

def OperationFree (node : Node) : Prop := ∀ part ∈ node.parts, part.isOperation = false

/-- No call in the expression has an argument. -/
def ArgumentFree (node : Node) : Prop := ∀ part ∈ node.parts, part.passesArguments = false

/-- The right operand applies no operator; an argument after the first passes no arguments. -/
def KeepsSlots : Node → Prop
  | binary _ _ right => right.OperationFree
  | call _ args => ∀ arg ∈ args.tail, arg.ArgumentFree
  | _ => True

def ClobberSafe (node : Node) : Prop := ∀ part ∈ node.parts, part.KeepsSlots

instance (node : Node) : Decidable node.OperationFree :=
  inferInstanceAs (Decidable (∀ part ∈ node.parts, part.isOperation = false))

instance (node : Node) : Decidable node.ArgumentFree :=
  inferInstanceAs (Decidable (∀ part ∈ node.parts, part.passesArguments = false))

instance : DecidablePred KeepsSlots
  | binary _ _ right => inferInstanceAs (Decidable right.OperationFree)
  | call _ args => inferInstanceAs (Decidable (∀ arg ∈ args.tail, arg.ArgumentFree))
  | text _ | boolean _ | integer _ | var _ | unary .. | define .. | assign .. | unknown | absent =>
    inferInstanceAs (Decidable True)

instance (node : Node) : Decidable node.ClobberSafe :=
  inferInstanceAs (Decidable (∀ part ∈ node.parts, part.KeepsSlots))

def reads (node : Node) : List String :=
  node.parts.filterMap fun
    | var name => some name
    | _ => none

section
variable (name op : String) (args : List Node) (left right operand : Node)

theorem parts_call : (call name args).parts = call name args :: args.flatMap parts :=
  congrArg (call name args :: ·) (partsAll_eq_flatMap args)

theorem parts_binary :
    (binary op left right).parts = binary op left right :: (left.parts ++ right.parts) := rfl

theorem parts_unary : (unary op operand).parts = unary op operand :: operand.parts := rfl

@[simp] theorem reads_var : (var name).reads = [name] := rfl

@[simp] theorem reads_call : (call name args).reads = args.flatMap reads := by
  rw [reads, parts_call, List.filterMap_cons_none rfl, List.filterMap_flatMap]
  rfl

@[simp] theorem reads_binary : (binary op left right).reads = left.reads ++ right.reads := by
  rw [reads, parts_binary, List.filterMap_cons_none rfl, List.filterMap_append]
  rfl

@[simp] theorem reads_unary : (unary op operand).reads = operand.reads := by
  rw [reads, parts_unary, List.filterMap_cons_none rfl]
  rfl

@[simp] theorem operationFree_call :
    (call name args).OperationFree ↔ ∀ arg ∈ args, arg.OperationFree := by
  simp only [OperationFree, parts_call, List.forall_mem_cons, isOperation, true_and,
    List.forall_mem_flatMap]

@[simp] theorem not_operationFree_binary : ¬ (binary op left right).OperationFree := by
  intro free
  cases free (binary op left right) (by simp [parts_binary])

@[simp] theorem not_operationFree_unary : ¬ (unary op operand).OperationFree := by
  intro free
  cases free (unary op operand) (by simp [parts_unary])

@[simp] theorem argumentFree_call : (call name args).ArgumentFree ↔ args = [] := by
  cases args with
  | nil => simp [ArgumentFree, parts_call, passesArguments]
  | cons arg rest => simp [ArgumentFree, parts_call, passesArguments]

@[simp] theorem argumentFree_binary :
    (binary op left right).ArgumentFree ↔ left.ArgumentFree ∧ right.ArgumentFree := by
  simp only [ArgumentFree, parts_binary, List.forall_mem_cons, passesArguments, true_and,
    List.forall_mem_append]

@[simp] theorem argumentFree_unary : (unary op operand).ArgumentFree ↔ operand.ArgumentFree := by
  simp only [ArgumentFree, parts_unary, List.forall_mem_cons, passesArguments, true_and]

@[simp] theorem clobberSafe_call : (call name args).ClobberSafe ↔
    (∀ arg ∈ args.tail, arg.ArgumentFree) ∧ ∀ arg ∈ args, arg.ClobberSafe := by
  simp only [ClobberSafe, parts_call, List.forall_mem_cons, KeepsSlots, List.forall_mem_flatMap]

@[simp] theorem clobberSafe_binary : (binary op left right).ClobberSafe ↔
    right.OperationFree ∧ left.ClobberSafe ∧ right.ClobberSafe := by
  simp only [ClobberSafe, parts_binary, List.forall_mem_cons, KeepsSlots, List.forall_mem_append]

@[simp] theorem clobberSafe_unary : (unary op operand).ClobberSafe ↔ operand.ClobberSafe := by
  simp only [ClobberSafe, parts_unary, List.forall_mem_cons, KeepsSlots, true_and]

end

/-- What a statement evaluates: the value of an assignment, or a call. -/
def evaluated : Node → List Node
  | assign _ value => [value]
  | call name args => [call name args]
  | _ => []

end Node
end SnakeFront.Tree
