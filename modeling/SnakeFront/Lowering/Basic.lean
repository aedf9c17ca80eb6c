import SnakeFront.Lowering.Fault
import SnakeFront.NormalForm.Basic
import SnakeFront.Scope.Basic

/-! Lowering of trees to normal form. An expression is lowered towards the address its value must
end up in. The operands of an operator always pass through the first two temporaries and the
arguments of a call through the parameter slots, at every depth of nesting. -/
namespace SnakeFront.Lowering

open NormalForm
open SnakeFront.Tree (Node Program)

def truthValue (word : String) : Option String :=
  if word = "True" then some "1" else if word = "False" then some "0" else none

mutual

def expression (scope : Scope) (dest : Address) : Node → Except Fault (List Instr)
  | .text value => .ok [.assign dest (.text value)]
  | .integer digits => .ok [.assign dest (.integer digits)]
  | .boolean word =>
    match truthValue word with
    | some digits => .ok [.assign dest (.integer digits)]
    | none => .error (.badBoolean word)
  | .var name =>
    match scope.lookup name with
    | some slot => .ok [.assign dest (.address (.var slot))]
    | none => .error (.unbound name)
  | .call name args => do
    let setup ← arguments scope 0 args
    return setup ++ [.assign dest (.call name (Address.params args.length))]
  | .binary op left right => do
    let first ← expression scope (.temp 0) left
    let second ← expression scope (.temp 1) right
    return first ++ second ++ [.assign dest (.binary op (.temp 0) (.temp 1))]
  | .unary op operand => do
    let code ← expression scope (.temp 0) operand
    return code ++ [.assign dest (.unary op (.temp 0))]
  | .define name params body => .error (.notExpression (.define name params body))
  | .assign target value => .error (.notExpression (.assign target value))
  | .unknown => .error (.strayExpression .unknown)
  | .absent => .error (.strayExpression .absent)

/-- Places arguments in the parameter slots from `position` on. -/
def arguments (scope : Scope) (position : Nat) : List Node → Except Fault (List Instr)
  | [] => .ok []
  | arg :: rest => do
    let code ← expression scope (.param position) arg
    let others ← arguments scope (position + 1) rest
    return code ++ others

end

def parameterNames (refuse : Nat → Node → Fault) (index : Nat) :
    List Node → Except Fault (List String)
  | [] => .ok []
  | .var name :: rest => do
    let names ← parameterNames refuse (index + 1) rest
    return name :: names
  | found :: _ => .error (refuse index found)

/-- Copies the parameter slots to consecutive variable slots. -/
def prologue (slot count : Nat) : List Instr :=
  (List.range count).map fun i => .assign (.var (slot + i)) (.address (.param i))

mutual

/-- The instructions of a statement, and the scope after it. A definition leaves the scope as it
was, and an expression other than a call is not looked into. -/
def statement (scope : Scope) : Node → Except Fault (List Instr × Scope)
  | .define name params body => do
    let names ← parameterNames (.badParameter name params body) 0 params
    let (code, _) ← block (scope.nest.bindAll names) body
    let copies := prologue scope.next names.length
    return ([.define name (Address.params names.length) (copies ++ code)], scope)
  | .assign none value => .error (.noTarget value)
  | .assign (some target) value => do
    let (slot, inner) := scope.claim target
    let code ← expression inner (.var slot) value
    return (code, inner)
  | .call name args => do
    let setup ← arguments scope 0 args
    return (setup ++ [.call name (Address.params args.length)], scope)
  | .text _ | .boolean _ | .integer _ | .var _ | .binary .. | .unary .. => .ok ([], scope)
  | .unknown => .error (.strayStatement .unknown)
  | .absent => .error (.strayStatement .absent)

def block (scope : Scope) : List Node → Except Fault (List Instr × Scope)
  | [] => .ok ([], scope)
  | node :: rest => do
    let (code, inner) ← statement scope node
    let (others, outer) ← block inner rest
    return (code ++ others, outer)

end

def program (scope : Scope) (nodes : Program) : Except Fault (List Instr) :=
  (block scope nodes).map (·.1)

end SnakeFront.Lowering
