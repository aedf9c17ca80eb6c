import SnakeFront.NormalForm.Basic
import SnakeFront.Text.Indent
import SnakeFront.Text.Quoted

/-! Texts of normal form: one line per value or instruction, and a listing in which the body of a
function is indented under its header. -/
namespace SnakeFront.NormalForm

def Storage.render : Storage → String
  | var => "var"
  | param => "param"
  | temp => "tmp"
  | ret => "ret"
  | other code => "mem_" ++ toString code

def Address.render (address : Address) : String :=
  address.storage.render ++ "[" ++ toString address.index ++ "]"

def renderAddresses (addresses : List Address) : String :=
  ", ".intercalate (addresses.map Address.render)

def renderCall (name : String) (args : List Address) : String :=
  "call " ++ name ++ "(" ++ renderAddresses args ++ ")"

def Value.render : Value → String
  | address source => source.render
  | text value => Text.quote value
  | integer digits => digits
  | binary op left right => left.render ++ " " ++ op ++ " " ++ right.render
  | unary op operand => op ++ operand.render
  | call name args => renderCall name args
  | absent => "%!s(<nil>)"

def renderHeader (name : String) (params : List Address) : String :=
  "func " ++ name ++ "(" ++ renderAddresses params ++ ")"

def Instr.render : Instr → String
  | assign dest source => dest.render ++ " = " ++ source.render
  | call name args => renderCall name args
  | define name params body =>
    renderHeader name params ++ " [" ++ toString body.length ++ " instrs]"

mutual

def Instr.lines (level : Nat) : Instr → String
  | .define name params body =>
    Text.indent "  " level ++ renderHeader name params ++ ":\n" ++ linesAll (level + 1) body
  | .assign dest source => Text.indent "  " level ++ (Instr.assign dest source).render ++ "\n"
  | .call name args => Text.indent "  " level ++ (Instr.call name args).render ++ "\n"

def linesAll (level : Nat) : List Instr → String
  | [] => ""
  | instr :: rest => instr.lines level ++ linesAll level rest

end

def listing (instrs : List Instr) : String := linesAll 0 instrs

end SnakeFront.NormalForm
