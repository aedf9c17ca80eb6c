/-! Assembly: operands, instructions and labelled blocks. The tree is only written out, so nothing
in it is checked; an operand or instruction may be of no known shape. -/
namespace SnakeFront.Assembly

inductive Operand where
  | register (name : String)
  | pointed (name : String)
  /-- The memory at `base + index * scale`. -/
  | scaled (base index : String) (scale : Int)
  | integer (digits : String)
  | text (label : String)
  | unknown
deriving DecidableEq

inductive Instr where
  | add (dst src : Operand)
  | sub (dst src : Operand)
  | mul (src : Operand)
  | div (src : Operand)
  | neg (dst : Operand)
  | mov (dst src : Operand)
  | call (target : String)
  | push (src : Operand)
  | pop (dst : Operand)
  | ret
  /-- Compares by `first - second`. -/
  | cmp (first second : Operand)
  | jmp (target : String)
  | jne (target : String)
  | label (name : String) (body : List Instr)
  | declare (text : String)
  | unknown

end SnakeFront.Assembly
