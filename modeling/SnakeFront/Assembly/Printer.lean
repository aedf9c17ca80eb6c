import SnakeFront.Assembly.Basic
import SnakeFront.Text.Indent
import SnakeFront.Text.Quoted

/-! Assembly text, the source of an instruction before its destination. The listing of a program
has one instruction a line, with the body of a label one tab deeper than the label. -/
namespace SnakeFront.Assembly

def defaultScale : Int := 8

def Operand.render : Operand → String
  | register name => "%" ++ name
  | pointed name => "(%" ++ name ++ ")"
  | scaled base index scale =>
    "(%" ++ base ++ ", %" ++ index ++ ", " ++
      toString (if scale = 0 then defaultScale else scale) ++ ")"
  | integer digits => "$" ++ digits
  | text label => "$_str_" ++ label
  | unknown => "<?>"

/-- The line of an instruction; a label is only its header. -/
def Instr.render : Instr → String
  | add dst src => "addq " ++ src.render ++ ", " ++ dst.render
  | sub dst src => "subq " ++ src.render ++ ", " ++ dst.render
  | mul src => "mulq " ++ src.render
  | div src => "divq " ++ src.render
  | neg dst => "negq " ++ dst.render
  | mov dst src => "movq " ++ src.render ++ ", " ++ dst.render
  | call target => "call " ++ target
  | push src => "push " ++ src.render
  | pop dst => "pop " ++ dst.render
  | ret => "ret"
  | cmp first second => "cmp " ++ second.render ++ ", " ++ first.render
  | jmp target => "jmp " ++ target
  | jne target => "jne " ++ target
  | label name _ => name ++ ":"
  | declare text => ".string " ++ Text.quote text
  | unknown => "<?>"

mutual

def Instr.lines (level : Nat) : Instr → String
  | .label name body => Text.indent "\t" level ++ name ++ ":\n" ++ linesAll (level + 1) body
  | instr => Text.indent "\t" level ++ instr.render ++ "\n"

def linesAll (level : Nat) : List Instr → String
  | [] => ""
  | instr :: rest => instr.lines level ++ linesAll level rest

end

def listing (program : List Instr) : String := linesAll 0 program

end SnakeFront.Assembly
