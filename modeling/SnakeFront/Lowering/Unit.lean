import SnakeFront.Lowering.Basic
import SnakeFront.NormalForm.Printer
import SnakeFront.Trace

/-! Lowering of a whole unit. Every unit starts from the empty scope, so units share no names. -/
namespace SnakeFront.Lowering

open SnakeFront.Tree (Program)

def lowerUnit (nodes : Program) : Except Fault (List NormalForm.Instr) := program .empty nodes

def failure (fault : Fault) : String := "normalization failed: " ++ fault.message

def unitTrace (nodes : Program) : List String :=
  ["Normalizing " ++ toString nodes.length ++ " top-level statements...",
   "--- Snake tree ---\n" ++ Tree.outline nodes ++ "--- End Snake tree ---"] ++
  match lowerUnit nodes with
  | .ok instrs =>
    ["Normalizing complete. " ++ toString instrs.length ++ " instructions produced.",
     "--- Normal form ---\n" ++ NormalForm.listing instrs ++ "--- End Normal form ---"]
  | .error _ => []

end SnakeFront.Lowering
