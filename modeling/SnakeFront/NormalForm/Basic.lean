/-! Normal form: flat instructions over numbered slots. An instruction writes at most one address
and applies at most one operator; the operands of an operator and the arguments of a call are
addresses. -/
namespace SnakeFront.NormalForm

inductive Storage where
  | var
  | param
  | temp
  | ret
  /-- A storage class known by its number only. -/
  | other (code : Int)
deriving DecidableEq

def Storage.ofCode (code : Int) : Storage :=
  if code = 0 then var
  else if code = 1 then param
  else if code = 2 then temp
  else if code = 3 then ret
  else other code

structure Address where
  storage : Storage
  index : Int
deriving DecidableEq

namespace Address

def var (slot : Nat) : Address := ⟨.var, slot⟩

def param (position : Nat) : Address := ⟨.param, position⟩

def temp (slot : Nat) : Address := ⟨.temp, slot⟩

def params (count : Nat) : List Address := (List.range count).map param

end Address

inductive Value where
  | address (source : Address)
  | text (value : String)
  | integer (digits : String)
  | binary (op : String) (left right : Address)
  | unary (op : String) (operand : Address)
  | call (name : String) (args : List Address)
  | absent
deriving DecidableEq

inductive Instr where
  | assign (dest : Address) (source : Value)
  | call (name : String) (args : List Address)
  | define (name : String) (params : List Address) (body : List Instr)

end SnakeFront.NormalForm
