import SnakeFront.Scope.Basic

/-! A growing family of scopes. Each step adds one scope, made from nothing or from a scope that is
already there, and changes none of the others. -/
namespace SnakeFront.Scope

inductive Step where
  | fresh
  | unset
  | nest (parent : Nat)
  | bind (parent : Nat) (name : String)
deriving DecidableEq

/-- The scope a step adds to a family; a step from a scope that is not there adds none. -/
def Step.result (family : List Scope) : Step → Option Scope
  | fresh => some empty
  | unset => some Scope.unset
  | nest parent => family[parent]?.map Scope.nest
  | bind parent name => family[parent]?.map (·.bind name)

def Step.apply (family : List Scope) (step : Step) : List Scope :=
  family ++ (step.result family).toList

def family (steps : List Step) : List Scope := steps.foldl Step.apply []

end SnakeFront.Scope
