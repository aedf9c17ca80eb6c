import SnakeFront.Proofs.Lowering.Cases
import SnakeFront.Proofs.Scope.Slots
import SnakeFront.Proofs.Tree.Parts

/-! Names that statements bind. Only an assignment binds a name; the scope after a statement has the
names it had before and that one. A target is fresh if its first assignment does not read it. -/
namespace SnakeFront.Tree

def Node.target? : Node → Option String
  | .assign target _ => target
  | _ => none

/-- The names that the statements of a program assign. A definition is not looked into. -/
def assigned (nodes : Program) : List String := nodes.filterMap Node.target?

/-- The names that are bound after a statement. -/
def Node.binds (bound : Finset String) : Node → Finset String
  | .assign (some target) _ => insert target bound
  | _ => bound

/-- A name that an assignment binds for the first time is not read in the assigned value. -/
def Node.FreshTarget (bound : Finset String) : Node → Prop
  | .assign (some target) value => target ∉ bound → target ∉ value.reads
  | _ => True

def FreshTargets (bound : Finset String) : Program → Prop
  | [] => True
  | node :: rest => node.FreshTarget bound ∧ FreshTargets (node.binds bound) rest

instance (bound : Finset String) : DecidablePred (Node.FreshTarget bound)
  | .assign (some target) value =>
    inferInstanceAs (Decidable (target ∉ bound → target ∉ value.reads))
  | .assign none _ | .text _ | .boolean _ | .integer _ | .var _ | .call .. | .binary .. | .unary ..
  | .define .. | .unknown | .absent => inferInstanceAs (Decidable True)

instance freshTargetsDecidable : (bound : Finset String) → DecidablePred (FreshTargets bound)
  | _, [] => inferInstanceAs (Decidable True)
  | bound, node :: rest =>
    have := freshTargetsDecidable (node.binds bound) rest
    inferInstanceAs (Decidable (node.FreshTarget bound ∧ FreshTargets (node.binds bound) rest))

def Node.name? : Node → Option String
  | .var name => some name
  | _ => none

mutual

/-- No assignment, at any depth of definitions, binds a name for the first time and reads it in the
assigned value. -/
def Node.FreshWithin (bound : Finset String) : Node → Prop
  | .define _ params body => FreshThroughout (bound ∪ (params.filterMap Node.name?).toFinset) body
  | node => node.FreshTarget bound

def FreshThroughout (bound : Finset String) : Program → Prop
  | [] => True
  | node :: rest => node.FreshWithin bound ∧ FreshThroughout (node.binds bound) rest

end

mutual

def Node.freshWithinDecidable (bound : Finset String) :
    (node : Node) → Decidable (node.FreshWithin bound)
  | .define _ params body =>
    freshThroughoutDecidable (bound ∪ (params.filterMap Node.name?).toFinset) body
  | .assign target value =>
    inferInstanceAs (Decidable (Node.FreshTarget bound (.assign target value)))
  | .text _ | .boolean _ | .integer _ | .var _ | .call .. | .binary .. | .unary .. | .unknown
  | .absent => inferInstanceAs (Decidable True)

instance freshThroughoutDecidable (bound : Finset String) :
    (nodes : Program) → Decidable (FreshThroughout bound nodes)
  | [] => inferInstanceAs (Decidable True)
  | node :: rest =>
    have := node.freshWithinDecidable bound
    have := freshThroughoutDecidable (node.binds bound) rest
    inferInstanceAs (Decidable (node.FreshWithin bound ∧ FreshThroughout (node.binds bound) rest))

end

end SnakeFront.Tree

namespace SnakeFront.Lowering

open NormalForm
open SnakeFront.Tree (Node)

variable {scope inner : Scope} {node : Node} {code : List Instr}

theorem statement_scope (lowered : statement scope node = .ok (code, inner)) :
    (inner = scope ∧ node.target? = none ∧ ∀ bound, node.binds bound = bound) ∨
      ∃ target, inner = (scope.claim target).2 ∧ node.target? = some target ∧
        ∀ bound, node.binds bound = insert target bound := by
  cases node with
  | assign target value =>
    cases target with
    | none => cases lowered
    | some target =>
      exact Or.inr ⟨target, (statement_assign_eq_ok.mp lowered).2, rfl, fun _ => rfl⟩
  | call name args =>
    obtain ⟨_, _, _, same⟩ := statement_call_eq_ok.mp lowered
    exact Or.inl ⟨same, rfl, fun _ => rfl⟩
  | define name params body =>
    obtain ⟨_, _, _, _, _, same⟩ := statement_define_eq_ok.mp lowered
    exact Or.inl ⟨same, rfl, fun _ => rfl⟩
  | text | boolean | integer | var | binary | unary =>
    cases lowered
    exact Or.inl ⟨rfl, rfl, fun _ => rfl⟩
  | unknown | absent => cases lowered

theorem names_statement (lowered : statement scope node = .ok (code, inner)) :
    inner.names = node.binds scope.names := by
  rcases statement_scope lowered with ⟨rfl, _, binds⟩ | ⟨target, rfl, _, binds⟩
  · exact (binds _).symm
  · rw [binds]
    exact Scope.names_claim scope target

theorem statement_separated (separated : scope.Separated)
    (lowered : statement scope node = .ok (code, inner)) : inner.Separated := by
  rcases statement_scope lowered with ⟨rfl, _⟩ | ⟨target, rfl, _⟩
  · exact separated
  · exact Scope.claim_separated separated target

end SnakeFront.Lowering
