import SnakeFront.Proofs.Lowering.Names

/-! Complaints about a program, found without lowering it. Only the set of bound names is carried
along, and the first complaint in the order of reading is the one that counts. Main statement: a
program has no normal form exactly if there is a complaint, and then the fault has its kind and
blames its node. -/
namespace SnakeFront.Lowering

open NormalForm
open SnakeFront.Tree (Node Program)

abbrev Complaint := Kind × Node

mutual

def expressionComplaint (bound : Finset String) : Node → Option Complaint
  | .text _ | .integer _ => none
  | .boolean word =>
    if word = "True" ∨ word = "False" then none else some (.unknownNode, .boolean word)
  | .var name => if name ∈ bound then none else some (.unbound, .var name)
  | .call _ args => argumentsComplaint bound args
  | .binary _ left right => (expressionComplaint bound left).or (expressionComplaint bound right)
  | .unary _ operand => expressionComplaint bound operand
  | .define name params body => some (.notExpression, .define name params body)
  | .assign target value => some (.notExpression, .assign target value)
  | .unknown => some (.unknownNode, .unknown)
  | .absent => some (.unknownNode, .absent)

def argumentsComplaint (bound : Finset String) : List Node → Option Complaint
  | [] => none
  | arg :: rest => (expressionComplaint bound arg).or (argumentsComplaint bound rest)

end

def variableNames : List Node → Option (List String)
  | [] => some []
  | .var name :: rest => (variableNames rest).map (name :: ·)
  | _ :: _ => none

mutual

def statementComplaint (bound : Finset String) : Node → Option Complaint
  | .define name params body =>
    match variableNames params with
    | some names => blockComplaint (bound ∪ names.toFinset) body
    | none => some (.badParameter, .define name params body)
  | .assign none value => some (.unknownNode, .assign none value)
  | .assign (some target) value => expressionComplaint (insert target bound) value
  | .call _ args => argumentsComplaint bound args
  | .text _ | .boolean _ | .integer _ | .var _ | .binary .. | .unary .. => none
  | .unknown => some (.unknownNode, .unknown)
  | .absent => some (.unknownNode, .absent)

def blockComplaint (bound : Finset String) : Program → Option Complaint
  | [] => none
  | node :: rest => (statementComplaint bound node).or (blockComplaint (node.binds bound) rest)

end

def rejection {α : Type} : Except Fault α → Option Complaint
  | .ok _ => none
  | .error fault => some (fault.kind, fault.node)

theorem rejection_eq_none {α : Type} {outcome : Except Fault α} :
    rejection outcome = none ↔ ∃ value, outcome = .ok value := by
  cases outcome with
  | ok value => simp [rejection]
  | error fault => simp [rejection]

theorem rejection_eq_some {α : Type} {outcome : Except Fault α} {kind : Kind} {node : Node} :
    rejection outcome = some (kind, node) ↔
      ∃ fault, outcome = .error fault ∧ fault.kind = kind ∧ fault.node = node := by
  cases outcome with
  | ok value => simp [rejection]
  | error fault => simp [rejection]

theorem rejection_map {α β : Type} (outcome : Except Fault α) (f : α → β) :
    rejection (outcome.map f) = rejection outcome := by
  cases outcome with
  | ok value => rfl
  | error fault => rfl

theorem rejection_bind {α β : Type} {first : Except Fault α} {next : α → Except Fault β}
    {later : Option Complaint} (known : ∀ value, first = .ok value → rejection (next value) = later) :
    rejection (first >>= next) = (rejection first).or later := by
  cases first with
  | ok value =>
    have behind := known value rfl
    simpa [rejection, bind, Except.bind] using behind
  | error fault => rfl

theorem rejection_bind_pure {α β : Type} (first : Except Fault α) (f : α → β) :
    rejection (first >>= fun value => pure (f value)) = rejection first := by
  have never : ∀ value, first = .ok value → rejection (pure (f value) : Except Fault β) = none :=
    fun _ _ => rfl
  rw [rejection_bind never, Option.or_none]

theorem truthValue_eq_none {word : String} :
    truthValue word = none ↔ ¬ (word = "True" ∨ word = "False") := by
  unfold truthValue
  split
  next yes => simp [yes]
  next =>
    split
    next no => simp [no]
    next => simp [*]

mutual

theorem rejection_expression (scope : Scope) (dest : Address) :
    (node : Node) → rejection (expression scope dest node) = expressionComplaint scope.names node
  | .text _ | .integer _ => rfl
  | .define .. | .assign .. | .unknown | .absent => rfl
  | .boolean word => by
    rw [expression, expressionComplaint]
    cases value : truthValue word with
    | none => simp [truthValue_eq_none.mp value, rejection, Fault.kind, Fault.node]
    | some digits =>
      have known : word = "True" ∨ word = "False" := by
        by_contra unknown
        simp [truthValue_eq_none.mpr unknown] at value
      simp [known, rejection]
  | .var name => by
    rw [expression, expressionComplaint]
    cases found : scope.lookup name with
    | none => simp [Scope.not_mem_names.mpr found, rejection, Fault.kind, Fault.node]
    | some slot =>
      have bound : name ∈ scope.names := Scope.mem_names.mpr (by simp [found])
      simp [bound, rejection]
  | .call name args => by
    rw [expression, expressionComplaint, rejection_bind_pure]
    exact rejection_arguments scope 0 args
  | .binary op left right => by
    rw [expression, expressionComplaint, ← rejection_expression scope (.temp 0) left,
      ← rejection_expression scope (.temp 1) right]
    apply rejection_bind
    intro first _
    exact rejection_bind_pure _ _
  | .unary op operand => by
    rw [expression, expressionComplaint, rejection_bind_pure]
    exact rejection_expression scope (.temp 0) operand

theorem rejection_arguments (scope : Scope) (position : Nat) :
    (args : List Node) →
      rejection (arguments scope position args) = argumentsComplaint scope.names args
  | [] => rfl
  | arg :: rest => by
    rw [arguments, argumentsComplaint, ← rejection_expression scope (.param position) arg,
      ← rejection_arguments scope (position + 1) rest]
    apply rejection_bind
    intro code _
    exact rejection_bind_pure _ _

end

theorem parameterNames_of_variables {refuse : Nat → Node → Fault} {index : Nat} {params : List Node}
    {names : List String} (listed : variableNames params = some names) :
    parameterNames refuse index params = .ok names := by
  fun_induction variableNames params generalizing index names with
  | case1 =>
    cases listed
    rfl
  | case2 name rest ih =>
    obtain ⟨others, known, rfl⟩ := Option.map_eq_some_iff.mp listed
    rw [parameterNames, ih known]
    rfl
  | case3 => cases listed

theorem parameterNames_of_other (refuse : Nat → Node → Fault) (index : Nat) {params : List Node}
    (other : variableNames params = none) :
    ∃ position found, parameterNames refuse index params = .error (refuse position found) := by
  fun_induction variableNames params generalizing index with
  | case1 => cases other
  | case2 name rest ih =>
    obtain ⟨position, found, refused⟩ := ih (index + 1) (Option.map_eq_none_iff.mp other)
    refine ⟨position, found, ?_⟩
    rw [parameterNames, refused]
    rfl
  | case3 found rest _ => exact ⟨index, found, by simp [parameterNames]⟩

mutual

theorem rejection_statement (scope : Scope) :
    (node : Node) → rejection (statement scope node) = statementComplaint scope.names node
  | .text _ | .boolean _ | .integer _ | .var _ | .binary .. | .unary .. => rfl
  | .assign none _ | .unknown | .absent => rfl
  | .assign (some target) value => by
    rw [statement, statementComplaint, ← Scope.names_claim, rejection_bind_pure]
    exact rejection_expression (scope.claim target).2 (.var (scope.claim target).1) value
  | .call name args => by
    rw [statement, statementComplaint, rejection_bind_pure]
    exact rejection_arguments scope 0 args
  | .define name params body => by
    rw [statement, statementComplaint]
    cases listed : variableNames params with
    | none =>
      obtain ⟨position, found, refused⟩ :=
        parameterNames_of_other (.badParameter name params body) 0 listed
      rw [refused]
      rfl
    | some names =>
      have inside := rejection_block (scope.nest.bindAll names) body
      rw [Scope.names_bindAll, Scope.names_nest] at inside
      rw [parameterNames_of_variables listed]
      exact (rejection_bind_pure _ _).trans inside

theorem rejection_block (scope : Scope) :
    (nodes : Program) → rejection (block scope nodes) = blockComplaint scope.names nodes
  | [] => rfl
  | node :: rest => by
    rw [block, blockComplaint, ← rejection_statement scope node]
    apply rejection_bind
    rintro ⟨code, inner⟩ lowered
    rw [← names_statement lowered, ← rejection_block inner rest]
    exact rejection_bind_pure _ _

end

/-- Lowering refuses exactly the programs there is a complaint about, for the reason and at the node
of the first one. -/
theorem program_rejected_iff_complaint (scope : Scope) (nodes : Program) :
    ((∃ code, program scope nodes = .ok code) ↔ blockComplaint scope.names nodes = none) ∧
    ∀ kind node,
      (∃ fault, program scope nodes = .error fault ∧ fault.kind = kind ∧ fault.node = node) ↔
        blockComplaint scope.names nodes = some (kind, node) := by
  have same : rejection (program scope nodes) = blockComplaint scope.names nodes := by
    rw [program, rejection_map, rejection_block]
  constructor
  · rw [← same, rejection_eq_none]
  · intro kind node
    rw [← same, rejection_eq_some]

end SnakeFront.Lowering
