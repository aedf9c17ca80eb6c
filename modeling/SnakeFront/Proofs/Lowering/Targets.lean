import SnakeFront.Proofs.Lowering.Cases
import SnakeFront.Proofs.Tree.Parts

/-! Addresses that lowered code writes. Besides its destination, an expression writes temporaries
only if it applies an operator, parameter slots only if it passes an argument, and no variable. -/
namespace SnakeFront.NormalForm

namespace Address

@[simp] theorem var_inj {slot other : Nat} : var slot = var other ↔ slot = other := by
  simp only [var, mk.injEq, true_and]
  omega

@[simp] theorem param_inj {position other : Nat} : param position = param other ↔ position = other := by
  simp only [param, mk.injEq, true_and]
  omega

@[simp] theorem param_ne_var {position slot : Nat} : param position ≠ var slot := by
  simp [param, var]

@[simp] theorem temp_ne_var {slot other : Nat} : temp slot ≠ var other := by
  simp [temp, var]

end Address

def Instr.target : Instr → Option Address
  | .assign dest _ => some dest
  | .call .. | .define .. => none

/-- The addresses that are assigned to, in order. -/
def targets (code : List Instr) : List Address := code.filterMap Instr.target

@[simp] theorem targets_append (first second : List Instr) :
    targets (first ++ second) = targets first ++ targets second :=
  List.filterMap_append

@[simp] theorem targets_assign (dest : Address) (source : Value) :
    targets [.assign dest source] = [dest] := rfl

end SnakeFront.NormalForm

namespace SnakeFront.Lowering

open NormalForm
open SnakeFront.Tree (Node)

/-- The expression may write the address on the way to its value. -/
def Disturbs (node : Node) (address : Address) : Prop :=
  (address.storage = .temp ∧ ¬ node.OperationFree) ∨
    (address.storage = .param ∧ ¬ node.ArgumentFree)

theorem disturbs_call {name : String} {args : List Node} {arg : Node} {address : Address}
    (member : arg ∈ args) (disturbs : Disturbs arg address) :
    Disturbs (.call name args) address := by
  rcases disturbs with ⟨temp, operates⟩ | ⟨param, _⟩
  · refine Or.inl ⟨temp, ?_⟩
    rw [Node.operationFree_call]
    intro free
    exact operates (free arg member)
  · refine Or.inr ⟨param, ?_⟩
    rw [Node.argumentFree_call]
    exact List.ne_nil_of_mem member

theorem disturbs_binary {op : String} {left right : Node} {address : Address}
    (disturbs : Disturbs left address ∨ Disturbs right address) :
    Disturbs (.binary op left right) address := by
  rcases disturbs with (⟨temp, _⟩ | ⟨param, passes⟩) | (⟨temp, _⟩ | ⟨param, passes⟩)
  · exact Or.inl ⟨temp, Node.not_operationFree_binary op left right⟩
  · exact Or.inr ⟨param, fun free => passes ((Node.argumentFree_binary op left right).mp free).1⟩
  · exact Or.inl ⟨temp, Node.not_operationFree_binary op left right⟩
  · exact Or.inr ⟨param, fun free => passes ((Node.argumentFree_binary op left right).mp free).2⟩

theorem disturbs_unary {op : String} {operand : Node} {address : Address}
    (disturbs : Disturbs operand address) : Disturbs (.unary op operand) address := by
  rcases disturbs with ⟨temp, _⟩ | ⟨param, passes⟩
  · exact Or.inl ⟨temp, Node.not_operationFree_unary op operand⟩
  · exact Or.inr ⟨param, fun free => passes ((Node.argumentFree_unary op operand).mp free)⟩

/-- What expressions write, and what argument lists write: each argument its own slot, and what it
disturbs on the way. -/
theorem lowered_targets (scope : Scope) :
    (∀ dest node code, expression scope dest node = .ok code →
      ∀ address ∈ targets code, address = dest ∨ Disturbs node address) ∧
    ∀ position args code, arguments scope position args = .ok code →
      ∀ address ∈ targets code,
        (∃ i, position ≤ i ∧ i < position + args.length ∧ address = .param i) ∨
          ∃ arg ∈ args, Disturbs arg address := by
  apply lowered_induction
  case text | integer =>
    intro dest _ address member
    exact Or.inl (List.mem_singleton.mp member)
  case boolean | var =>
    intro dest _ _ _ address member
    exact Or.inl (List.mem_singleton.mp member)
  case call =>
    intro dest name args setup _ ih address member
    rw [targets_append, targets_assign, List.mem_append, List.mem_singleton] at member
    rcases member with placed | last
    · rcases ih address placed with ⟨i, _, below, rfl⟩ | ⟨arg, present, disturbs⟩
      · refine Or.inr (Or.inr ⟨rfl, ?_⟩)
        rw [Node.argumentFree_call]
        rintro rfl
        simp at below
      · exact Or.inr (disturbs_call present disturbs)
    · exact Or.inl last
  case binary =>
    intro dest op left right first second _ _ ihLeft ihRight address member
    simp only [targets_append, targets_assign, List.mem_append, List.mem_singleton] at member
    have temporary : ∀ slot, address = .temp slot → Disturbs (.binary op left right) address := by
      rintro slot rfl
      exact Or.inl ⟨rfl, Node.not_operationFree_binary op left right⟩
    rcases member with (one | two) | last
    · rcases ihLeft address one with operand | disturbs
      · exact Or.inr (temporary 0 operand)
      · exact Or.inr (disturbs_binary (Or.inl disturbs))
    · rcases ihRight address two with operand | disturbs
      · exact Or.inr (temporary 1 operand)
      · exact Or.inr (disturbs_binary (Or.inr disturbs))
    · exact Or.inl last
  case unary =>
    intro dest op operand inner _ ih address member
    rw [targets_append, targets_assign, List.mem_append, List.mem_singleton] at member
    rcases member with one | last
    · rcases ih address one with rfl | disturbs
      · exact Or.inr (Or.inl ⟨rfl, Node.not_operationFree_unary op operand⟩)
      · exact Or.inr (disturbs_unary disturbs)
    · exact Or.inl last
  case nil =>
    intro position address member
    cases member
  case cons =>
    intro position arg rest first others _ _ ihArg ihRest address member
    rw [targets_append, List.mem_append] at member
    rcases member with one | two
    · rcases ihArg address one with own | disturbs
      · exact Or.inl ⟨position, by omega, by simp, own⟩
      · exact Or.inr ⟨arg, by simp, disturbs⟩
    · rcases ihRest address two with ⟨i, above, below, slot⟩ | ⟨other, present, disturbs⟩
      · exact Or.inl ⟨i, by omega, by simp only [List.length_cons]; omega, slot⟩
      · exact Or.inr ⟨other, by simp [present], disturbs⟩

theorem lowered_reaches (scope : Scope) :
    (∀ dest node code, expression scope dest node = .ok code → dest ∈ targets code) ∧
    ∀ position args code, arguments scope position args = .ok code →
      ∀ i, position ≤ i → i < position + args.length → .param i ∈ targets code := by
  apply lowered_induction
  case text | integer =>
    intro dest _
    exact List.mem_singleton_self dest
  case boolean | var =>
    intro dest _ _ _
    exact List.mem_singleton_self dest
  case call =>
    intro dest name args setup _ _
    simp
  case binary =>
    intro dest op left right first second _ _ _ _
    simp
  case unary =>
    intro dest op operand inner _ _
    simp
  case nil =>
    intro position i above below
    simp only [List.length_nil] at below
    omega
  case cons =>
    intro position arg rest first others _ _ here later i above below
    rw [targets_append, List.mem_append]
    rcases Nat.eq_or_lt_of_le above with rfl | beyond
    · exact Or.inl here
    · exact Or.inr (later i beyond (by simp only [List.length_cons] at below; omega))

section
variable {scope : Scope} {code : List Instr}

theorem var_not_mem_targets {dest : Address} {node : Node}
    (lowered : expression scope dest node = .ok code) {slot : Nat} (different : dest ≠ .var slot) :
    .var slot ∉ targets code := by
  intro member
  rcases (lowered_targets scope).1 dest node code lowered _ member with same | disturbs
  · exact different same.symm
  · rcases disturbs with ⟨impossible, _⟩ | ⟨impossible, _⟩ <;> cases impossible

theorem var_not_mem_targets_arguments {position : Nat} {args : List Node}
    (lowered : arguments scope position args = .ok code) (slot : Nat) :
    .var slot ∉ targets code := by
  intro member
  rcases (lowered_targets scope).2 position args code lowered _ member with
    ⟨i, _, _, impossible⟩ | ⟨arg, _, ⟨impossible, _⟩ | ⟨impossible, _⟩⟩ <;> cases impossible

end

end SnakeFront.Lowering
