import SnakeFront.Proofs.Meaning.Machine
import SnakeFront.Proofs.Scope.Slots

/-! Trees as their own values. Under the free interpretation an expression evaluates to itself, with
its boolean literals read as integers, so two expressions that always have the same value are the
same up to that reading. -/
namespace SnakeFront.Tree

mutual

/-- The expression with its boolean literals read as integers. -/
def Node.plain : Node → Node
  | .boolean word =>
    if word = "True" then .integer "1" else if word = "False" then .integer "0" else .boolean word
  | .call name args => .call name (plainAll args)
  | .binary op left right => .binary op left.plain right.plain
  | .unary op operand => .unary op operand.plain
  | node => node

def plainAll : List Node → List Node
  | [] => []
  | node :: rest => node.plain :: plainAll rest

end

theorem plainAll_eq_map (nodes : List Node) : plainAll nodes = nodes.map Node.plain := by
  induction nodes with
  | nil => rfl
  | cons node rest ih => rw [plainAll, ih, List.map_cons]

mutual

@[simp] theorem plain_plain : (node : Node) → node.plain.plain = node.plain
  | .boolean word => by
    by_cases yes : word = "True" <;> by_cases no : word = "False" <;> simp [Node.plain, yes, no]
  | .call name args => by
    rw [Node.plain, Node.plain, plainAll_plainAll args]
  | .binary op left right => by
    rw [Node.plain, Node.plain, plain_plain left, plain_plain right]
  | .unary op operand => by
    rw [Node.plain, Node.plain, plain_plain operand]
  | .text _ | .integer _ | .var _ | .define .. | .assign .. | .unknown | .absent => by
    simp only [Node.plain]

theorem plainAll_plainAll : (nodes : List Node) → plainAll (plainAll nodes) = plainAll nodes
  | [] => rfl
  | node :: rest => by
    rw [plainAll, plainAll, plain_plain node, plainAll_plainAll rest]

end

end SnakeFront.Tree

namespace SnakeFront.Meaning

open NormalForm
open SnakeFront.Tree (Node)

def free : Interpretation Node where
  text := .text
  integer := .integer
  binary := .binary
  unary := .unary
  call _ := .call

theorem free_memoryless : free.Memoryless := fun _ _ _ _ => rfl

def Named (vars : String → Option Node) : Prop :=
  ∀ name value, vars name = some value → value = .var name

section
variable {vars : String → Option Node}

mutual

theorem evaluate_free (named : Named vars) (calls : List (Call Node)) : (node : Node) →
    {result : Node × List (Call Node)} →
    evaluate free vars calls node = some result → result.1 = node.plain
  | .text _, _, known | .integer _, _, known => by
    cases known
    rfl
  | .boolean word, result, known => by
    obtain ⟨value, read, rfl⟩ := Option.map_eq_some_iff.mp known
    unfold Interpretation.boolean at read
    split at read
    · cases read
      simp [Node.plain, *, free]
    · split at read
      · cases read
        simp [Node.plain, *, free]
      · cases read
  | .var name, result, known => by
    obtain ⟨value, read, rfl⟩ := Option.map_eq_some_iff.mp known
    exact named name value read
  | .call name args, result, known => by
    simp only [evaluate, Option.bind_eq_bind, Option.bind_eq_some_iff] at known
    obtain ⟨values, read, last⟩ := known
    cases last
    rw [Node.plain, ← evaluateAll_free named calls args read]
    rfl
  | .binary op left right, result, known => by
    simp only [evaluate, Option.bind_eq_bind, Option.bind_eq_some_iff] at known
    obtain ⟨first, readLeft, second, readRight, last⟩ := known
    cases last
    rw [Node.plain, ← evaluate_free named calls left readLeft,
      ← evaluate_free named first.2 right readRight]
    rfl
  | .unary op operand, result, known => by
    simp only [evaluate, Option.bind_eq_bind, Option.bind_eq_some_iff] at known
    obtain ⟨inner, read, last⟩ := known
    cases last
    rw [Node.plain, ← evaluate_free named calls operand read]
    rfl
  | .define .., _, known | .assign .., _, known | .unknown, _, known | .absent, _, known => by
    cases known

theorem evaluateAll_free (named : Named vars) (calls : List (Call Node)) : (nodes : List Node) →
    {result : List Node × List (Call Node)} →
    evaluateAll free vars calls nodes = some result → result.1 = Tree.plainAll nodes
  | [], _, known => by
    cases known
    rfl
  | node :: rest, result, known => by
    simp only [evaluateAll, Option.bind_eq_bind, Option.bind_eq_some_iff] at known
    obtain ⟨first, readFirst, others, readRest, last⟩ := known
    cases last
    rw [Tree.plainAll, ← evaluate_free named calls node readFirst,
      ← evaluateAll_free named first.2 rest readRest]

end

end

section
universe u
variable {V : Type u} {I : Interpretation V} {vars : String → Option V}

mutual

theorem evaluate_plain (calls : List (Call V)) : (node : Node) →
    evaluate I vars calls node.plain = evaluate I vars calls node
  | .boolean word => by
    rw [Node.plain, evaluate, Interpretation.boolean]
    split
    · rfl
    · split <;> simp [evaluate, Interpretation.boolean, *]
  | .call name args => by
    simp only [Node.plain, evaluate, evaluateAll_plain calls args]
  | .binary op left right => by
    have first := evaluate_plain calls left
    have second := fun between => evaluate_plain between right
    simp only [Node.plain, evaluate, first, second]
  | .unary op operand => by
    simp only [Node.plain, evaluate, evaluate_plain calls operand]
  | .text _ | .integer _ | .var _ | .define .. | .assign .. | .unknown | .absent => by
    simp only [Node.plain]

theorem evaluateAll_plain (calls : List (Call V)) : (nodes : List Node) →
    evaluateAll I vars calls (Tree.plainAll nodes) = evaluateAll I vars calls nodes
  | [] => rfl
  | node :: rest => by
    have first := evaluate_plain calls node
    have others := fun between => evaluateAll_plain between rest
    simp only [Tree.plainAll, evaluateAll, first, others]

end

theorem worth_congr {node other : Node} (same : node.plain = other.plain) :
    worth I vars node = worth I vars other := by
  rw [worth, worth, ← evaluate_plain [] node, same, evaluate_plain]

end

theorem worth_free {vars : String → Option Node} (named : Named vars) {node value : Node}
    (known : worth free vars node = some value) : value = node.plain := by
  obtain ⟨result, read, rfl⟩ := Option.map_eq_some_iff.mp known
  exact evaluate_free named [] node read

theorem exists_named {scope : Scope} (separated : scope.Separated) :
    ∃ store : Address → Node, Named (view scope store) := by
  classical
  refine ⟨fun address =>
    if known : ∃ name slot, scope.lookup name = some slot ∧ address = .var slot
    then .var known.choose else .absent, ?_⟩
  intro name value shown
  obtain ⟨slot, found, rfl⟩ := Option.map_eq_some_iff.mp shown
  have known : ∃ other place, scope.lookup other = some place ∧ Address.var slot = .var place :=
    ⟨name, slot, found, rfl⟩
  obtain ⟨place, same, slots⟩ := known.choose_spec
  rw [Address.var_inj] at slots
  subst slots
  beta_reduce
  rw [dif_pos known, separated.apart same found]

end SnakeFront.Meaning
