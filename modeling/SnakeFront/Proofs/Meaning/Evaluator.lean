import Mathlib.Logic.Function.Basic
import SnakeFront.Proofs.Tree.Parts

/-! Direct meaning of programs. A program runs over named variables, from left to right, without
slots and without code. What literals, operators and calls stand for is left open; a call may depend
on every call made before it, and changes no variable. A name that was never given a value has none,
and a program that reads it has no meaning. -/
namespace SnakeFront.Meaning

open SnakeFront.Tree (Node Program)

universe u
variable {V : Type u}

structure Call (V : Type u) where
  name : String
  args : List V

structure Interpretation (V : Type u) where
  text : String → V
  integer : String → V
  binary : String → V → V → V
  unary : String → V → V
  /-- The result of a call, after the calls made so far. -/
  call : List (Call V) → String → List V → V

namespace Interpretation

def boolean (I : Interpretation V) (word : String) : Option V :=
  if word = "True" then some (I.integer "1")
  else if word = "False" then some (I.integer "0")
  else none

def invoke (I : Interpretation V) (calls : List (Call V)) (name : String) (args : List V) :
    V × List (Call V) :=
  (I.call calls name args, calls ++ [⟨name, args⟩])

def Memoryless (I : Interpretation V) : Prop :=
  ∀ calls other name args, I.call calls name args = I.call other name args

end Interpretation

mutual

/-- The value of an expression, and the calls made when it is known. -/
def evaluate (I : Interpretation V) (vars : String → Option V) (calls : List (Call V)) :
    Node → Option (V × List (Call V))
  | .text value => some (I.text value, calls)
  | .integer digits => some (I.integer digits, calls)
  | .boolean word => (I.boolean word).map (·, calls)
  | .var name => (vars name).map (·, calls)
  | .call name args => do
    let (values, made) ← evaluateAll I vars calls args
    return I.invoke made name values
  | .binary op left right => do
    let (first, between) ← evaluate I vars calls left
    let (second, made) ← evaluate I vars between right
    return (I.binary op first second, made)
  | .unary op operand => do
    let (value, made) ← evaluate I vars calls operand
    return (I.unary op value, made)
  | .define .. | .assign .. | .unknown | .absent => none

def evaluateAll (I : Interpretation V) (vars : String → Option V) (calls : List (Call V)) :
    List Node → Option (List V × List (Call V))
  | [] => some ([], calls)
  | node :: rest => do
    let (value, between) ← evaluate I vars calls node
    let (values, made) ← evaluateAll I vars between rest
    return (value :: values, made)

end

structure Memory (V : Type u) where
  vars : String → Option V
  calls : List (Call V)

/-- A definition only introduces a function, and an expression other than a call is not evaluated
as a statement. -/
def perform (I : Interpretation V) (memory : Memory V) : Node → Option (Memory V)
  | .assign (some target) value => do
    let (result, made) ← evaluate I memory.vars memory.calls value
    return ⟨Function.update memory.vars target (some result), made⟩
  | .call name args => do
    let (_, made) ← evaluate I memory.vars memory.calls (.call name args)
    return ⟨memory.vars, made⟩
  | .define .. | .text _ | .boolean _ | .integer _ | .var _ | .binary .. | .unary .. => some memory
  | .assign none _ | .unknown | .absent => none

def performAll (I : Interpretation V) (memory : Memory V) (nodes : Program) : Option (Memory V) :=
  nodes.foldlM (perform I) memory

section
variable {I : Interpretation V} {vars other : String → Option V}

mutual

theorem evaluate_congr (calls : List (Call V)) : (node : Node) →
    (∀ name ∈ node.reads, vars name = other name) →
    evaluate I vars calls node = evaluate I other calls node
  | .text _, _ | .integer _, _ | .boolean _, _ => by
    simp only [evaluate]
  | .var name, same => by
    simp only [evaluate, same name (by simp)]
  | .call name args, same => by
    simp only [Node.reads_call] at same
    simp only [evaluate, evaluateAll_congr calls args same]
  | .binary op left right, same => by
    simp only [Node.reads_binary, List.forall_mem_append] at same
    have first := evaluate_congr calls left same.1
    have second := fun between => evaluate_congr between right same.2
    simp only [evaluate, first, second]
  | .unary op operand, same => by
    simp only [Node.reads_unary] at same
    simp only [evaluate, evaluate_congr calls operand same]
  | .define .., _ | .assign .., _ | .unknown, _ | .absent, _ => by
    simp only [evaluate]

theorem evaluateAll_congr (calls : List (Call V)) : (nodes : List Node) →
    (∀ name ∈ nodes.flatMap Node.reads, vars name = other name) →
    evaluateAll I vars calls nodes = evaluateAll I other calls nodes
  | [], _ => by
    simp only [evaluateAll]
  | node :: rest, same => by
    simp only [List.flatMap_cons, List.forall_mem_append] at same
    have first := evaluate_congr calls node same.1
    have others := fun between => evaluateAll_congr between rest same.2
    simp only [evaluateAll, first, others]

end

mutual

theorem evaluate_later (memoryless : I.Memoryless) (calls other : List (Call V)) : (node : Node) →
    {result : V × List (Call V)} → evaluate I vars calls node = some result →
    ∃ made, evaluate I vars other node = some (result.1, made)
  | .text _, _, known | .integer _, _, known => by
    cases known
    exact ⟨other, rfl⟩
  | .boolean word, result, known => by
    obtain ⟨value, read, rfl⟩ := Option.map_eq_some_iff.mp known
    exact ⟨other, by rw [evaluate, read]; rfl⟩
  | .var name, result, known => by
    obtain ⟨value, read, rfl⟩ := Option.map_eq_some_iff.mp known
    exact ⟨other, by rw [evaluate, read]; rfl⟩
  | .call name args, result, known => by
    simp only [evaluate, Option.bind_eq_bind, Option.bind_eq_some_iff] at known
    obtain ⟨values, read, last⟩ := known
    cases last
    obtain ⟨made, again⟩ := evaluateAll_later memoryless calls other args read
    refine ⟨made ++ [⟨name, values.1⟩], ?_⟩
    rw [evaluate, again]
    exact congrArg some (Prod.ext (memoryless made values.2 name values.1) rfl)
  | .binary op left right, result, known => by
    simp only [evaluate, Option.bind_eq_bind, Option.bind_eq_some_iff] at known
    obtain ⟨first, readLeft, second, readRight, last⟩ := known
    cases last
    obtain ⟨between, againLeft⟩ := evaluate_later memoryless calls other left readLeft
    obtain ⟨made, againRight⟩ := evaluate_later memoryless first.2 between right readRight
    refine ⟨made, ?_⟩
    simp only [evaluate, againLeft, Option.bind_eq_bind, Option.bind_some, againRight]
    rfl
  | .unary op operand, result, known => by
    simp only [evaluate, Option.bind_eq_bind, Option.bind_eq_some_iff] at known
    obtain ⟨inner, read, last⟩ := known
    cases last
    obtain ⟨made, again⟩ := evaluate_later memoryless calls other operand read
    exact ⟨made, by rw [evaluate, again]; rfl⟩
  | .define .., _, known | .assign .., _, known | .unknown, _, known | .absent, _, known => by
    cases known

theorem evaluateAll_later (memoryless : I.Memoryless) (calls other : List (Call V)) :
    (nodes : List Node) → {result : List V × List (Call V)} →
    evaluateAll I vars calls nodes = some result →
    ∃ made, evaluateAll I vars other nodes = some (result.1, made)
  | [], _, known => by
    cases known
    exact ⟨other, rfl⟩
  | node :: rest, result, known => by
    simp only [evaluateAll, Option.bind_eq_bind, Option.bind_eq_some_iff] at known
    obtain ⟨first, readFirst, others, readRest, last⟩ := known
    cases last
    obtain ⟨between, againFirst⟩ := evaluate_later memoryless calls other node readFirst
    obtain ⟨made, againRest⟩ := evaluateAll_later memoryless first.2 between rest readRest
    refine ⟨made, ?_⟩
    simp only [evaluateAll, againFirst, Option.bind_eq_bind, Option.bind_some, againRest]
    rfl

end

def worth (I : Interpretation V) (vars : String → Option V) (node : Node) : Option V :=
  (evaluate I vars [] node).map Prod.fst

/-- Without memory, the values of arguments do not depend on the calls made between them. -/
theorem evaluateAll_of_worth (memoryless : I.Memoryless) {args : List Node} {values : List V}
    (known : args.map (worth I vars) = values.map some) (calls : List (Call V)) :
    ∃ made, evaluateAll I vars calls args = some (values, made) := by
  induction args generalizing values calls with
  | nil =>
    cases values with
    | nil => exact ⟨calls, rfl⟩
    | cons value values => cases known
  | cons arg rest ih =>
    cases values with
    | nil => cases known
    | cons value values =>
      obtain ⟨first, others⟩ := List.cons.inj known
      obtain ⟨result, alone, rfl⟩ := Option.map_eq_some_iff.mp first
      obtain ⟨between, here⟩ := evaluate_later memoryless [] calls arg alone
      obtain ⟨made, later⟩ := ih others between
      refine ⟨made, ?_⟩
      simp only [evaluateAll, here, Option.bind_eq_bind, Option.bind_some, later]
      rfl

theorem worth_call (memoryless : I.Memoryless) {args : List Node} {values : List V}
    (known : args.map (worth I vars) = values.map some) (calls : List (Call V)) (name : String) :
    worth I vars (.call name args) = some (I.call calls name values) := by
  obtain ⟨made, read⟩ := evaluateAll_of_worth memoryless known []
  rw [worth, evaluate, read]
  exact congrArg some (memoryless made calls name values)

end

end SnakeFront.Meaning
