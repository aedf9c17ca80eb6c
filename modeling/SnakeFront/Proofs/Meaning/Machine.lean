import SnakeFront.Proofs.Lowering.Targets
import SnakeFront.Proofs.Meaning.Evaluator

/-! Meaning of normal form: a machine whose store gives a value to every address. Instructions are
carried out in order, an assignment writes one address, and definitions are passed over. The
variables of a program are what a scope shows of the store. -/
namespace SnakeFront.Meaning

open NormalForm
open SnakeFront.Tree (Node)

universe u
variable {V : Type u}

structure State (V : Type u) where
  store : Address → V
  calls : List (Call V)

/-- The value of a source and the calls made then; a source that is absent has no value. -/
def read (I : Interpretation V) (state : State V) : Value → Option (V × List (Call V))
  | .address source => some (state.store source, state.calls)
  | .text value => some (I.text value, state.calls)
  | .integer digits => some (I.integer digits, state.calls)
  | .binary op left right => some (I.binary op (state.store left) (state.store right), state.calls)
  | .unary op operand => some (I.unary op (state.store operand), state.calls)
  | .call name args => some (I.invoke state.calls name (args.map state.store))
  | .absent => none

def step (I : Interpretation V) (state : State V) : Instr → State V
  | .assign dest source =>
    match read I state source with
    | some (value, made) => ⟨Function.update state.store dest value, made⟩
    | none => state
  | .call name args => ⟨state.store, (I.invoke state.calls name (args.map state.store)).2⟩
  | .define .. => state

def run (I : Interpretation V) (state : State V) (code : List Instr) : State V :=
  code.foldl (step I) state

variable {I : Interpretation V}

@[simp] theorem run_append (state : State V) (first second : List Instr) :
    run I state (first ++ second) = run I (run I state first) second :=
  List.foldl_append

@[simp] theorem run_single (state : State V) (instr : Instr) :
    run I state [instr] = step I state instr := rfl

theorem read_assign {state : State V} {source : Value} {result : V × List (Call V)}
    (known : read I state source = some result) (dest : Address) :
    ((step I state (.assign dest source)).store dest,
      (step I state (.assign dest source)).calls) = result := by
  rw [step, known]
  exact Prod.ext (Function.update_self dest _ _) rfl

theorem read_params (state : State V) (name : String) (count : Nat) :
    read I state (.call name (Address.params count)) =
      some (I.invoke state.calls name
        ((List.range' 0 count).map fun i => state.store (.param i))) := by
  rw [read, Address.params, List.map_map, List.range_eq_range']
  rfl

theorem step_store {state : State V} {instr : Instr} {address : Address}
    (untouched : instr.target ≠ some address) :
    (step I state instr).store address = state.store address := by
  cases instr with
  | assign dest source =>
    have different : address ≠ dest := by
      rintro rfl
      exact untouched rfl
    rw [step]
    split
    · exact Function.update_of_ne different _ _
    · rfl
  | call name args => rfl
  | define name params body => rfl

theorem run_store {code : List Instr} {address : Address} (untouched : address ∉ targets code)
    (state : State V) : (run I state code).store address = state.store address := by
  induction code generalizing state with
  | nil => rfl
  | cons instr rest ih =>
    have first : instr.target ≠ some address := by
      intro same
      exact untouched (List.mem_filterMap.mpr ⟨instr, by simp, same⟩)
    have others : address ∉ targets rest := by
      intro member
      obtain ⟨other, present, same⟩ := List.mem_filterMap.mp member
      exact untouched (List.mem_filterMap.mpr ⟨other, by simp [present], same⟩)
    calc (run I (step I state instr) rest).store address
        = (step I state instr).store address := ih others _
      _ = state.store address := step_store first

/-- The variables of a scope, with the values in their slots. -/
def view (scope : Scope) (store : Address → V) : String → Option V :=
  fun name => (scope.lookup name).map fun slot => store (.var slot)

theorem view_congr {scope : Scope} {store other : Address → V}
    (same : ∀ slot, store (.var slot) = other (.var slot)) : view scope store = view scope other := by
  funext name
  simp only [view, same]

theorem view_run_expression {scope : Scope} {dest : Address} {node : Node} {code : List Instr}
    (lowered : Lowering.expression scope dest node = .ok code)
    (elsewhere : ∀ slot, dest ≠ .var slot) (state : State V) :
    view scope (run I state code).store = view scope state.store :=
  view_congr fun slot => run_store (Lowering.var_not_mem_targets lowered (elsewhere slot)) state

theorem view_run_arguments {scope : Scope} {position : Nat} {args : List Node} {code : List Instr}
    (lowered : Lowering.arguments scope position args = .ok code) (state : State V) :
    view scope (run I state code).store = view scope state.store :=
  view_congr fun slot => run_store (Lowering.var_not_mem_targets_arguments lowered slot) state

end SnakeFront.Meaning
