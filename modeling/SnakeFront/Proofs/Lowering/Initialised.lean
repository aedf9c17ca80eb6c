import Mathlib.Data.Finset.Option
import Mathlib.Data.Finset.Union
import SnakeFront.Proofs.Lowering.Names
import SnakeFront.Proofs.Lowering.Targets

/-! Reading what has been written. Code is scanned with the set of addresses that hold a value, and
an instruction may read only those. Main statement: lowered code passes the scan exactly if no
assignment of the program, however deep in definitions, reads the name it is about to bind. -/
namespace SnakeFront.NormalForm

def Value.sources : Value → List Address
  | .address source => [source]
  | .binary _ left right => [left, right]
  | .unary _ operand => [operand]
  | .call _ args => args
  | .text _ | .integer _ | .absent => []

mutual

/-- The instruction reads only addresses in `known`. The body of a definition is scanned by itself,
from the variables in `known` and the parameters, and what it writes is forgotten behind it. -/
def Instr.Ready (known : Finset Address) : Instr → Prop
  | .assign _ source => ∀ address ∈ source.sources, address ∈ known
  | .call _ args => ∀ address ∈ args, address ∈ known
  | .define _ params body =>
    Initialised (known.filter (·.storage = .var) ∪ params.toFinset) body

/-- Every instruction is ready when its turn comes; an assignment adds the address it writes. -/
def Initialised (known : Finset Address) : List Instr → Prop
  | [] => True
  | instr :: rest => instr.Ready known ∧ Initialised (known ∪ instr.target.toFinset) rest

end

mutual

def Instr.readyDecidable (known : Finset Address) : (instr : Instr) → Decidable (instr.Ready known)
  | .assign _ source => inferInstanceAs (Decidable (∀ address ∈ source.sources, address ∈ known))
  | .call _ args => inferInstanceAs (Decidable (∀ address ∈ args, address ∈ known))
  | .define _ params body =>
    initialisedDecidable (known.filter (·.storage = .var) ∪ params.toFinset) body

instance initialisedDecidable (known : Finset Address) :
    (code : List Instr) → Decidable (Initialised known code)
  | [] => inferInstanceAs (Decidable True)
  | instr :: rest =>
    have := instr.readyDecidable known
    have := initialisedDecidable (known ∪ instr.target.toFinset) rest
    inferInstanceAs (Decidable (instr.Ready known ∧ Initialised (_ ∪ _) rest))

end

-- A body does not see the temporaries of the code around its definition.
example : ¬ Initialised ∅ [.assign (.temp 0) (.text "a"),
    .define "f" [] [.assign (.var 0) (.address (.temp 0))]] := by decide

theorem initialised_append (known : Finset Address) (first second : List Instr) :
    Initialised known (first ++ second) ↔
      Initialised known first ∧ Initialised (known ∪ (targets first).toFinset) second := by
  induction first generalizing known with
  | nil => simp [Initialised, targets]
  | cons instr rest ih =>
    have written : known ∪ instr.target.toFinset ∪ (targets rest).toFinset =
        known ∪ (targets (instr :: rest)).toFinset := by
      ext address
      simp [targets]
    rw [List.cons_append, Initialised, Initialised, ih, written, and_assoc]

end SnakeFront.NormalForm

namespace SnakeFront.Scope

open NormalForm

/-- The addresses of the variables that are bound. -/
def bound (scope : Scope) : Finset Address :=
  scope.names.biUnion fun name => ((scope.lookup name).map Address.var).toFinset

theorem var_mem_bound {scope : Scope} {slot : Nat} :
    .var slot ∈ scope.bound ↔ ∃ name, scope.lookup name = some slot := by
  simp only [bound, Finset.mem_biUnion, Option.mem_toFinset, Option.mem_def,
    Option.map_eq_some_iff, Address.var_inj, exists_eq_right]
  constructor
  · rintro ⟨name, _, found⟩
    exact ⟨name, found⟩
  · rintro ⟨name, found⟩
    exact ⟨name, mem_names.mpr (by simp [found]), found⟩

/-- The addresses known to hold a value include every bound variable, and no variable that is still
to be given out. -/
structure Covered (scope : Scope) (known : Finset Address) : Prop where
  bound : ∀ {name slot}, scope.lookup name = some slot → .var slot ∈ known
  below : ∀ {slot}, .var slot ∈ known → slot < scope.next

theorem Separated.covered {scope : Scope} (separated : scope.Separated) :
    scope.Covered scope.bound := by
  constructor
  · intro name slot found
    exact var_mem_bound.mpr ⟨name, found⟩
  · intro slot member
    obtain ⟨name, found⟩ := var_mem_bound.mp member
    exact separated.below found

theorem Covered.nest {scope : Scope} {known : Finset Address} (covered : scope.Covered known) :
    scope.nest.Covered known where
  bound found := covered.bound (by rwa [lookup_nest] at found)
  below := covered.below

theorem Covered.claim_below {scope : Scope} {known : Finset Address}
    (covered : scope.Covered known) (name : String) :
    (scope.claim name).1 < (scope.claim name).2.next := by
  cases found : scope.lookup name with
  | some slot =>
    rw [claim_of_mem found]
    exact covered.below (covered.bound found)
  | none =>
    rw [claim_of_not_mem found]
    exact Nat.lt_succ_self scope.next

end SnakeFront.Scope

namespace SnakeFront.Lowering

open NormalForm
open SnakeFront.Tree (Node Program)

def Written (scope : Scope) (known : Finset Address) (name : String) : Prop :=
  ∀ slot, scope.lookup name = some slot → .var slot ∈ known

section
variable {scope : Scope} {known : Finset Address} {code : List Instr}

theorem written_behind (scope : Scope) (known : Finset Address)
    (untouched : ∀ slot, .var slot ∉ targets code) (name : String) :
    Written scope (known ∪ (targets code).toFinset) name ↔ Written scope known name := by
  simp [Written, untouched]

theorem initialised_assign (dest : Address) (source : Value) :
    Initialised known [.assign dest source] ↔ ∀ address ∈ source.sources, address ∈ known := by
  simp [Initialised, Instr.Ready]

theorem initialised_call (name : String) (args : List Address) :
    Initialised known [.call name args] ↔ ∀ address ∈ args, address ∈ known := by
  simp [Initialised, Instr.Ready]

theorem initialised_define (name : String) (params : List Address) (body : List Instr) :
    Initialised known [.define name params body] ↔
      Initialised (known.filter (·.storage = .var) ∪ params.toFinset) body := by
  simp [Initialised, Instr.Ready]

theorem params_known {args : List Node} (placed : arguments scope 0 args = .ok code) :
    ∀ address ∈ Address.params args.length, address ∈ known ∪ (targets code).toFinset := by
  intro address member
  obtain ⟨i, below, rfl⟩ := List.mem_map.mp member
  have reached := (lowered_reaches scope).2 0 args code placed i (Nat.zero_le i)
    (by simpa using List.mem_range.mp below)
  simp [reached]

end

/-- Code of an expression reads nothing too early if the variables of the expression hold a value:
operands and arguments are always written before they are read. -/
theorem lowered_initialised (scope : Scope) :
    (∀ dest node code, expression scope dest node = .ok code →
      ∀ known, Initialised known code ↔ ∀ name ∈ node.reads, Written scope known name) ∧
    ∀ position args code, arguments scope position args = .ok code →
      ∀ known, Initialised known code ↔
        ∀ name ∈ args.flatMap Node.reads, Written scope known name := by
  apply lowered_induction
  case text | integer =>
    intro dest value known
    simp [initialised_assign, Value.sources, Node.reads, Node.parts]
  case boolean =>
    intro dest word digits _ known
    simp [initialised_assign, Value.sources, Node.reads, Node.parts]
  case var =>
    intro dest name slot found known
    simp [initialised_assign, Value.sources, Written, found]
  case call =>
    intro dest name args setup placed ih known
    rw [initialised_append, initialised_assign, ih, Node.reads_call]
    exact and_iff_left (params_known placed)
  case binary =>
    intro dest op left right first second one two ihLeft ihRight known
    have reachedLeft := (lowered_reaches scope).1 _ _ _ one
    have reachedRight := (lowered_reaches scope).1 _ _ _ two
    have kept := written_behind scope known
      fun slot => var_not_mem_targets one Address.temp_ne_var
    rw [initialised_append, initialised_append, initialised_assign, ihLeft, ihRight,
      Node.reads_binary, List.forall_mem_append]
    simp only [kept]
    refine and_iff_left ?_
    simp [Value.sources, reachedLeft, reachedRight]
  case unary =>
    intro dest op operand inner done ih known
    have reached := (lowered_reaches scope).1 _ _ _ done
    rw [initialised_append, initialised_assign, ih, Node.reads_unary]
    refine and_iff_left ?_
    simp [Value.sources, reached]
  case nil =>
    intro position known
    simp [Initialised]
  case cons =>
    intro position arg rest first others one _ ihArg ihRest known
    have kept := written_behind scope known fun slot => var_not_mem_targets one Address.param_ne_var
    rw [initialised_append, ihArg, ihRest, List.flatMap_cons, List.forall_mem_append]
    simp only [kept]

theorem initialised_copies {known : Finset Address} (slot : Nat) {positions : List Nat}
    (given : ∀ i ∈ positions, .param i ∈ known) :
    Initialised known
      (positions.map fun i => .assign (.var (slot + i)) (.address (.param i))) := by
  induction positions generalizing known with
  | nil => trivial
  | cons i rest ih =>
    have here : Address.param i ∈ known := given i (by simp)
    refine ⟨by simpa [Instr.Ready, Value.sources] using here, ih ?_⟩
    intro j member
    exact Finset.mem_union_left _ (given j (by simp [member]))

theorem var_mem_prologue {first count slot : Nat} :
    .var slot ∈ targets (prologue first count) ↔ ∃ i < count, slot = first + i := by
  simp [targets, prologue, Instr.target, eq_comm]

section
variable {scope inner : Scope} {known : Finset Address} {node : Node} {code : List Instr}

theorem covered_prologue (covered : scope.Covered known) (names : List String) :
    (scope.bindAll names).Covered
      (known.filter (·.storage = .var) ∪ (Address.params names.length).toFinset ∪
        (targets (prologue scope.next names.length)).toFinset) := by
  have old : ∀ slot, .var slot ∈ (Address.params names.length).toFinset ↔ False := by
    simp [Address.params]
  constructor
  · intro name slot found
    rcases Scope.lookup_bindAll found with outside | row
    · have kept : Address.var slot ∈ known.filter (·.storage = .var) :=
        Finset.mem_filter.mpr ⟨covered.bound outside, rfl⟩
      exact Finset.mem_union_left _ (Finset.mem_union_left _ kept)
    · simp [var_mem_prologue.mpr row]
  · intro slot member
    rw [Scope.next_bindAll]
    simp only [Finset.mem_union, Finset.mem_filter, old, List.mem_toFinset, var_mem_prologue,
      or_false] at member
    rcases member with ⟨outside, _⟩ | ⟨i, below, rfl⟩
    · have := covered.below outside
      omega
    · omega

theorem covered_behind (covered : scope.Covered known)
    (untouched : ∀ slot, .var slot ∉ targets code) :
    scope.Covered (known ∪ (targets code).toFinset) := by
  constructor
  · intro name slot found
    exact Finset.mem_union_left _ (covered.bound found)
  · intro slot member
    exact covered.below (by simpa [untouched] using member)

theorem covered_assign (covered : scope.Covered known) {target : String} {value : Node}
    (done : expression (scope.claim target).2 (.var (scope.claim target).1) value = .ok code) :
    (scope.claim target).2.Covered (known ∪ (targets code).toFinset) := by
  have own := Scope.lookup_claim scope target
  have reached := (lowered_reaches _).1 _ _ _ done
  constructor
  · intro name slot found
    by_cases same : name = target
    · subst same
      rw [own] at found
      cases found
      simp [reached]
    · rw [Scope.lookup_claim_of_ne same] at found
      exact Finset.mem_union_left _ (covered.bound found)
  · intro slot member
    rw [Finset.mem_union, List.mem_toFinset] at member
    rcases member with before | here
    · exact Nat.lt_of_lt_of_le (covered.below before) (Scope.next_le_claim scope target)
    · -- The one variable that the code writes is the target.
      have same : slot = (scope.claim target).1 := by
        by_contra different
        exact var_not_mem_targets done (by simpa using Ne.symm different) here
      exact same ▸ covered.claim_below target

theorem statement_covered (covered : scope.Covered known)
    (lowered : statement scope node = .ok (code, inner)) :
    inner.Covered (known ∪ (targets code).toFinset) := by
  cases node with
  | assign target value =>
    cases target with
    | none => cases lowered
    | some target =>
      obtain ⟨done, rfl⟩ := statement_assign_eq_ok.mp lowered
      exact covered_assign covered done
  | call name args =>
    obtain ⟨setup, placed, rfl, rfl⟩ := statement_call_eq_ok.mp lowered
    apply covered_behind covered
    intro slot
    simpa [targets, Instr.target] using var_not_mem_targets_arguments placed slot
  | define name params body =>
    obtain ⟨_, _, _, _, rfl, rfl⟩ := statement_define_eq_ok.mp lowered
    exact covered_behind covered (by simp [targets, Instr.target])
  | text | boolean | integer | var | binary | unary =>
    cases lowered
    exact covered_behind covered (by simp [targets])
  | unknown | absent => cases lowered

/-- The value of an assignment reads nothing too early, unless it reads a name that has only now
been given a slot: that slot is the next one, and nothing has been written there. -/
theorem assign_initialised_iff (covered : scope.Covered known) {target : String} {value : Node}
    (done : expression (scope.claim target).2 (.var (scope.claim target).1) value = .ok code) :
    Initialised known code ↔ (target ∉ scope.names → target ∉ value.reads) := by
  rw [(lowered_initialised _).1 _ _ _ done]
  cases found : scope.lookup target with
  | some slot =>
    have member : target ∈ scope.names := Scope.mem_names.mpr (by simp [found])
    rw [Scope.claim_of_mem found]
    exact iff_of_true (fun _ _ _ => covered.bound) (absurd member)
  | none =>
    have fresh : target ∉ scope.names := Scope.not_mem_names.mpr found
    rw [Scope.claim_of_not_mem found]
    constructor
    · intro written _ read
      have known := written target read scope.next (Scope.lookup_bind_self scope target)
      exact Nat.lt_irrefl _ (covered.below known)
    · intro unread name read slot bound
      have different : name ≠ target := by
        rintro rfl
        exact unread fresh read
      rw [Scope.lookup_bind_of_ne different] at bound
      exact covered.bound bound

theorem params_given (known : Finset Address) (count : Nat) :
    ∀ i ∈ List.range count, .param i ∈ known ∪ (Address.params count).toFinset := by
  intro i member
  exact Finset.mem_union_right _ (List.mem_toFinset.mpr (List.mem_map_of_mem member))

end

mutual

/-- One statement. Only the body of a definition is looked into, and there the argument starts again
from the scope and the set that the prologue leaves. -/
theorem statement_initialised_iff {scope inner : Scope} {known : Finset Address} {code : List Instr}
    (covered : scope.Covered known) :
    (node : Node) → statement scope node = .ok (code, inner) →
      (Initialised known code ↔ node.FreshWithin scope.names)
  | .text _, lowered | .boolean _, lowered | .integer _, lowered | .var _, lowered
  | .binary .., lowered | .unary .., lowered => by
    cases lowered
    simp [Initialised, Node.FreshWithin, Node.FreshTarget]
  | .assign (some target) value, lowered =>
    assign_initialised_iff covered (statement_assign_eq_ok.mp lowered).1
  | .call name args, lowered => by
    obtain ⟨setup, placed, rfl, _⟩ := statement_call_eq_ok.mp lowered
    have setupReady : Initialised known setup :=
      ((lowered_initialised scope).2 _ _ _ placed known).mpr fun _ _ _ => covered.bound
    refine iff_of_true ?_ trivial
    rw [initialised_append, initialised_call]
    exact ⟨setupReady, params_known placed⟩
  | .define name params body, lowered => by
    obtain ⟨names, listed, ⟨inside, final⟩, done, rfl, _⟩ := statement_define_eq_ok.mp lowered
    have copied := initialised_copies scope.next
      (params_given (known.filter (·.storage = .var)) names.length)
    have deeper := block_initialised_iff (covered_prologue covered.nest names) body done
    rw [Scope.names_bindAll, Scope.names_nest] at deeper
    have listedNames : params.filterMap Node.name? = names := by
      rw [parameterNames_eq_ok listed, List.filterMap_map]
      exact List.filterMap_some
    rw [initialised_define, initialised_append, prologue, and_iff_right copied, Node.FreshWithin,
      listedNames]
    exact deeper

theorem block_initialised_iff {scope final : Scope} {known : Finset Address} {code : List Instr}
    (covered : scope.Covered known) :
    (nodes : Program) → block scope nodes = .ok (code, final) →
      (Initialised known code ↔ Tree.FreshThroughout scope.names nodes)
  | [], lowered => by
    cases lowered
    simp [Initialised, Tree.FreshThroughout]
  | node :: rest, lowered => by
    obtain ⟨first, inner, one, others, remaining, rfl⟩ := block_cons_eq_ok.mp lowered
    have here := statement_initialised_iff covered node one
    have later := block_initialised_iff (statement_covered covered one) rest remaining
    rw [initialised_append, here, later, names_statement one, Tree.FreshThroughout]

end

/-- Lowered code never reads an address before it is written, exactly if no assignment of the
program binds a name for the first time and reads it in the assigned value. -/
theorem program_initialised_iff_fresh {scope : Scope} (reachable : scope.Reachable)
    {nodes : Program} {code : List Instr} (lowered : program scope nodes = .ok code) :
    Initialised scope.bound code ↔ Tree.FreshThroughout scope.names nodes := by
  obtain ⟨final, done⟩ := program_eq_ok.mp lowered
  exact block_initialised_iff reachable.separated.covered nodes done

/-- `x = a`, then `def f(b): x = x + b; c = c`, where `a` is known: the last assignment reads `c`
out of a slot that was never written. Without it the program is in order. -/
theorem self_reading_definition_uninitialised :
    let scope := Scope.empty.bind "a"
    let sum : Node := .assign (some "x") (.binary "+" (.var "x") (.var "b"))
    let early : Program := [.assign (some "x") (.var "a"),
      .define "f" [.var "b"] [sum, .assign (some "c") (.var "c")]]
    let sound : Program := [.assign (some "x") (.var "a"), .define "f" [.var "b"] [sum]]
    (∃ code, program scope early = .ok code ∧ ¬ Initialised scope.bound code) ∧
      ∃ code, program scope sound = .ok code ∧ Initialised scope.bound code := by
  intro scope sum early sound
  have reachable : scope.Reachable :=
    ⟨[.fresh, .bind 0 "a"], by simp [scope, Scope.family, Scope.Step.apply, Scope.Step.result]⟩
  have unfresh : ¬ Tree.FreshThroughout scope.names early := by decide
  have fresh : Tree.FreshThroughout scope.names sound := by decide
  have earlyCode : program scope early = .ok _ := rfl
  have soundCode : program scope sound = .ok _ := rfl
  exact ⟨⟨_, earlyCode, (program_initialised_iff_fresh reachable earlyCode).not.mpr unfresh⟩,
    ⟨_, soundCode, (program_initialised_iff_fresh reachable soundCode).mpr fresh⟩⟩

end SnakeFront.Lowering
