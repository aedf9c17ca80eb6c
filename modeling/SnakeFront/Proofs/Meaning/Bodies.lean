import SnakeFront.Proofs.Lowering.Initialised
import SnakeFront.Proofs.Meaning.Preservation

/-! Bodies of definitions. The prologue takes the arguments out of their slots, so that the body may
make calls of its own. Main statement: a body does what it says with its parameters bound to the
arguments, and of the slots that were given before the definition it writes those of the outer
variables it assigns, and no others. -/
namespace SnakeFront.Lowering

open NormalForm
open SnakeFront.Tree (Node Program)

section
variable {scope inner final : Scope} {code : List Instr} {slot : Nat}

theorem var_mem_targets_statement {node : Node} (lowered : statement scope node = .ok (code, inner))
    (member : .var slot ∈ targets code) :
    ∃ target, node.target? = some target ∧ inner.lookup target = some slot := by
  cases node with
  | assign target value =>
    cases target with
    | none => cases lowered
    | some target =>
      obtain ⟨done, rfl⟩ := statement_assign_eq_ok.mp lowered
      refine ⟨target, rfl, ?_⟩
      by_cases same : (scope.claim target).1 = slot
      · rw [Scope.lookup_claim, same]
      · exact absurd member (var_not_mem_targets done (by simpa using same))
  | call name args =>
    obtain ⟨setup, placed, rfl, _⟩ := statement_call_eq_ok.mp lowered
    have setupMember : .var slot ∈ targets setup := by
      simpa [targets, Instr.target] using member
    exact absurd setupMember (var_not_mem_targets_arguments placed slot)
  | define name params body =>
    obtain ⟨_, _, _, _, rfl, _⟩ := statement_define_eq_ok.mp lowered
    cases member
  | text | boolean | integer | var | binary | unary =>
    cases lowered
    cases member
  | unknown | absent => cases lowered

theorem lookup_behind_statement {node : Node} {name : String}
    (lowered : statement scope node = .ok (code, inner)) (found : inner.lookup name = some slot) :
    scope.lookup name = some slot ∨ scope.next ≤ slot := by
  rcases statement_scope lowered with ⟨rfl, _⟩ | ⟨target, rfl, _⟩
  · exact Or.inl found
  · exact (Scope.lookup_behind_claim found).imp_right fun same => Nat.le_of_eq same.symm

theorem next_le_statement {node : Node} (lowered : statement scope node = .ok (code, inner)) :
    scope.next ≤ inner.next := by
  rcases statement_scope lowered with ⟨rfl, _⟩ | ⟨target, rfl, _⟩
  · exact Nat.le_refl _
  · exact Scope.next_le_claim scope target

theorem var_mem_targets_block {nodes : Program} (lowered : block scope nodes = .ok (code, final))
    (member : .var slot ∈ targets code) :
    (∃ target ∈ Tree.assigned nodes, scope.lookup target = some slot) ∨ scope.next ≤ slot := by
  induction nodes generalizing scope code with
  | nil =>
    cases lowered
    cases member
  | cons node rest ih =>
    obtain ⟨first, inner, one, others, remaining, rfl⟩ := block_cons_eq_ok.mp lowered
    have written : (∃ target ∈ Tree.assigned (node :: rest), inner.lookup target = some slot) ∨
        inner.next ≤ slot := by
      rw [targets_append, List.mem_append] at member
      rcases member with here | later
      · obtain ⟨target, own, found⟩ := var_mem_targets_statement one here
        exact Or.inl ⟨target, List.mem_filterMap.mpr ⟨node, by simp, own⟩, found⟩
      · rcases ih remaining later with ⟨target, behind, found⟩ | above
        · obtain ⟨other, present, own⟩ := List.mem_filterMap.mp behind
          exact Or.inl ⟨target, List.mem_filterMap.mpr ⟨other, by simp [present], own⟩, found⟩
        · exact Or.inr above
    rcases written with ⟨target, given, found⟩ | above
    · rcases lookup_behind_statement one found with old | above
      · exact Or.inl ⟨target, given, old⟩
      · exact Or.inr above
    · exact Or.inr (Nat.le_trans (next_le_statement one) above)

/-- Below the slots of its parameters, the code of a definition writes those of the outer variables
that the body assigns and no parameter hides. -/
theorem var_mem_targets_body {names : List String} {body : Program}
    (lowered : block (scope.nest.bindAll names) body = .ok (code, final))
    (member : .var slot ∈ targets (prologue scope.next names.length ++ code))
    (below : slot < scope.next) :
    ∃ target ∈ Tree.assigned body, target ∉ names ∧ scope.lookup target = some slot := by
  rw [targets_append, List.mem_append, var_mem_prologue] at member
  rcases member with ⟨i, _, rfl⟩ | inside
  · omega
  · rcases var_mem_targets_block lowered inside with ⟨target, given, found⟩ | above
    · refine ⟨target, given, ?_, ?_⟩
      · intro parameter
        have := Scope.next_le_of_rebound parameter found
        rw [Scope.next_nest] at this
        omega
      · rcases Scope.lookup_bindAll found with outer | ⟨i, _, rfl⟩
        · rwa [Scope.lookup_nest] at outer
        · rw [Scope.next_nest] at below
          omega
    · rw [Scope.next_bindAll, Scope.next_nest] at above
      omega

end

end SnakeFront.Lowering

namespace SnakeFront.Meaning

open NormalForm
open SnakeFront.Lowering
open SnakeFront.Tree (Node Program)

universe u
variable {V : Type u} {I : Interpretation V} {scope : Scope}

/-- The variables when values have been given to names, from left to right. Of the values for one
name the last counts. -/
def bindArguments (vars : String → Option V) : List String → List V → String → Option V
  | name :: names, value :: values =>
    bindArguments (Function.update vars name (some value)) names values
  | _, _ => vars

theorem view_bind (separated : scope.Separated) (name : String) (store : Address → V) (value : V) :
    view (scope.bind name) (Function.update store (.var scope.next) value) =
      Function.update (view scope store) name (some value) := by
  funext other
  by_cases same : other = name
  · subst same
    rw [Function.update_self, view, Scope.lookup_bind_self, Option.map_some, Function.update_self]
  · rw [Function.update_of_ne same, view, view, Scope.lookup_bind_of_ne same]
    cases found : scope.lookup other with
    | none => rfl
    | some slot =>
      have older : Address.var slot ≠ .var scope.next := by
        have := separated.below found
        simp only [ne_eq, Address.var_inj]
        omega
      rw [Option.map_some, Option.map_some, Function.update_of_ne older]

theorem view_nest (scope : Scope) (store : Address → V) :
    view scope.nest store = view scope store := by
  funext name
  rw [view, Scope.lookup_nest, view]

theorem run_copies (separated : scope.Separated) {first position : Nat}
    (next : scope.next = first + position) (names : List String) (state : State V) :
    let copies : List Instr := (List.range' position names.length).map
      fun i => .assign (.var (first + i)) (.address (.param i))
    view (scope.bindAll names) (run I state copies).store =
        bindArguments (view scope state.store) names
          ((List.range' position names.length).map fun i => state.store (.param i)) ∧
      (run I state copies).calls = state.calls := by
  induction names generalizing scope position state with
  | nil => exact ⟨rfl, rfl⟩
  | cons name rest ih =>
    let copied := step I state (.assign (.var (first + position)) (.address (.param position)))
    have shown : view (scope.bind name) copied.store =
        Function.update (view scope state.store) name (some (state.store (.param position))) := by
      have bound := view_bind separated name state.store (state.store (.param position))
      rw [next] at bound
      exact bound
    have waiting : ∀ i, copied.store (.param i) = state.store (.param i) := by
      intro i
      apply step_store
      intro same
      exact Address.param_ne_var (Option.some.inj same).symm
    have shifted : (scope.bind name).next = first + (position + 1) := by
      rw [Scope.next_bind, next, Nat.add_assoc]
    have later := ih (Scope.bind_separated separated name) shifted copied
    simp only [shown, waiting] at later
    exact later

theorem run_prologue (separated : scope.Separated) (names : List String) (state : State V) :
    view (scope.bindAll names) (run I state (prologue scope.next names.length)).store =
        bindArguments (view scope state.store) names
          ((Address.params names.length).map state.store) ∧
      (run I state (prologue scope.next names.length)).calls = state.calls := by
  rw [prologue, Address.params, List.map_map, List.range_eq_range']
  exact run_copies separated (Nat.add_zero _).symm names state

/-- The code of a definition, run with values in the parameter slots, makes the calls of the body
and leaves the value of every variable in its slot, as if the parameters had been bound to the
values. Of the slots below those of the parameters, only those of outer variables change that the
body assigns and no parameter hides. -/
theorem body_keeps_meaning (I : Interpretation V) {scope after : Scope}
    (reachable : scope.Reachable) {name : String} {names : List String} {body : Program}
    {code : List Instr}
    (lowered : statement scope (.define name (names.map .var) body) = .ok (code, after))
    (fresh : Tree.FreshTargets (scope.names ∪ names.toFinset) body)
    (safe : ∀ node ∈ body, ∀ expr ∈ node.evaluated, expr.ClobberSafe) :
    ∃ rest final, block (scope.nest.bindAll names) body = .ok (rest, final) ∧
      let inside := prologue scope.next names.length ++ rest
      code = [.define name (Address.params names.length) inside] ∧
      ∀ (state : State V) (values : List V),
        (Address.params names.length).map state.store = values →
          performAll I ⟨bindArguments (view scope state.store) names values, state.calls⟩ body =
              some ⟨view final (run I state inside).store, (run I state inside).calls⟩ ∧
            ∀ slot < scope.next,
              (∀ target ∈ Tree.assigned body, target ∉ names → scope.lookup target ≠ some slot) →
                (run I state inside).store (.var slot) = state.store (.var slot) := by
  have separated := reachable.separated
  obtain ⟨listed, known, ⟨rest, final⟩, done, rfl, _⟩ := statement_define_eq_ok.mp lowered
  have same : names = listed :=
    List.map_injective_iff.mpr (fun _ _ => Node.var.inj) (parameterNames_eq_ok known)
  subst same
  refine ⟨rest, final, done, rfl, ?_⟩
  rintro state values rfl
  have nested := Scope.nest_separated separated
  obtain ⟨bound, quiet⟩ := run_prologue (I := I) nested names state
  rw [Scope.next_nest, view_nest] at bound
  refine ⟨?_, ?_⟩
  · rw [← Scope.names_nest, ← Scope.names_bindAll] at fresh
    have meaning := block_value (I := I) (Scope.bindAll_separated nested names) done fresh safe
      (run I state (prologue scope.next names.length))
    rw [run_append, ← bound, ← quiet]
    exact meaning
  · intro slot below unassigned
    apply run_store
    intro member
    obtain ⟨target, given, outer, found⟩ := var_mem_targets_body done member below
    exact unassigned target given outer found

/-- `def f(x, b, x): a = x + b; b = g(a)` where `a` and `b` are known: `x` is the third argument, and
the outer `b` in slot 1 stays as it was. -/
theorem shadowing_body_keeps_meaning :
    let scope := (Scope.empty.bind "a").bind "b"
    let names := ["x", "b", "x"]
    let body : Program := [.assign (some "a") (.binary "+" (.var "x") (.var "b")),
      .assign (some "b") (.call "g" [.var "a"])]
    let state : State Node := ⟨fun address => .integer (toString address.index), []⟩
    let values : List Node := [.integer "0", .integer "1", .integer "2"]
    ∃ rest final, block (scope.nest.bindAll names) body = .ok (rest, final) ∧
      let finished := run free state (prologue 2 3 ++ rest)
      performAll free ⟨bindArguments (view scope state.store) names values, []⟩ body =
          some ⟨view final finished.store, finished.calls⟩ ∧
        finished.store (.var 1) = state.store (.var 1) := by
  intro scope names body state values
  have reachable : scope.Reachable := ⟨[.fresh, .bind 0 "a", .bind 1 "b"], by
    simp [scope, Scope.family, Scope.Step.apply, Scope.Step.result]⟩
  have lowered : statement scope (.define "f" (names.map .var) body) = .ok _ := rfl
  have fresh : Tree.FreshTargets (scope.names ∪ names.toFinset) body := by decide
  have safe : ∀ node ∈ body, ∀ expr ∈ node.evaluated, expr.ClobberSafe := by decide
  obtain ⟨rest, final, done, _, meaning⟩ := body_keeps_meaning free reachable lowered fresh safe
  obtain ⟨same, kept⟩ := meaning state values rfl
  exact ⟨rest, final, done, same, kept 1 (by decide) (by decide)⟩

end SnakeFront.Meaning
