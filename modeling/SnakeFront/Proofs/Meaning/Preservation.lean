import SnakeFront.Proofs.Lowering.Names
import SnakeFront.Proofs.Meaning.Free

/-! Lowering keeps the meaning of a program whose waiting values are not overwritten. The machine
ends with the value of each variable in its slot and has made the same calls. -/
namespace SnakeFront.Meaning

open NormalForm
open SnakeFront.Lowering
open SnakeFront.Tree (Node Program)

universe u
variable {V : Type u} {I : Interpretation V} {scope : Scope}

theorem boolean_truthValue {word digits : String} (known : truthValue word = some digits) :
    I.boolean word = some (I.integer digits) := by
  unfold truthValue at known
  unfold Interpretation.boolean
  split at known
  · cases known
    rw [if_pos ‹_›]
  · rw [if_neg ‹_›]
    split at known
    · cases known
      rw [if_pos ‹_›]
    · cases known

theorem param_not_mem_targets {position : Nat} {args : List Node} {code : List Instr}
    (lowered : arguments scope (position + 1) args = .ok code)
    (free : ∀ arg ∈ args, arg.ArgumentFree) : .param position ∉ targets code := by
  intro member
  rcases (lowered_targets scope).2 _ _ _ lowered _ member with
    ⟨i, above, _, same⟩ | ⟨arg, present, ⟨impossible, _⟩ | ⟨_, passes⟩⟩
  · rw [Address.param_inj] at same
    omega
  · cases impossible
  · exact passes (free arg present)

/-- The left operand stays in its temporary while an operation-free right operand follows. -/
theorem left_not_mem_targets {node : Node} {code : List Instr}
    (lowered : expression scope (.temp 1) node = .ok code) (free : node.OperationFree) :
    .temp 0 ∉ targets code := by
  intro member
  rcases (lowered_targets scope).1 _ _ _ lowered _ member with
    same | ⟨_, operates⟩ | ⟨impossible, _⟩
  · simp [Address.temp] at same
  · exact operates free
  · cases impossible

theorem lowered_value (I : Interpretation V) (scope : Scope) :
    (∀ dest node code, expression scope dest node = .ok code → node.ClobberSafe →
      ∀ state : State V, evaluate I (view scope state.store) state.calls node =
        some ((run I state code).store dest, (run I state code).calls)) ∧
    ∀ position args code, arguments scope position args = .ok code →
      (∀ arg ∈ args, arg.ClobberSafe) → (∀ arg ∈ args.tail, arg.ArgumentFree) →
      ∀ state : State V, evaluateAll I (view scope state.store) state.calls args =
        some ((List.range' position args.length).map fun i => (run I state code).store (.param i),
          (run I state code).calls) := by
  apply lowered_induction
  case text | integer =>
    intro dest _ _ state
    rw [evaluate, run_single]
    exact congrArg some (read_assign rfl dest).symm
  case boolean =>
    intro dest word digits known _ state
    rw [evaluate, boolean_truthValue known, run_single]
    exact congrArg some (read_assign rfl dest).symm
  case var =>
    intro dest name slot found _ state
    rw [evaluate, view, found, run_single]
    exact congrArg some (read_assign rfl dest).symm
  case call =>
    intro dest name args setup placed ih safe state
    obtain ⟨free, each⟩ := (Node.clobberSafe_call name args).mp safe
    rw [evaluate, ih each free state, run_append, run_single]
    exact congrArg some (read_assign (read_params _ name args.length) dest).symm
  case binary =>
    intro dest op left right first second one two ihLeft ihRight safe state
    obtain ⟨free, safeLeft, safeRight⟩ := (Node.clobberSafe_binary op left right).mp safe
    have shown := view_run_expression (I := I) one (fun _ => Address.temp_ne_var) state
    have rightValue := ihRight safeRight (run I state first)
    rw [shown] at rightValue
    -- The left value is read after the right operand, and must still be there.
    have kept := run_store (I := I) (left_not_mem_targets two free) (run I state first)
    rw [evaluate, ihLeft safeLeft state, run_append, run_append, run_single]
    simp only [Option.bind_eq_bind, Option.bind_some, rightValue, ← kept]
    exact congrArg some (read_assign rfl dest).symm
  case unary =>
    intro dest op operand inner done ih safe state
    rw [evaluate, ih ((Node.clobberSafe_unary op operand).mp safe) state, run_append, run_single]
    exact congrArg some (read_assign rfl dest).symm
  case nil =>
    intro position _ _ state
    rfl
  case cons =>
    intro position arg rest first others one remaining ihArg ihRest each free state
    have shown := view_run_expression (I := I) one (fun _ => Address.param_ne_var) state
    have tailFree : ∀ other ∈ rest.tail, other.ArgumentFree :=
      fun other member => free other (List.mem_of_mem_tail member)
    have restValue := ihRest (fun other member => each other (by simp [member])) tailFree
      (run I state first)
    rw [shown] at restValue
    have kept := run_store (I := I) (param_not_mem_targets remaining free) (run I state first)
    rw [evaluateAll, ihArg (each arg (by simp)) state, run_append]
    simp only [Option.bind_eq_bind, Option.bind_some, restValue, ← kept, List.length_cons,
      List.range'_succ, List.map_cons]
    rfl

theorem evaluate_claim {target : String} {value : Node} (store : Address → V)
    (calls : List (Call V)) (fresh : target ∉ scope.names → target ∉ value.reads) :
    evaluate I (view scope store) calls value =
      evaluate I (view (scope.claim target).2 store) calls value := by
  cases found : scope.lookup target with
  | some slot => rw [Scope.claim_of_mem found]
  | none =>
    apply evaluate_congr
    intro name read
    have different : name ≠ target := by
      rintro rfl
      exact fresh (Scope.not_mem_names.mpr found) read
    rw [view, view, Scope.lookup_claim_of_ne different]

theorem view_assign (separated : scope.Separated) {target : String} {value : Node}
    {code : List Instr} (lowered : expression (scope.claim target).2
      (.var (scope.claim target).1) value = .ok code) (state : State V) :
    view (scope.claim target).2 (run I state code).store =
      Function.update (view scope state.store) target
        (some ((run I state code).store (.var (scope.claim target).1))) := by
  have own := Scope.lookup_claim scope target
  funext name
  by_cases same : name = target
  · subst same
    rw [Function.update_self, view, own, Option.map_some]
  · rw [Function.update_of_ne same, view, view, Scope.lookup_claim_of_ne same]
    cases found : scope.lookup name with
    | none => rfl
    | some slot =>
      have different : Address.var (scope.claim target).1 ≠ .var slot := by
        rw [ne_eq, Address.var_inj]
        rintro rfl
        rw [← Scope.lookup_claim_of_ne same] at found
        exact same ((Scope.claim_separated separated target).apart found own)
      rw [Option.map_some, Option.map_some, run_store (var_not_mem_targets lowered different)]

theorem statement_value (separated : scope.Separated) {node : Node} {code : List Instr}
    {inner : Scope} (lowered : statement scope node = .ok (code, inner))
    (fresh : node.FreshTarget scope.names) (safe : ∀ expr ∈ node.evaluated, expr.ClobberSafe)
    (state : State V) :
    perform I ⟨view scope state.store, state.calls⟩ node =
      some ⟨view inner (run I state code).store, (run I state code).calls⟩ := by
  cases node with
  | assign target value =>
    cases target with
    | none => cases lowered
    | some target =>
      obtain ⟨done, rfl⟩ := statement_assign_eq_ok.mp lowered
      have value_ok := (lowered_value I _).1 _ _ _ done (safe value (by simp [Node.evaluated])) state
      rw [perform, evaluate_claim state.store state.calls fresh, value_ok,
        view_assign separated done state]
      rfl
  | call name args =>
    obtain ⟨setup, placed, rfl, rfl⟩ := statement_call_eq_ok.mp lowered
    obtain ⟨free, each⟩ := (Node.clobberSafe_call name args).mp (safe _ (by simp [Node.evaluated]))
    have values := (lowered_value I _).2 _ _ _ placed each free state
    have shown := view_run_arguments (I := I) placed state
    rw [perform, evaluate, values, run_append, run_single, step]
    rw [Address.params, List.map_map, List.range_eq_range', shown]
    rfl
  | define name params body =>
    obtain ⟨names, _, inside, _, rfl, rfl⟩ := statement_define_eq_ok.mp lowered
    rfl
  | text | boolean | integer | var | binary | unary =>
    cases lowered
    rfl
  | unknown | absent => cases lowered

theorem block_value (separated : scope.Separated) {nodes : Program} {code : List Instr}
    {final : Scope} (lowered : block scope nodes = .ok (code, final))
    (fresh : Tree.FreshTargets scope.names nodes)
    (safe : ∀ node ∈ nodes, ∀ expr ∈ node.evaluated, expr.ClobberSafe) (state : State V) :
    performAll I ⟨view scope state.store, state.calls⟩ nodes =
      some ⟨view final (run I state code).store, (run I state code).calls⟩ := by
  induction nodes generalizing scope code state with
  | nil =>
    cases lowered
    rfl
  | cons node rest ih =>
    obtain ⟨first, inner, one, others, remaining, rfl⟩ := block_cons_eq_ok.mp lowered
    have here := statement_value (I := I) separated one fresh.1 (safe node (by simp)) state
    have freshRest : Tree.FreshTargets inner.names rest := by
      rw [names_statement one]
      exact fresh.2
    have later := ih (statement_separated separated one) remaining freshRest
      (fun other member => safe other (by simp [member])) (run I state first)
    rw [performAll, List.foldlM_cons, here, run_append]
    exact later

/-- Lowering keeps the meaning of a program. The machine ends with the value of every variable in
its slot and has made the calls of the program in their order, from any store and after any calls.
Definitions are passed over, so nothing is asked of their bodies. -/
theorem program_keeps_meaning (I : Interpretation V) {scope : Scope} (reachable : scope.Reachable)
    {nodes : Program} {code : List Instr} (lowered : program scope nodes = .ok code)
    (fresh : Tree.FreshTargets scope.names nodes)
    (safe : ∀ node ∈ nodes, ∀ expr ∈ node.evaluated, expr.ClobberSafe) (state : State V) :
    ∃ final, block scope nodes = .ok (code, final) ∧
      performAll I ⟨view scope state.store, state.calls⟩ nodes =
        some ⟨view final (run I state code).store, (run I state code).calls⟩ := by
  unfold program at lowered
  cases outcome : block scope nodes with
  | error fault =>
    rw [outcome] at lowered
    cases lowered
  | ok result =>
    obtain ⟨found, final⟩ := result
    rw [outcome] at lowered
    cases lowered
    exact ⟨final, rfl, block_value reachable.separated outcome fresh safe state⟩

/-- `x = (a + 1) * f(a)`, then `g(h(x), True)`, then `x = -x`, where `a` is known. -/
theorem nested_program_keeps_meaning :
    let nodes : Program :=
      [.assign (some "x") (.binary "*" (.binary "+" (.var "a") (.integer "1"))
        (.call "f" [.var "a"])),
       .call "g" [.call "h" [.var "x"], .boolean "True"],
       .assign (some "x") (.unary "-" (.var "x"))]
    let state : State Node := ⟨fun _ => .var "a", []⟩
    ∃ code final, block (Scope.empty.bind "a") nodes = .ok (code, final) ∧
      performAll free ⟨view (Scope.empty.bind "a") state.store, []⟩ nodes =
        some ⟨view final (run free state code).store, (run free state code).calls⟩ := by
  intro nodes state
  have reachable : (Scope.empty.bind "a").Reachable :=
    ⟨[.fresh, .bind 0 "a"], by simp [Scope.family, Scope.Step.apply, Scope.Step.result]⟩
  have fresh : Tree.FreshTargets (Scope.empty.bind "a").names nodes := by decide
  have safe : ∀ node ∈ nodes, ∀ expr ∈ node.evaluated, expr.ClobberSafe := by decide
  obtain ⟨final, lowered, same⟩ := program_keeps_meaning free reachable rfl fresh safe state
  exact ⟨_, final, lowered, same⟩

end SnakeFront.Meaning
