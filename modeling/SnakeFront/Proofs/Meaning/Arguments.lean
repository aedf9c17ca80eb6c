import SnakeFront.Proofs.Meaning.Preservation

/-! Arguments at the moment of their call. All calls place arguments in the same slots, so a call
inside a later argument writes over what waits for the outer call. The arguments of a call reach it
exactly when what is left in each slot is the expression that belongs there. -/
namespace SnakeFront.Meaning

open NormalForm
open SnakeFront.Lowering
open SnakeFront.Tree (Node plainAll plainAll_eq_map)

mutual

/-- The expression whose value is left in a parameter slot when an expression has been evaluated,
apart from its destination: an argument of a call inside it, if some call has that many. -/
def leftover (position : Nat) : Node → Option Node
  | .call _ args => args[position]?.or (leftoverAll position args)
  | _ => none

def leftoverAll (position : Nat) : List Node → Option Node
  | [] => none
  | arg :: rest => (leftoverAll position rest).or (leftover position arg)

end

mutual

/-- At every call in the expression, every argument is still in its slot. -/
def Intact : Node → Prop
  | .call _ args => IntactAll 0 args
  | _ => True

/-- Arguments placed from `position` on: whatever later arguments leave in the slot of an argument
is that argument again, up to the reading of boolean literals. -/
def IntactAll (position : Nat) : List Node → Prop
  | [] => True
  | arg :: rest =>
    Intact arg ∧ (∀ left ∈ leftoverAll position rest, left.plain = arg.plain) ∧
      IntactAll (position + 1) rest

end

universe u
variable {V : Type u}

/-- Whatever calls stand for, once the arguments are placed the slots hold their values. -/
def ArgumentsReach (scope : Scope) (args : List Node) (setup : List Instr) : Prop :=
  ∀ (V : Type) (I : Interpretation V), I.Memoryless → ∀ state : State V,
    args.map (worth I (view scope state.store)) =
      (Address.params args.length).map fun slot => some ((run I state setup).store slot)

variable {I : Interpretation V}

def Carries (I : Interpretation V) (vars : String → Option V) (before after : V) :
    Option Node → Prop
  | some left => worth I vars left = some after
  | none => after = before

theorem Carries.trans {vars : String → Option V} {before between after : V}
    {first second : Option Node} (one : Carries I vars before between first)
    (two : Carries I vars between after second) :
    Carries I vars before after (second.or first) := by
  cases second with
  | some left => exact two
  | none =>
    have same : after = between := two
    rw [Option.none_or, same]
    exact one

theorem worth_getElem {vars : String → Option V} {args : List Node} {contents : Nat → V}
    {position : Nat} (known : args.map (worth I vars) =
      (List.range' position args.length).map fun i => some (contents i))
    {i : Nat} {arg : Node} (found : args[i]? = some arg) :
    worth I vars arg = some (contents (position + i)) := by
  have below : i < args.length := (List.getElem?_eq_some_iff.mp found).1
  have here := congrArg (·[i]?) known
  simp only [List.getElem?_map, found, List.getElem?_range' below] at here
  simpa using here

theorem assigned_alone {state : State V} {source : Value} {value : V} {made : List (Call V)}
    (known : read I state source = some (value, made)) (dest : Address) :
    some value = some ((run I state [.assign dest source]).store dest) ∧
      ∀ i, Address.param i ≠ dest →
        (run I state [.assign dest source]).store (.param i) = state.store (.param i) := by
  refine ⟨congrArg (fun result => some result.1) (read_assign known dest).symm, ?_⟩
  intro i different
  rw [run_single]
  apply step_store
  intro same
  exact different (Option.some.inj same).symm

/-- Intact arguments are all in their slots, and every other slot carries what they leave. -/
theorem lowered_intact (memoryless : I.Memoryless) (scope : Scope) :
    (∀ dest node code, expression scope dest node = .ok code → node.OperationFree → Intact node →
      ∀ state : State V,
        worth I (view scope state.store) node = some ((run I state code).store dest) ∧
        ∀ i, Address.param i ≠ dest →
          Carries I (view scope state.store) (state.store (.param i))
            ((run I state code).store (.param i)) (leftover i node)) ∧
    ∀ position args code, arguments scope position args = .ok code →
      (∀ arg ∈ args, arg.OperationFree) → IntactAll position args → ∀ state : State V,
        args.map (worth I (view scope state.store)) =
          (List.range' position args.length).map
            (fun i => some ((run I state code).store (.param i))) ∧
        ∀ i, i < position ∨ position + args.length ≤ i →
          Carries I (view scope state.store) (state.store (.param i))
            ((run I state code).store (.param i)) (leftoverAll i args) := by
  apply lowered_induction
  case text | integer =>
    intro dest _ _ _ state
    exact assigned_alone rfl dest
  case boolean =>
    intro dest word digits known _ _ state
    have value : worth I (view scope state.store) (.boolean word) = some (I.integer digits) := by
      rw [worth, evaluate, boolean_truthValue known]
      rfl
    rw [value]
    exact assigned_alone rfl dest
  case var =>
    intro dest name slot found _ _ state
    have value : worth I (view scope state.store) (.var name) = some (state.store (.var slot)) := by
      rw [worth, evaluate, view, found]
      rfl
    rw [value]
    exact assigned_alone rfl dest
  case call =>
    intro dest name args setup placed ih operationFree intact state
    obtain ⟨values, others⟩ := ih ((Node.operationFree_call name args).mp operationFree) intact state
    have alone := assigned_alone (read_params (I := I) (run I state setup) name args.length) dest
    rw [run_append]
    refine ⟨?_, ?_⟩
    · rw [← alone.1]
      apply worth_call memoryless
      rw [values, List.map_map]
      rfl
    · intro i different
      rw [alone.2 i different, leftover]
      cases found : args[i]? with
      | some arg =>
        have value := worth_getElem values found
        rwa [Nat.zero_add] at value
      | none =>
        rw [Option.none_or]
        exact others i (Or.inr (by simpa using found))
  case binary =>
    intro dest op left right _ _ _ _ _ _ operationFree
    exact absurd operationFree (Node.not_operationFree_binary op left right)
  case unary =>
    intro dest op operand _ _ _ operationFree
    exact absurd operationFree (Node.not_operationFree_unary op operand)
  case nil =>
    intro position _ _ state
    exact ⟨rfl, fun _ _ => rfl⟩
  case cons =>
    intro position arg rest first others one remaining ihArg ihRest operationFree intact state
    obtain ⟨here, kept, later⟩ := intact
    have shown := view_run_expression (I := I) one (fun _ => Address.param_ne_var) state
    obtain ⟨value, beside⟩ := ihArg (operationFree arg (by simp)) here state
    obtain ⟨values, after⟩ := ihRest (fun other member => operationFree other (by simp [member]))
      later (run I state first)
    rw [shown] at values after
    rw [run_append]
    refine ⟨?_, ?_⟩
    · -- The argument's own slot carries what the rest leave there, which is the argument again.
      have own := after position (Or.inl (Nat.lt_succ_self position))
      have still : worth I (view scope state.store) arg =
          some ((run I (run I state first) others).store (.param position)) := by
        cases left : leftoverAll position rest with
        | none =>
          rw [left] at own
          rw [value]
          exact congrArg some own.symm
        | some node =>
          rw [left] at own
          rw [← worth_congr (kept node left)]
          exact own
      rw [List.length_cons, List.range'_succ, List.map_cons, List.map_cons, values, still]
    · intro i outside
      have elsewhere : Address.param i ≠ .param position := by
        rw [ne_eq, Address.param_inj]
        simp only [List.length_cons] at outside
        omega
      have beyond : i < position + 1 ∨ position + 1 + rest.length ≤ i := by
        simp only [List.length_cons] at outside
        omega
      exact (beside i elsewhere).trans (after i beyond)

theorem intact_of_mem {start : Nat} {args : List Node} (intact : IntactAll start args) :
    ∀ arg ∈ args, Intact arg := by
  induction args generalizing start with
  | nil => simp
  | cons first rest ih =>
    intro arg member
    rcases List.mem_cons.mp member with rfl | later
    · exact intact.1
    · exact ih intact.2.2 arg later

mutual

theorem intact_leftover (position : Nat) : (node : Node) → Intact node →
    ∀ left ∈ leftover position node, Intact left
  | .call name args, intact, left, found => by
    rw [leftover, Option.mem_def, Option.or_eq_some_iff] at found
    rcases found with argument | ⟨_, inner⟩
    · exact intact_of_mem intact left (List.mem_of_getElem? argument)
    · exact intactAll_leftover position 0 args intact left inner

theorem intactAll_leftover (position start : Nat) : (args : List Node) → IntactAll start args →
    ∀ left ∈ leftoverAll position args, Intact left
  | arg :: rest, intact, left, found => by
    rw [leftoverAll, Option.mem_def, Option.or_eq_some_iff] at found
    rcases found with later | ⟨_, here⟩
    · exact intactAll_leftover position (start + 1) rest intact.2.2 left later
    · exact intact_leftover position arg intact.1 left here

end

mutual

theorem leftover_plain (position : Nat) : (node : Node) →
    leftover position node.plain = (leftover position node).map Node.plain
  | .boolean word => by
    rw [Node.plain]
    split
    · rfl
    · split <;> rfl
  | .call name args => by
    rw [Node.plain, leftover, leftover, leftoverAll_plain position args, plainAll_eq_map,
      List.getElem?_map, Option.map_or]
  | .text _ | .integer _ | .var _ | .binary .. | .unary .. | .define .. | .assign .. | .unknown
  | .absent => rfl

theorem leftoverAll_plain (position : Nat) : (args : List Node) →
    leftoverAll position (plainAll args) = (leftoverAll position args).map Node.plain
  | [] => rfl
  | arg :: rest => by
    rw [plainAll, leftoverAll, leftoverAll, leftover_plain position arg,
      leftoverAll_plain position rest, Option.map_or]

end

mutual

theorem intact_plain : (node : Node) → (Intact node.plain ↔ Intact node)
  | .boolean word => by
    rw [Node.plain]
    split
    · exact Iff.rfl
    · split <;> exact Iff.rfl
  | .call name args => intactAll_plain 0 args
  | .text _ | .integer _ | .var _ | .binary .. | .unary .. | .define .. | .assign .. | .unknown
  | .absent => Iff.rfl

theorem intactAll_plain (start : Nat) : (args : List Node) →
    (IntactAll start (plainAll args) ↔ IntactAll start args)
  | [] => Iff.rfl
  | arg :: rest => by
    rw [plainAll, IntactAll, IntactAll, intact_plain arg, intactAll_plain (start + 1) rest,
      leftoverAll_plain start rest]
    simp

end

theorem intact_congr {node other : Node} (same : node.plain = other.plain) (intact : Intact node) :
    Intact other := by
  rw [← intact_plain, ← same, intact_plain]
  exact intact

theorem intact_of_free (scope : Scope) :
    (∀ dest node code, expression scope dest node = .ok code → node.OperationFree →
      ∀ state : State Node, Named (view scope state.store) →
        (run free state code).store dest = node.plain → Intact node) ∧
    ∀ position args code, arguments scope position args = .ok code →
      (∀ arg ∈ args, arg.OperationFree) → ∀ state : State Node, Named (view scope state.store) →
        (List.range' position args.length).map (fun i => (run free state code).store (.param i)) =
          plainAll args → IntactAll position args := by
  apply lowered_induction
  case text | integer => exact fun _ _ _ _ _ _ => trivial
  case boolean | var => exact fun _ _ _ _ _ _ _ _ => trivial
  case call =>
    intro dest name args setup placed ih operationFree state named right
    apply ih ((Node.operationFree_call name args).mp operationFree) state named
    have called := Option.some.inj
      (assigned_alone (read_params (I := free) (run free state setup) name args.length) dest).1
    rw [run_append, ← called] at right
    exact (Node.call.inj right).2
  case binary =>
    intro dest op left right _ _ _ _ _ _ operationFree
    exact absurd operationFree (Node.not_operationFree_binary op left right)
  case unary =>
    intro dest op operand _ _ _ operationFree
    exact absurd operationFree (Node.not_operationFree_unary op operand)
  case nil => exact fun _ _ _ _ _ => trivial
  case cons =>
    intro position arg rest first others one remaining ihArg ihRest operationFree state named right
    have shown := view_run_expression (I := free) one (fun _ => Address.param_ne_var) state
    have restFree : ∀ other ∈ rest, other.OperationFree :=
      fun other member => operationFree other (by simp [member])
    rw [List.length_cons, List.range'_succ, List.map_cons, plainAll, run_append] at right
    obtain ⟨own, tail⟩ := List.cons.inj right
    have namedNext : Named (view scope (run free state first).store) := by
      rw [shown]
      exact named
    have later := ihRest restFree (run free state first) namedNext tail
    have carried := ((lowered_intact free_memoryless scope).2 _ _ _ remaining restFree later
      (run free state first)).2 position (Or.inl (Nat.lt_succ_self position))
    rw [own] at carried
    cases left : leftoverAll position rest with
    | none =>
      rw [left] at carried
      have here := ihArg (operationFree arg (by simp)) state named carried.symm
      exact ⟨here, by simp [left], later⟩
    | some node =>
      -- The argument may have come out wrong at first; the one left in its place did not.
      rw [left] at carried
      have same : arg.plain = node.plain := worth_free namedNext carried
      have here := intact_congr same.symm (intactAll_leftover position _ rest later node left)
      exact ⟨here, by simp [left, same], later⟩

theorem params_map_some (count : Nat) (contents : Address → V) :
    ((Address.params count).map fun slot => some (contents slot)) =
      ((List.range' 0 count).map fun i => contents (.param i)).map some := by
  rw [Address.params, List.map_map, List.map_map, List.range_eq_range']
  rfl

/-- The arguments of a call that applies no operator reach it exactly when they are intact: at the
call itself and at every call inside, no slot has been left to a different expression. -/
theorem arguments_reach_iff_intact {scope : Scope} (reachable : scope.Reachable) {args : List Node}
    {setup : List Instr} (lowered : arguments scope 0 args = .ok setup)
    (operationFree : ∀ arg ∈ args, arg.OperationFree) :
    ArgumentsReach scope args setup ↔ IntactAll 0 args := by
  constructor
  · intro reach
    obtain ⟨store, named⟩ := exists_named reachable.separated
    have right := reach Node free free_memoryless ⟨store, []⟩
    rw [params_map_some] at right
    obtain ⟨made, read⟩ := evaluateAll_of_worth free_memoryless right []
    exact (intact_of_free scope).2 0 args setup lowered operationFree ⟨store, []⟩ named
      (evaluateAll_free named [] args read)
  · intro intact V I memoryless state
    have values := ((lowered_intact memoryless scope).2 0 args setup lowered operationFree intact
      state).1
    rw [values, params_map_some, List.map_map]
    rfl

/-- In `f(a, g(b), h(a))` the slot of `a` is given to `b` and then to `a` again. -/
theorem repeated_argument_reaches :
    ∃ setup, arguments ((Scope.empty.bind "a").bind "b") 0
        [.var "a", .call "g" [.var "b"], .call "h" [.var "a"]] = .ok setup ∧
      ArgumentsReach ((Scope.empty.bind "a").bind "b")
        [.var "a", .call "g" [.var "b"], .call "h" [.var "a"]] setup := by
  have reachable : ((Scope.empty.bind "a").bind "b").Reachable :=
    ⟨[.fresh, .bind 0 "a", .bind 1 "b"],
      by simp [Scope.family, Scope.Step.apply, Scope.Step.result]⟩
  refine ⟨_, rfl, (arguments_reach_iff_intact reachable rfl (by decide)).mpr ?_⟩
  simp [IntactAll, Intact, leftoverAll, leftover]

/-- In `f(a, g(b))` the call receives `b` in place of `a`. -/
theorem nested_call_overwrites_argument :
    ((Scope.empty.bind "a").bind "b").Reachable ∧
    ∃ setup, arguments ((Scope.empty.bind "a").bind "b") 0
        [.var "a", .call "g" [.var "b"]] = .ok setup ∧
      (∀ arg ∈ [Node.var "a", .call "g" [.var "b"]], arg.OperationFree) ∧
      ¬ ArgumentsReach ((Scope.empty.bind "a").bind "b")
        [.var "a", .call "g" [.var "b"]] setup := by
  refine ⟨⟨[.fresh, .bind 0 "a", .bind 1 "b"],
    by simp [Scope.family, Scope.Step.apply, Scope.Step.result]⟩, _, rfl, by decide, ?_⟩
  intro reach
  have wrong := reach Nat ⟨fun _ => 0, fun _ => 0, fun _ _ _ => 0, fun _ _ => 0, fun _ _ _ => 0⟩
    (fun _ _ _ _ => rfl) ⟨fun address => address.index.toNat, []⟩
  revert wrong
  decide

end SnakeFront.Meaning
