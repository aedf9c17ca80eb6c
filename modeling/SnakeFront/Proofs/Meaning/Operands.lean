import SnakeFront.Proofs.Meaning.Preservation

/-! Operands at the moment of their operator. Every operator takes its operands out of the same two
temporaries, so an operator inside a right operand writes over the left operand that waits. Main
statement: with trees as values, an expression of distinct variables and operators has its own value
exactly if no right operand applies an operator. -/
namespace SnakeFront.Tree.Node

/-- Expressions of variables and operators only. -/
inductive Algebraic : Node → Prop where
  | var (name : String) : Algebraic (.var name)
  | binary (op : String) {left right : Node} :
      Algebraic left → Algebraic right → Algebraic (.binary op left right)
  | unary (op : String) {operand : Node} : Algebraic operand → Algebraic (.unary op operand)

/-- No right operand in the expression applies an operator. -/
def LeftNested (node : Node) : Prop :=
  ∀ op left right, .binary op left right ∈ node.parts → right.OperationFree

section
variable {name op : String} {left right operand : Node}

theorem operationFree_var : (var name).OperationFree := by
  intro part member
  rw [List.mem_singleton.mp member]
  rfl

theorem leftNested_var : (var name).LeftNested := by
  intro op left right member
  cases List.mem_singleton.mp member

theorem leftNested_binary : (binary op left right).LeftNested ↔
    right.OperationFree ∧ left.LeftNested ∧ right.LeftNested := by
  simp only [LeftNested, parts_binary, List.mem_cons, List.mem_append]
  constructor
  · intro nested
    exact ⟨nested op left right (.inl rfl), fun _ _ _ inLeft => nested _ _ _ (.inr (.inl inLeft)),
      fun _ _ _ inRight => nested _ _ _ (.inr (.inr inRight))⟩
  · rintro ⟨free, nestedLeft, nestedRight⟩ _ _ _ (same | inLeft | inRight)
    · cases same
      exact free
    · exact nestedLeft _ _ _ inLeft
    · exact nestedRight _ _ _ inRight

theorem leftNested_unary : (unary op operand).LeftNested ↔ operand.LeftNested := by
  simp [LeftNested, parts_unary]

theorem Algebraic.exists_read {node : Node} (algebraic : node.Algebraic) :
    ∃ name, name ∈ node.reads := by
  induction algebraic with
  | var name => exact ⟨name, by simp⟩
  | binary op _ _ ihLeft _ =>
    obtain ⟨name, member⟩ := ihLeft
    exact ⟨name, by simp [member]⟩
  | unary op _ ih =>
    obtain ⟨name, member⟩ := ih
    exact ⟨name, by simpa using member⟩

end

end SnakeFront.Tree.Node

namespace SnakeFront.Meaning

open NormalForm
open SnakeFront.Lowering
open SnakeFront.Tree (Node)

def NamedIn (vars : String → Option Node) (node : Node) : Prop :=
  ∀ name ∈ node.reads, vars name = some (.var name)

section
variable {vars : String → Option Node} {op : String} {left right operand : Node}

theorem namedIn_binary :
    NamedIn vars (.binary op left right) ↔ NamedIn vars left ∧ NamedIn vars right := by
  simp only [NamedIn, Node.reads_binary, List.forall_mem_append]

theorem namedIn_unary : NamedIn vars (.unary op operand) ↔ NamedIn vars operand := by
  simp only [NamedIn, Node.reads_unary]

end

variable {scope : Scope} {node : Node} {code : List Instr} {dest : Address}

theorem algebraic_lowers (algebraic : node.Algebraic)
    (bound : ∀ name ∈ node.reads, name ∈ scope.names) (dest : Address) :
    ∃ code, expression scope dest node = .ok code := by
  induction algebraic generalizing dest with
  | var name =>
    have found := Scope.mem_names.mp (bound name (by simp))
    obtain ⟨slot, place⟩ := Option.isSome_iff_exists.mp found
    exact ⟨_, expression_var_eq_ok.mpr ⟨slot, place, rfl⟩⟩
  | binary op _ _ ihLeft ihRight =>
    rw [Node.reads_binary, List.forall_mem_append] at bound
    obtain ⟨first, one⟩ := ihLeft bound.1 (.temp 0)
    obtain ⟨second, two⟩ := ihRight bound.2 (.temp 1)
    exact ⟨_, expression_binary_eq_ok.mpr ⟨first, one, second, two, rfl⟩⟩
  | unary op _ ih =>
    rw [Node.reads_unary] at bound
    obtain ⟨inner, done⟩ := ih bound (.temp 0)
    exact ⟨_, expression_unary_eq_ok.mpr ⟨inner, done, rfl⟩⟩

theorem store_behind {V : Type} {I : Interpretation V} {state : State V} {source : Value}
    {value : V} {made : List (Call V)} (known : read I state source = some (value, made))
    (dest address : Address) :
    (run I state [.assign dest source]).store address =
      if address = dest then value else state.store address := by
  rw [run_single, step, known]
  exact Function.update_apply state.store dest value address

theorem variable_value {name : String} (lowered : expression scope dest (.var name) = .ok code)
    (state : State Node) (named : NamedIn (view scope state.store) (.var name)) :
    (run free state code).store dest = .var name := by
  obtain ⟨slot, found, rfl⟩ := expression_var_eq_ok.mp lowered
  have shown := named name (by simp)
  rw [view, found] at shown
  rw [store_behind rfl, if_pos rfl]
  exact Option.some.inj shown

/-- What code leaves at its destination is made of the variables of its expression. If the
expression applies an operator, so is what is left in the first temporary. -/
theorem reads_left_behind (algebraic : node.Algebraic)
    (lowered : expression scope dest node = .ok code) (state : State Node)
    (named : NamedIn (view scope state.store) node) :
    ((run free state code).store dest).reads ⊆ node.reads ∧
      (¬ node.OperationFree → ((run free state code).store (.temp 0)).reads ⊆ node.reads) := by
  induction algebraic generalizing dest code state with
  | var name =>
    rw [variable_value lowered state named]
    exact ⟨List.Subset.refl _, absurd Node.operationFree_var⟩
  | @binary op left right _ _ ihLeft ihRight =>
    obtain ⟨first, one, second, two, rfl⟩ := expression_binary_eq_ok.mp lowered
    rw [namedIn_binary] at named
    have shown := view_run_expression (I := free) one (fun _ => Address.temp_ne_var) state
    have afterLeft := ihLeft one state named.1
    have afterRight := ihRight two (run free state first) (by rw [shown]; exact named.2)
    -- The first temporary holds the left operand still, or what the right operand has left there.
    have waiting : ((run free (run free state first) second).store (.temp 0)).reads ⊆
        left.reads ++ right.reads := by
      by_cases plain : right.OperationFree
      · rw [run_store (left_not_mem_targets two plain)]
        exact List.subset_append_of_subset_left _ afterLeft.1
      · exact List.subset_append_of_subset_right _ (afterRight.2 plain)
    have result : (Node.binary op ((run free (run free state first) second).store (.temp 0))
        ((run free (run free state first) second).store (.temp 1))).reads ⊆
          left.reads ++ right.reads := by
      rw [Node.reads_binary]
      exact List.append_subset.mpr ⟨waiting, List.subset_append_of_subset_right _ afterRight.1⟩
    rw [run_append, run_append, store_behind rfl, store_behind rfl, if_pos rfl, Node.reads_binary]
    refine ⟨result, fun _ => ?_⟩
    split
    · exact result
    · exact waiting
  | @unary op operand _ ih =>
    obtain ⟨inner, done, rfl⟩ := expression_unary_eq_ok.mp lowered
    rw [namedIn_unary] at named
    have behind := (ih done state named).1
    rw [run_append, store_behind rfl, store_behind rfl, if_pos rfl, Node.reads_unary]
    have result : (Node.unary op ((run free state inner).store (.temp 0))).reads ⊆
        operand.reads := by
      rw [Node.reads_unary]
      exact behind
    refine ⟨result, fun _ => ?_⟩
    split
    · exact result
    · exact behind

/-- A left operand that was written over does not come back: what stands in its place is made of
other variables. -/
theorem left_operand_lost {left right : Node} (algebraicLeft : left.Algebraic)
    (algebraicRight : right.Algebraic) (apart : left.reads.Disjoint right.reads)
    (operates : ¬ right.OperationFree) (lowered : expression scope (.temp 1) right = .ok code)
    (state : State Node) (named : NamedIn (view scope state.store) right) :
    (run free state code).store (.temp 0) ≠ left := by
  intro same
  obtain ⟨name, member⟩ := algebraicLeft.exists_read
  have left_behind := (reads_left_behind algebraicRight lowered state named).2 operates
  rw [same] at left_behind
  exact apart member (left_behind member)

theorem value_kept_iff (algebraic : node.Algebraic)
    (lowered : expression scope dest node = .ok code) (distinct : node.reads.Nodup)
    (state : State Node) (named : NamedIn (view scope state.store) node) :
    (run free state code).store dest = node ↔ node.LeftNested := by
  -- The induction is over the expression; a right operand starts from the state that the left one
  -- leaves, in which the variables are as before.
  induction algebraic generalizing dest code state with
  | var name => exact iff_of_true (variable_value lowered state named) Node.leftNested_var
  | @binary op left right algebraicLeft algebraicRight ihLeft ihRight =>
    obtain ⟨first, one, second, two, rfl⟩ := expression_binary_eq_ok.mp lowered
    rw [namedIn_binary] at named
    rw [Node.reads_binary, List.nodup_append'] at distinct
    obtain ⟨distinctLeft, distinctRight, apart⟩ := distinct
    have shown := view_run_expression (I := free) one (fun _ => Address.temp_ne_var) state
    have namedRight : NamedIn (view scope (run free state first).store) right := by
      rw [shown]
      exact named.2
    have leftValue := ihLeft one distinctLeft state named.1
    have rightValue := ihRight two distinctRight (run free state first) namedRight
    have result : (run free state
        (first ++ second ++ [.assign dest (.binary op (.temp 0) (.temp 1))])).store dest =
          .binary op ((run free (run free state first) second).store (.temp 0))
            ((run free (run free state first) second).store (.temp 1)) := by
      rw [run_append, run_append, store_behind rfl, if_pos rfl]
      rfl
    rw [result, Node.binary.injEq, Node.leftNested_binary, rightValue]
    by_cases plain : right.OperationFree
    · rw [run_store (left_not_mem_targets two plain), leftValue]
      simp [plain]
    · have lost := left_operand_lost algebraicLeft algebraicRight apart plain two _ namedRight
      simp [plain, lost]
  | @unary op operand _ ih =>
    obtain ⟨inner, done, rfl⟩ := expression_unary_eq_ok.mp lowered
    rw [namedIn_unary] at named
    rw [Node.reads_unary] at distinct
    have result : (run free state (inner ++ [.assign dest (.unary op (.temp 0))])).store dest =
        .unary op ((run free state inner).store (.temp 0)) := by
      rw [run_append, store_behind rfl, if_pos rfl]
      rfl
    rw [result, Node.unary.injEq, Node.leftNested_unary, ih done distinct state named]
    simp

/-- An expression of distinct bound variables and operators has code towards any address, and there
are stores in which its variables stand for themselves. From every such store the code leaves the
expression at that address exactly if no right operand in it applies an operator. -/
theorem operands_kept_iff_left_nested (reachable : scope.Reachable) (dest : Address)
    (algebraic : node.Algebraic) (bound : ∀ name ∈ node.reads, name ∈ scope.names)
    (distinct : node.reads.Nodup) :
    ∃ code, expression scope dest node = .ok code ∧
      (∃ state : State Node, NamedIn (view scope state.store) node) ∧
      ∀ state : State Node, NamedIn (view scope state.store) node →
        ((run free state code).store dest = node ↔ node.LeftNested) := by
  obtain ⟨code, lowered⟩ := algebraic_lowers algebraic bound dest
  obtain ⟨store, named⟩ := exists_named reachable.separated
  refine ⟨code, lowered, ⟨⟨store, []⟩, ?_⟩, value_kept_iff algebraic lowered distinct⟩
  intro name member
  obtain ⟨slot, found⟩ := Option.isSome_iff_exists.mp (Scope.mem_names.mp (bound name member))
  have shown : view scope store name = some (store (.var slot)) := by
    rw [view, found]
    rfl
  rw [shown, named name _ shown]

/-- `-(a + b) * c` keeps its operands, even on the way to the slot of `a`; in `a - -b` the left
operand is lost. -/
theorem operand_lost_to_right_minus :
    let scope := ((Scope.empty.bind "a").bind "b").bind "c"
    let nested : Node := .binary "*" (.unary "-" (.binary "+" (.var "a") (.var "b"))) (.var "c")
    let doubled : Node := .binary "-" (.var "a") (.unary "-" (.var "b"))
    let state : State Node :=
      ⟨fun address => .var (["a", "b", "c"].getD address.index.toNat ""), []⟩
    (∃ code, expression scope (.var 0) nested = .ok code ∧
      (run free state code).store (.var 0) = nested) ∧
    ∃ code, expression scope (.var 0) doubled = .ok code ∧
      (run free state code).store (.var 0) ≠ doubled := by
  intro scope nested doubled state
  have reachable : scope.Reachable := ⟨[.fresh, .bind 0 "a", .bind 1 "b", .bind 2 "c"], by
    simp [scope, Scope.family, Scope.Step.apply, Scope.Step.result]⟩
  have algebraicNested : nested.Algebraic :=
    .binary _ (.unary _ (.binary _ (.var _) (.var _))) (.var _)
  have algebraicDoubled : doubled.Algebraic := .binary _ (.var _) (.unary _ (.var _))
  have named : ∀ name ∈ ["a", "b", "c"], view scope state.store name = some (.var name) := by
    simp only [List.forall_mem_cons]
    exact ⟨rfl, rfl, rfl, by simp⟩
  obtain ⟨code, lowered, _, kept⟩ :=
    operands_kept_iff_left_nested reachable (.var 0) algebraicNested (by decide) (by decide)
  obtain ⟨other, loweredToo, _, lost⟩ :=
    operands_kept_iff_left_nested reachable (.var 0) algebraicDoubled (by decide) (by decide)
  refine ⟨⟨code, lowered, (kept state ?_).mpr ?_⟩, ⟨other, loweredToo, (lost state ?_).not.mpr ?_⟩⟩
  · exact named
  · simp [nested, Node.leftNested_binary, Node.leftNested_unary, Node.leftNested_var,
      Node.operationFree_var]
  · exact fun name member => named name (List.mem_append_left ["c"] member)
  · simp [doubled, Node.leftNested_binary]

end SnakeFront.Meaning
