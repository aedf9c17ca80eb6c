import SnakeFront.Lowering.Basic

/-! Successful lowering, shape by shape. Each node that has code has it for one reason, so a
property of lowered code is shown once for each shape and holds of every expression. -/
namespace SnakeFront.Lowering

open NormalForm
open SnakeFront.Tree (Node)

theorem bind_eq_ok {α β : Type} {first : Except Fault α} {next : α → Except Fault β} {result : β} :
    (first >>= next) = .ok result ↔ ∃ value, first = .ok value ∧ next value = .ok result := by
  cases first with
  | error fault =>
    constructor
    · intro impossible
      cases impossible
    · rintro ⟨value, impossible, _⟩
      cases impossible
  | ok value =>
    constructor
    · intro done
      exact ⟨value, rfl, done⟩
    · rintro ⟨_, same, done⟩
      cases same
      exact done

theorem pure_eq_ok {α : Type} {value result : α} :
    (pure value : Except Fault α) = .ok result ↔ result = value := by
  constructor
  · intro same
    cases same
    rfl
  · rintro rfl
    rfl

section
variable {scope : Scope} {dest : Address} {code : List Instr}

theorem expression_boolean_eq_ok {word : String} :
    expression scope dest (.boolean word) = .ok code ↔
      ∃ digits, truthValue word = some digits ∧ code = [.assign dest (.integer digits)] := by
  rw [expression]
  cases truthValue word with
  | none => simp
  | some digits => simp [eq_comm]

theorem expression_var_eq_ok {name : String} :
    expression scope dest (.var name) = .ok code ↔
      ∃ slot, scope.lookup name = some slot ∧
        code = [.assign dest (.address (.var slot))] := by
  rw [expression]
  cases scope.lookup name with
  | none => simp
  | some slot => simp [eq_comm]

theorem expression_call_eq_ok {name : String} {args : List Node} :
    expression scope dest (.call name args) = .ok code ↔
      ∃ setup, arguments scope 0 args = .ok setup ∧
        code = setup ++ [.assign dest (.call name (Address.params args.length))] := by
  simp only [expression, bind_eq_ok, pure_eq_ok]

theorem expression_binary_eq_ok {op : String} {left right : Node} :
    expression scope dest (.binary op left right) = .ok code ↔
      ∃ first, expression scope (.temp 0) left = .ok first ∧
      ∃ second, expression scope (.temp 1) right = .ok second ∧
        code = first ++ second ++ [.assign dest (.binary op (.temp 0) (.temp 1))] := by
  simp only [expression, bind_eq_ok, pure_eq_ok]

theorem expression_unary_eq_ok {op : String} {operand : Node} :
    expression scope dest (.unary op operand) = .ok code ↔
      ∃ inner, expression scope (.temp 0) operand = .ok inner ∧
        code = inner ++ [.assign dest (.unary op (.temp 0))] := by
  simp only [expression, bind_eq_ok, pure_eq_ok]

theorem arguments_cons_eq_ok {position : Nat} {arg : Node} {rest : List Node} :
    arguments scope position (arg :: rest) = .ok code ↔
      ∃ first, expression scope (.param position) arg = .ok first ∧
      ∃ others, arguments scope (position + 1) rest = .ok others ∧ code = first ++ others := by
  simp only [arguments, bind_eq_ok, pure_eq_ok]

end

section
variable {scope final : Scope} {code : List Instr}

theorem statement_assign_eq_ok {target : String} {value : Node} :
    statement scope (.assign (some target) value) = .ok (code, final) ↔
      expression (scope.claim target).2 (.var (scope.claim target).1) value = .ok code ∧
        final = (scope.claim target).2 := by
  simp only [statement, bind_eq_ok, pure_eq_ok, Prod.mk.injEq]
  constructor
  · rintro ⟨_, lowered, rfl, same⟩
    exact ⟨lowered, same⟩
  · rintro ⟨lowered, same⟩
    exact ⟨code, lowered, rfl, same⟩

theorem statement_call_eq_ok {name : String} {args : List Node} :
    statement scope (.call name args) = .ok (code, final) ↔
      ∃ setup, arguments scope 0 args = .ok setup ∧
        code = setup ++ [.call name (Address.params args.length)] ∧ final = scope := by
  simp only [statement, bind_eq_ok, pure_eq_ok, Prod.mk.injEq]

theorem statement_define_eq_ok {name : String} {params body : List Node} :
    statement scope (.define name params body) = .ok (code, final) ↔
      ∃ names, parameterNames (.badParameter name params body) 0 params = .ok names ∧
      ∃ inside, block (scope.nest.bindAll names) body = .ok inside ∧
        code = [.define name (Address.params names.length)
          (prologue scope.next names.length ++ inside.1)] ∧ final = scope := by
  simp only [statement, bind_eq_ok, pure_eq_ok, Prod.mk.injEq]

theorem parameterNames_eq_ok {refuse : Nat → Node → Fault} {index : Nat} {params : List Node}
    {names : List String} (listed : parameterNames refuse index params = .ok names) :
    params = names.map .var := by
  fun_induction parameterNames refuse index params generalizing names with
  | case1 =>
    cases listed
    rfl
  | case2 index name rest ih =>
    obtain ⟨others, known, same⟩ := bind_eq_ok.mp listed
    rw [pure_eq_ok.mp same, List.map_cons, ih known]
  | case3 => cases listed

theorem parameterNames_map_var (refuse : Nat → Node → Fault) (index : Nat) (names : List String) :
    parameterNames refuse index (names.map .var) = .ok names := by
  induction names generalizing index with
  | nil => rfl
  | cons name rest ih =>
    simp only [List.map_cons, parameterNames, ih]
    rfl

theorem block_cons_eq_ok {node : Node} {rest : List Node} :
    block scope (node :: rest) = .ok (code, final) ↔
      ∃ first inner, statement scope node = .ok (first, inner) ∧
      ∃ others, block inner rest = .ok (others, final) ∧ code = first ++ others := by
  simp only [block, bind_eq_ok, pure_eq_ok, Prod.mk.injEq, Prod.exists]
  constructor
  · rintro ⟨first, inner, lowered, others, _, remaining, rfl, rfl⟩
    exact ⟨first, inner, lowered, others, remaining, rfl⟩
  · rintro ⟨first, inner, lowered, others, remaining, rfl⟩
    exact ⟨first, inner, lowered, others, final, remaining, rfl, rfl⟩

theorem block_singleton (scope : Scope) (node : Node) :
    block scope [node] = statement scope node := by
  simp only [block]
  cases statement scope node with
  | error fault => rfl
  | ok result =>
    obtain ⟨code, inner⟩ := result
    change Except.ok (code ++ [], inner) = .ok (code, inner)
    rw [List.append_nil]

theorem block_append (scope : Scope) (first second : List Node) :
    block scope (first ++ second) = do
      let (code, inner) ← block scope first
      let (others, final) ← block inner second
      return (code ++ others, final) := by
  induction first generalizing scope with
  | nil =>
    change block scope second = block scope second >>= fun result => pure ([] ++ result.1, result.2)
    cases block scope second with
    | error fault => rfl
    | ok result => rfl
  | cons node rest ih =>
    simp only [List.cons_append, block, ih, bind_assoc, pure_bind, List.append_assoc]

theorem block_append_of_ok {inner : Scope} {first : List Node} (second : List Node)
    (done : block scope first = .ok (code, inner)) :
    block scope (first ++ second) =
      (block inner second).map fun result => (code ++ result.1, result.2) := by
  rw [block_append, done]
  change (block inner second >>= fun result => pure (code ++ result.1, result.2)) = _
  cases block inner second with
  | error fault => rfl
  | ok result => rfl

theorem program_eq_ok {nodes : List Node} :
    program scope nodes = .ok code ↔ ∃ final, block scope nodes = .ok (code, final) := by
  unfold program
  cases block scope nodes with
  | error fault => simp [Except.map]
  | ok result =>
    obtain ⟨found, final⟩ := result
    simp [Except.map]

theorem program_eq_error {nodes : List Node} {fault : Fault} :
    program scope nodes = .error fault ↔ block scope nodes = .error fault := by
  unfold program
  cases block scope nodes with
  | error other => simp [Except.map]
  | ok result => simp [Except.map]

end

/-- Induction over lowered code: `E` for an expression and its destination, `A` for a list of
arguments and the position of the first. -/
theorem lowered_induction {scope : Scope} {E : Address → Node → List Instr → Prop}
    {A : Nat → List Node → List Instr → Prop}
    (text : ∀ dest value, E dest (.text value) [.assign dest (.text value)])
    (integer : ∀ dest digits, E dest (.integer digits) [.assign dest (.integer digits)])
    (boolean : ∀ dest word digits, truthValue word = some digits →
      E dest (.boolean word) [.assign dest (.integer digits)])
    (var : ∀ dest name slot, scope.lookup name = some slot →
      E dest (.var name) [.assign dest (.address (.var slot))])
    (call : ∀ dest name args setup, arguments scope 0 args = .ok setup → A 0 args setup →
      E dest (.call name args) (setup ++ [.assign dest (.call name (Address.params args.length))]))
    (binary : ∀ dest op left right first second,
      expression scope (.temp 0) left = .ok first → expression scope (.temp 1) right = .ok second →
      E (.temp 0) left first → E (.temp 1) right second →
      E dest (.binary op left right)
        (first ++ second ++ [.assign dest (.binary op (.temp 0) (.temp 1))]))
    (unary : ∀ dest op operand inner, expression scope (.temp 0) operand = .ok inner →
      E (.temp 0) operand inner →
      E dest (.unary op operand) (inner ++ [.assign dest (.unary op (.temp 0))]))
    (nil : ∀ position, A position [] [])
    (cons : ∀ position arg rest first others, expression scope (.param position) arg = .ok first →
      arguments scope (position + 1) rest = .ok others →
      E (.param position) arg first → A (position + 1) rest others →
      A position (arg :: rest) (first ++ others)) :
    (∀ dest node code, expression scope dest node = .ok code → E dest node code) ∧
      ∀ position args code, arguments scope position args = .ok code → A position args code := by
  apply expression.mutual_induct scope
    (fun dest node => ∀ code, expression scope dest node = .ok code → E dest node code)
    (fun position args => ∀ code, arguments scope position args = .ok code → A position args code)
  case case1 =>
    intro dest value code lowered
    cases lowered
    exact text dest value
  case case2 =>
    intro dest digits code lowered
    cases lowered
    exact integer dest digits
  case case3 | case4 =>
    intros
    rename_i lowered
    obtain ⟨digits, known, rfl⟩ := expression_boolean_eq_ok.mp lowered
    exact boolean _ _ digits known
  case case5 | case6 =>
    intros
    rename_i lowered
    obtain ⟨slot, found, rfl⟩ := expression_var_eq_ok.mp lowered
    exact var _ _ slot found
  case case7 =>
    intro dest name args ih code lowered
    obtain ⟨setup, placed, rfl⟩ := expression_call_eq_ok.mp lowered
    exact call dest name args setup placed (ih setup placed)
  case case8 =>
    intro dest op left right ihLeft ihRight code lowered
    obtain ⟨first, one, second, two, rfl⟩ := expression_binary_eq_ok.mp lowered
    exact binary dest op left right first second one two (ihLeft first one) (ihRight second two)
  case case9 =>
    intro dest op operand ih code lowered
    obtain ⟨inner, done, rfl⟩ := expression_unary_eq_ok.mp lowered
    exact unary dest op operand inner done (ih inner done)
  case case14 =>
    intro position code lowered
    cases lowered
    exact nil position
  case case15 =>
    intro position arg rest ihArg ihRest code lowered
    obtain ⟨first, one, others, remaining, rfl⟩ := arguments_cons_eq_ok.mp lowered
    exact cons position arg rest first others one remaining (ihArg first one)
      (ihRest others remaining)
  -- Statements and nodes of no known shape have no code as expressions.
  all_goals
    intros
    rename_i impossible
    cases impossible

end SnakeFront.Lowering
