import SnakeFront.Proofs.Lowering.Cases
import SnakeFront.Proofs.Meaning.Free

/-! Lowered code read from its end. The last instruction of an expression tells the shape of the
expression and how many operands were lowered in front of it, so the code of an expression, or of a
known number of arguments, comes off the end of an instruction list in one way only, although all
depths of nesting write the same slots. Main statement: where no two names share a slot, the code of
an expression tells its destination and, up to the integers that stand for boolean literals, the
expression. -/
namespace SnakeFront.Scope

/-- Distinct names have distinct slots. -/
def OwnSlots (scope : Scope) : Prop :=
  ∀ name other slot, scope.lookup name = some slot → scope.lookup other = some slot → name = other

end SnakeFront.Scope

namespace SnakeFront.Lowering

open NormalForm
open SnakeFront.Tree (Node plainAll)

/-- The value that the code of an expression computes last, and the code of the operands before. -/
inductive Computes (scope : Scope) : Node → Value → List Instr → Prop where
  | text (value : String) : Computes scope (.text value) (.text value) []
  | integer (digits : String) : Computes scope (.integer digits) (.integer digits) []
  | boolean {word digits : String} : truthValue word = some digits →
      Computes scope (.boolean word) (.integer digits) []
  | var {name : String} {slot : Nat} : scope.lookup name = some slot →
      Computes scope (.var name) (.address (.var slot)) []
  | call {name : String} {args : List Node} {setup : List Instr} :
      arguments scope 0 args = .ok setup →
      Computes scope (.call name args) (.call name (Address.params args.length)) setup
  | binary {op : String} {left right : Node} {first second : List Instr} :
      expression scope (.temp 0) left = .ok first → expression scope (.temp 1) right = .ok second →
      Computes scope (.binary op left right) (.binary op (.temp 0) (.temp 1)) (first ++ second)
  | unary {op : String} {operand : Node} {inner : List Instr} :
      expression scope (.temp 0) operand = .ok inner →
      Computes scope (.unary op operand) (.unary op (.temp 0)) inner

section
variable {scope : Scope} {dest : Address} {code : List Instr}

theorem expression_computes {node : Node} (lowered : expression scope dest node = .ok code) :
    ∃ operands value, code = operands ++ [.assign dest value] ∧
      Computes scope node value operands := by
  cases node with
  | text value =>
    cases lowered
    exact ⟨[], _, rfl, .text value⟩
  | integer digits =>
    cases lowered
    exact ⟨[], _, rfl, .integer digits⟩
  | boolean word =>
    obtain ⟨digits, known, rfl⟩ := expression_boolean_eq_ok.mp lowered
    exact ⟨[], _, rfl, .boolean known⟩
  | var name =>
    obtain ⟨slot, found, rfl⟩ := expression_var_eq_ok.mp lowered
    exact ⟨[], _, rfl, .var found⟩
  | call name args =>
    obtain ⟨setup, placed, rfl⟩ := expression_call_eq_ok.mp lowered
    exact ⟨setup, _, rfl, .call placed⟩
  | binary op left right =>
    obtain ⟨first, one, second, two, rfl⟩ := expression_binary_eq_ok.mp lowered
    exact ⟨first ++ second, _, rfl, .binary one two⟩
  | unary op operand =>
    obtain ⟨inner, done, rfl⟩ := expression_unary_eq_ok.mp lowered
    exact ⟨inner, _, rfl, .unary done⟩
  | define | assign | unknown | absent => cases lowered

theorem expression_last {node : Node} {place : Address} {value : Value} {front back : List Instr}
    (lowered : expression scope dest node = .ok code)
    (same : front ++ [.assign place value] = back ++ code) :
    place = dest ∧ ∃ operands, Computes scope node value operands ∧ front = back ++ operands := by
  obtain ⟨operands, found, rfl, computes⟩ := expression_computes lowered
  rw [← List.append_assoc] at same
  obtain ⟨before, last⟩ := List.append_inj' same rfl
  obtain ⟨rfl, rfl⟩ := Instr.assign.inj (List.singleton_inj.mp last)
  exact ⟨rfl, operands, computes, before⟩

theorem length_eq_of_params {count other : Nat}
    (same : Address.params count = Address.params other) : count = other := by
  simpa [Address.params] using congrArg List.length same

theorem plain_boolean {word digits : String} (known : truthValue word = some digits) :
    (Node.boolean word).plain = .integer digits := by
  unfold truthValue at known
  unfold Node.plain
  split at known
  · cases known
    simp [*]
  · split at known
    · cases known
      simp [*]
    · cases known

end

/-- Code comes off the end of an instruction list in one way only. -/
theorem lowered_unambiguous {scope : Scope} (own : scope.OwnSlots) :
    (∀ dest node code, expression scope dest node = .ok code →
      ∀ place other more front back, expression scope place other = .ok more →
        front ++ code = back ++ more → dest = place ∧ node.plain = other.plain ∧ front = back) ∧
    ∀ position args code, arguments scope position args = .ok code →
      ∀ others more front back, arguments scope position others = .ok more →
        args.length = others.length → front ++ code = back ++ more →
          plainAll args = plainAll others ∧ front = back := by
  -- The induction is over the first of two expressions; each of its instructions is found again in
  -- the code of the second, from the last one on, and what was taken off leaves the same in front.
  apply lowered_induction
  case text =>
    intro dest value place other more front back lowered same
    obtain ⟨rfl, _, computes, before⟩ := expression_last lowered same
    cases computes
    exact ⟨rfl, rfl, by simpa using before⟩
  case integer =>
    intro dest digits place other more front back lowered same
    obtain ⟨rfl, _, computes, before⟩ := expression_last lowered same
    cases computes with
    | integer => exact ⟨rfl, rfl, by simpa using before⟩
    | boolean known => exact ⟨rfl, (plain_boolean known).symm, by simpa using before⟩
  case boolean =>
    intro dest word digits known place other more front back lowered same
    obtain ⟨rfl, _, computes, before⟩ := expression_last lowered same
    cases computes with
    | integer => exact ⟨rfl, plain_boolean known, by simpa using before⟩
    | boolean alike =>
      exact ⟨rfl, (plain_boolean known).trans (plain_boolean alike).symm, by simpa using before⟩
  case var =>
    intro dest name slot found place other more front back lowered same
    obtain ⟨rfl, _, computes, before⟩ := expression_last lowered same
    generalize address : Address.var slot = source at computes
    cases computes with
    | var alike =>
      rw [Address.var_inj] at address
      subst address
      exact ⟨rfl, by rw [own _ _ _ found alike], by simpa using before⟩
  case call =>
    intro dest name args setup _ ih place other more front back lowered same
    rw [← List.append_assoc] at same
    obtain ⟨rfl, operands, computes, before⟩ := expression_last lowered same
    generalize passed : Address.params args.length = addresses at computes
    cases computes with
    | call placed =>
      obtain ⟨alike, rfl⟩ := ih _ _ front back placed (length_eq_of_params passed) before
      exact ⟨rfl, by simp only [Node.plain, alike], rfl⟩
  case binary =>
    intro dest op left right first second _ _ ihLeft ihRight place other more front back lowered same
    rw [← List.append_assoc] at same
    obtain ⟨rfl, operands, computes, before⟩ := expression_last lowered same
    cases computes with
    | binary one two =>
      simp only [← List.append_assoc] at before
      obtain ⟨_, alike, behind⟩ := ihRight _ _ _ _ _ two before
      obtain ⟨_, likewise, rfl⟩ := ihLeft _ _ _ _ _ one behind
      exact ⟨rfl, by simp only [Node.plain, alike, likewise], rfl⟩
  case unary =>
    intro dest op operand inner _ ih place other more front back lowered same
    rw [← List.append_assoc] at same
    obtain ⟨rfl, operands, computes, before⟩ := expression_last lowered same
    cases computes with
    | unary done =>
      obtain ⟨_, alike, rfl⟩ := ih _ _ _ _ _ done before
      exact ⟨rfl, by simp only [Node.plain, alike], rfl⟩
  case nil =>
    intro position others more front back lowered count same
    cases others with
    | nil =>
      cases lowered
      exact ⟨rfl, by simpa using same⟩
    | cons arg rest => cases count
  case cons =>
    intro position arg rest first code _ _ ihArg ihRest others more front back lowered count same
    cases others with
    | nil => cases count
    | cons other remaining =>
      obtain ⟨head, one, tail, two, rfl⟩ := arguments_cons_eq_ok.mp lowered
      simp only [← List.append_assoc] at same
      obtain ⟨alike, behind⟩ := ihRest _ _ _ _ two (Nat.succ.inj count) same
      obtain ⟨_, likewise, rfl⟩ := ihArg _ _ _ _ _ one behind
      exact ⟨by simp only [plainAll, alike, likewise], rfl⟩

mutual

theorem expression_plain (scope : Scope) (dest : Address) : (node : Node) →
    expression scope dest node.plain = expression scope dest node
  | .boolean word => by
    unfold Node.plain
    split
    · simp [expression, truthValue, *]
    · split
      · simp [expression, truthValue, *]
      · rfl
  | .call name args => by
    have count : (plainAll args).length = args.length := by simp [Tree.plainAll_eq_map]
    simp only [Node.plain, expression, arguments_plain scope 0 args, count]
  | .binary op left right => by
    simp only [Node.plain, expression, expression_plain scope _ left,
      expression_plain scope _ right]
  | .unary op operand => by
    simp only [Node.plain, expression, expression_plain scope _ operand]
  | .text _ | .integer _ | .var _ | .define .. | .assign .. | .unknown | .absent => by
    simp only [Node.plain]

theorem arguments_plain (scope : Scope) (position : Nat) : (args : List Node) →
    arguments scope position (plainAll args) = arguments scope position args
  | [] => rfl
  | arg :: rest => by
    simp only [plainAll, arguments, expression_plain scope _ arg, arguments_plain scope _ rest]

end

/-- Where distinct names have distinct slots, two expressions have the same code exactly if they have
the same destination and are the same, with every boolean literal read as its integer. -/
theorem same_code_iff_same_expression {scope : Scope} (own : scope.OwnSlots) {dest place : Address}
    {node other : Node} {code more : List Instr} (lowered : expression scope dest node = .ok code)
    (loweredToo : expression scope place other = .ok more) :
    code = more ↔ dest = place ∧ node.plain = other.plain := by
  constructor
  · rintro rfl
    obtain ⟨same, alike, _⟩ :=
      (lowered_unambiguous own).1 dest node code lowered place other code [] [] loweredToo rfl
    exact ⟨same, alike⟩
  · rintro ⟨rfl, alike⟩
    rw [← expression_plain, alike, expression_plain, loweredToo] at lowered
    exact (Except.ok.inj lowered).symm

theorem passing_told_from_code :
    let scope := (Scope.empty.bind "a").bind "b"
    let inner := Node.call "f" [.call "g" [.var "a"], .var "b"]
    let outer := Node.call "f" [.call "g" [.var "a", .var "b"]]
    ∃ code more, scope.OwnSlots ∧ expression scope (.temp 0) inner = .ok code ∧
      expression scope (.temp 0) outer = .ok more ∧ code ≠ more := by
  intro scope inner outer
  have separated := Scope.bind_separated (Scope.bind_separated Scope.empty_separated "a") "b"
  have own : scope.OwnSlots := fun _ _ _ => separated.apart
  obtain ⟨code, one⟩ : ∃ code, expression scope (.temp 0) inner = .ok code := ⟨_, rfl⟩
  obtain ⟨more, two⟩ : ∃ more, expression scope (.temp 0) outer = .ok more := ⟨_, rfl⟩
  refine ⟨code, more, own, one, two, fun same => ?_⟩
  obtain ⟨_, alike⟩ := (same_code_iff_same_expression own one two).mp same
  cases alike

end SnakeFront.Lowering
