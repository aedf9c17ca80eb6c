import SnakeFront.Proofs.Lowering.Cases

/-! Erasure of definitions. A definition puts one instruction into the code and leaves the scope as
it was, and an expression other than a call puts in nothing. Main statement: dropping definitions by
name, and all such expressions, from a program and from every body in it drops the instructions of
those definitions from the code and changes nothing else. -/
namespace SnakeFront.Tree

mutual

def Node.erased (dropped : String → Bool) : Node → Program
  | .define name params body =>
    if dropped name then [] else [.define name params (erase dropped body)]
  | .text _ | .boolean _ | .integer _ | .var _ | .binary .. | .unary .. => []
  | node => [node]

def erase (dropped : String → Bool) : Program → Program
  | [] => []
  | node :: rest => node.erased dropped ++ erase dropped rest

end

end SnakeFront.Tree

namespace SnakeFront.NormalForm

mutual

def Instr.erased (dropped : String → Bool) : Instr → List Instr
  | .define name params body =>
    if dropped name then [] else [.define name params (erase dropped body)]
  | instr => [instr]

def erase (dropped : String → Bool) : List Instr → List Instr
  | [] => []
  | instr :: rest => instr.erased dropped ++ erase dropped rest

end

variable (dropped : String → Bool)

theorem erase_append (first second : List Instr) :
    erase dropped (first ++ second) = erase dropped first ++ erase dropped second := by
  induction first with
  | nil => rfl
  | cons instr rest ih => simp only [List.cons_append, erase, ih, List.append_assoc]

theorem erase_singleton (instr : Instr) : erase dropped [instr] = instr.erased dropped := by
  simp only [erase, List.append_nil]

@[simp] theorem erased_assign (dest : Address) (source : Value) :
    (Instr.assign dest source).erased dropped = [.assign dest source] := rfl

@[simp] theorem erased_call (name : String) (args : List Address) :
    (Instr.call name args).erased dropped = [.call name args] := rfl

end SnakeFront.NormalForm

namespace SnakeFront.Lowering

open NormalForm
open SnakeFront.Tree (Node Program)

variable (dropped : String → Bool)

theorem lowered_erase (scope : Scope) :
    (∀ dest node code, expression scope dest node = .ok code → erase dropped code = code) ∧
    ∀ position args code, arguments scope position args = .ok code → erase dropped code = code := by
  apply lowered_induction
  case text | integer =>
    intro dest value
    rfl
  case boolean | var =>
    intro dest source found _
    rfl
  case call =>
    intro dest name args setup _ ih
    simp only [erase_append, erase_singleton, erased_assign, ih]
  case binary =>
    intro dest op left right first second _ _ ihLeft ihRight
    simp only [erase_append, erase_singleton, erased_assign, ihLeft, ihRight]
  case unary =>
    intro dest op operand inner _ ih
    simp only [erase_append, erase_singleton, erased_assign, ih]
  case nil =>
    intro position
    rfl
  case cons =>
    intro position arg rest first others _ _ ihArg ihRest
    simp only [erase_append, ihArg, ihRest]

theorem erase_copies (slot : Nat) (positions : List Nat) :
    let copies : List Instr :=
      positions.map fun i => .assign (.var (slot + i)) (.address (.param i))
    erase dropped copies = copies := by
  induction positions with
  | nil => rfl
  | cons i rest ih => exact congrArg (_ :: ·) ih

mutual

/-- What stays of a statement is lowered to what stays of its code, and the scope behind it is the
same. The body of a definition that stays starts from the same scope as before. -/
theorem statement_erased {scope inner : Scope} {code : List Instr} :
    (node : Node) → statement scope node = .ok (code, inner) →
      block scope (node.erased dropped) = .ok (erase dropped code, inner)
  | .text _, lowered | .boolean _, lowered | .integer _, lowered | .var _, lowered
  | .binary .., lowered | .unary .., lowered => by
    cases lowered
    rfl
  | .assign (some target) value, lowered => by
    have same := (lowered_erase dropped _).1 _ _ _ (statement_assign_eq_ok.mp lowered).1
    rw [same]
    exact (block_singleton scope _).trans lowered
  | .call name args, lowered => by
    obtain ⟨setup, placed, rfl, _⟩ := statement_call_eq_ok.mp lowered
    have same := (lowered_erase dropped scope).2 _ _ _ placed
    simp only [erase_append, erase_singleton, erased_call, same]
    exact (block_singleton scope _).trans lowered
  | .define name params body, lowered => by
    obtain ⟨names, listed, ⟨inside, final⟩, done, rfl, rfl⟩ := statement_define_eq_ok.mp lowered
    have deeper := block_erased body done
    have copies := erase_copies dropped inner.next (List.range names.length)
    rw [erase_singleton, Node.erased, Instr.erased]
    split
    · rfl
    · rw [block_singleton, erase_append, prologue, copies, statement_define_eq_ok]
      refine ⟨names, ?_, _, deeper, rfl, rfl⟩
      -- A refused parameter would be blamed on another body, but here none is refused.
      rw [parameterNames_eq_ok listed]
      exact parameterNames_map_var _ 0 names

theorem block_erased {scope final : Scope} {code : List Instr} :
    (nodes : Program) → block scope nodes = .ok (code, final) →
      block scope (Tree.erase dropped nodes) = .ok (erase dropped code, final)
  | [], lowered => by
    cases lowered
    rfl
  | node :: rest, lowered => by
    obtain ⟨first, inner, one, others, remaining, rfl⟩ := block_cons_eq_ok.mp lowered
    have here := statement_erased node one
    have later := block_erased rest remaining
    rw [Tree.erase, block_append_of_ok _ here, later, erase_append]
    rfl

end

/-- A program without some of its definitions and without its bare expressions, at any depth, has
the code of the whole program without the instructions of those definitions. -/
theorem program_erased {scope : Scope} {nodes : Program} {code : List Instr}
    (lowered : program scope nodes = .ok code) :
    program scope (Tree.erase dropped nodes) = .ok (erase dropped code) := by
  obtain ⟨final, done⟩ := program_eq_ok.mp lowered
  exact program_eq_ok.mpr ⟨final, block_erased dropped nodes done⟩

/-- `x = a`, `def g(y): z = y`, `def f(x): "s"; def g(): w = 1; y = x`, `b`, `y = x` where `a` is
known: without both `g` and the bare `"s"` and `b`, every slot stays the same, in `f` and behind
it. -/
theorem dropped_definitions_leave_slots :
    let scope := Scope.empty.bind "a"
    let copy (target source : String) : Node := .assign (some target) (.var source)
    let whole : Program :=
      [copy "x" "a", .define "g" [.var "y"] [copy "z" "y"],
        .define "f" [.var "x"]
          [.text "s", .define "g" [] [.assign (some "w") (.integer "1")], copy "y" "x"],
        .var "b", copy "y" "x"]
    let kept : Program := [copy "x" "a", .define "f" [.var "x"] [copy "y" "x"], copy "y" "x"]
    let move (target source : Nat) : Instr := .assign (.var target) (.address (.var source))
    let params : List Address := [.param 0]
    program scope whole = .ok
        [move 1 0, .define "g" params [.assign (.var 2) (.address (.param 0)), move 3 2],
          .define "f" params [.assign (.var 2) (.address (.param 0)),
            .define "g" [] [.assign (.var 3) (.integer "1")], move 3 2],
          move 2 1] ∧
      program scope kept = .ok
        [move 1 0, .define "f" params [.assign (.var 2) (.address (.param 0)), move 3 2],
          move 2 1] := by
  intro scope copy whole kept move params
  have lowered : program scope whole = .ok _ := rfl
  exact ⟨lowered, program_erased (· == "g") lowered⟩

end SnakeFront.Lowering
