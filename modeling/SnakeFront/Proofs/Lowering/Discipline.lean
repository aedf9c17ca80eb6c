import SnakeFront.Proofs.Lowering.Initialised

/-! The discipline of lowered code. An operator reads the first temporaries, a call and a definition
have the parameter slots in order, and any other copy is of a variable in scope; a variable is
written in the prologue of a body or by the last instruction of an assignment. Main statement: all
lowered code keeps to this, at every depth of definitions. -/
namespace SnakeFront.NormalForm

/-- The addresses in an instruction. Those in the body of a definition are in its instructions. -/
def Instr.addresses : Instr → List Address
  | .assign dest source => dest :: source.sources
  | .call _ args => args
  | .define _ params _ => params

mutual

def Instr.within : Instr → List Instr
  | .assign dest source => [.assign dest source]
  | .call name args => [.call name args]
  | .define name params body => .define name params body :: everywhere body

/-- The instructions at every depth of definitions. -/
def everywhere : List Instr → List Instr
  | [] => []
  | instr :: rest => instr.within ++ everywhere rest

end

theorem everywhere_append (first second : List Instr) :
    everywhere (first ++ second) = everywhere first ++ everywhere second := by
  induction first with
  | nil => rfl
  | cons instr rest ih => rw [List.cons_append, everywhere, everywhere, ih, List.append_assoc]

theorem everywhere_single (instr : Instr) : everywhere [instr] = instr.within :=
  List.append_nil _

def Value.Strict : Value → Prop
  | .address _ | .text _ | .integer _ => True
  | .binary _ left right => left = .temp 0 ∧ right = .temp 1
  | .unary _ operand => operand = .temp 0
  | .call _ args => args = Address.params args.length
  | .absent => False

/-- The operands are the first temporaries, and arguments and parameters are the parameter slots in
order. A body starts by copying its parameters to consecutive variables. -/
def Instr.Strict : Instr → Prop
  | .assign _ source => source.Strict
  | .call _ args => args = Address.params args.length
  | .define _ params body => params = Address.params params.length ∧
      ∃ slot, Lowering.prologue slot params.length <+: body

/-- A strict instruction in which no slot of a call result occurs. -/
def Instr.Lawful (instr : Instr) : Prop :=
  instr.Strict ∧ ∀ address ∈ instr.addresses, address.storage ≠ .ret

def Value.DrawnFrom (scope : Scope) : Value → Prop
  | .address source => source ∈ scope.bound
  | .text _ | .integer _ | .binary .. | .unary .. | .call .. | .absent => True

def Instr.ScratchIn (scope : Scope) : Instr → Prop
  | .assign dest source =>
    (dest.storage = .temp ∨ dest.storage = .param) ∧ source.Strict ∧ source.DrawnFrom scope
  | .call .. | .define .. => False

def ScratchIn (scope : Scope) (code : List Instr) : Prop := ∀ instr ∈ code, instr.ScratchIn scope

theorem scratchIn_append {scope : Scope} {first second : List Instr} :
    ScratchIn scope (first ++ second) ↔ ScratchIn scope first ∧ ScratchIn scope second :=
  List.forall_mem_append

theorem scratchIn_nil (scope : Scope) : ScratchIn scope [] := by simp [ScratchIn]

/-- Code that fills scratch slots and writes the destination by its last instruction. -/
def EndsIn (scope : Scope) (dest : Address) (code : List Instr) : Prop :=
  ∃ front source, code = front ++ [.assign dest source] ∧ ScratchIn scope front ∧
    source.Strict ∧ source.DrawnFrom scope

theorem EndsIn.scratch {scope : Scope} {dest : Address} {code : List Instr}
    (ends : EndsIn scope dest code) (slot : dest.storage = .temp ∨ dest.storage = .param) :
    ScratchIn scope code := by
  obtain ⟨front, source, rfl, filled, strict, drawn⟩ := ends
  refine scratchIn_append.mpr ⟨filled, ?_⟩
  simpa [ScratchIn] using ⟨slot, strict, drawn⟩

end SnakeFront.NormalForm

namespace SnakeFront.Lowering

open NormalForm
open SnakeFront.Tree (Node Program)

/-- Code that keeps to the discipline, statement by statement. The scope is that in front of the
statements; an assignment draws on the scope in which its target has a slot, and a body on a copy of
the scope at its definition with the parameters bound. -/
inductive Disciplined : Scope → Program → List Instr → Prop where
  | nil (scope : Scope) : Disciplined scope [] []
  | assign {scope : Scope} {target : String} {value : Node} {nodes : Program}
      {code others : List Instr}
      (ends : EndsIn (scope.claim target).2 (.var (scope.claim target).1) code)
      (rest : Disciplined (scope.claim target).2 nodes others) :
      Disciplined scope (.assign (some target) value :: nodes) (code ++ others)
  | call {scope : Scope} {name : String} {args : List Node} {nodes : Program}
      {setup others : List Instr} (scratch : ScratchIn scope setup)
      (rest : Disciplined scope nodes others) :
      Disciplined scope (.call name args :: nodes)
        (setup ++ [.call name (Address.params args.length)] ++ others)
  | define {scope : Scope} {name : String} {params : List String} {body nodes : Program}
      {inside others : List Instr} (within : Disciplined (scope.nest.bindAll params) body inside)
      (rest : Disciplined scope nodes others) :
      Disciplined scope (.define name (params.map .var) body :: nodes)
        ([.define name (Address.params params.length)
          (prologue scope.next params.length ++ inside)] ++ others)
  | bare {scope : Scope} {node : Node} {nodes : Program} {others : List Instr}
      (expression : node.isStatement = false) (uncalled : ∀ name args, node ≠ .call name args)
      (rest : Disciplined scope nodes others) :
      Disciplined scope (node :: nodes) others

theorem strict_params (count : Nat) :
    Address.params count = Address.params (Address.params count).length := by
  simp [Address.params]

theorem lowered_scratch (scope : Scope) :
    (∀ dest node code, expression scope dest node = .ok code → EndsIn scope dest code) ∧
    ∀ position args code, arguments scope position args = .ok code → ScratchIn scope code := by
  apply lowered_induction
  case text | integer =>
    intro dest _
    exact ⟨[], _, rfl, scratchIn_nil scope, trivial, trivial⟩
  case boolean =>
    intro dest _ _ _
    exact ⟨[], _, rfl, scratchIn_nil scope, trivial, trivial⟩
  case var =>
    intro dest name slot found
    exact ⟨[], _, rfl, scratchIn_nil scope, trivial, Scope.var_mem_bound.mpr ⟨name, found⟩⟩
  case call =>
    intro dest name args setup _ filled
    exact ⟨setup, _, rfl, filled, strict_params args.length, trivial⟩
  case binary =>
    intro dest op left right first second _ _ ihLeft ihRight
    have filled := scratchIn_append.mpr ⟨ihLeft.scratch (Or.inl rfl), ihRight.scratch (Or.inl rfl)⟩
    exact ⟨first ++ second, _, rfl, filled, ⟨rfl, rfl⟩, trivial⟩
  case unary =>
    intro dest op operand inner _ ih
    exact ⟨inner, _, rfl, ih.scratch (Or.inl rfl), rfl, trivial⟩
  case nil =>
    intro position
    exact scratchIn_nil scope
  case cons =>
    intro position arg rest first others _ _ ihArg ihRest
    exact scratchIn_append.mpr ⟨ihArg.scratch (Or.inr rfl), ihRest⟩

mutual

theorem statement_disciplined {scope inner : Scope} {nodes : Program} {code others : List Instr} :
    (node : Node) → statement scope node = .ok (code, inner) → Disciplined inner nodes others →
      Disciplined scope (node :: nodes) (code ++ others)
  | .text _, lowered, rest | .boolean _, lowered, rest | .integer _, lowered, rest
  | .var _, lowered, rest | .binary .., lowered, rest | .unary .., lowered, rest => by
    cases lowered
    exact .bare rfl (by simp) rest
  | .assign (some target) value, lowered, rest => by
    obtain ⟨done, rfl⟩ := statement_assign_eq_ok.mp lowered
    exact .assign ((lowered_scratch _).1 _ _ _ done) rest
  | .call name args, lowered, rest => by
    obtain ⟨setup, placed, rfl, rfl⟩ := statement_call_eq_ok.mp lowered
    exact .call ((lowered_scratch _).2 _ _ _ placed) rest
  | .define name params body, lowered, rest => by
    obtain ⟨names, listed, ⟨inside, final⟩, done, rfl, rfl⟩ := statement_define_eq_ok.mp lowered
    have within := block_disciplined body done
    rw [parameterNames_eq_ok listed]
    exact .define within rest

theorem block_disciplined {scope final : Scope} {code : List Instr} :
    (nodes : Program) → block scope nodes = .ok (code, final) → Disciplined scope nodes code
  | [], lowered => by
    cases lowered
    exact .nil scope
  | node :: rest, lowered => by
    obtain ⟨first, inner, one, others, remaining, rfl⟩ := block_cons_eq_ok.mp lowered
    exact statement_disciplined node one (block_disciplined rest remaining)

end

theorem storage_of_mem_bound {scope : Scope} {address : Address} (bound : address ∈ scope.bound) :
    address.storage = .var := by
  simp only [Scope.bound, Finset.mem_biUnion, Option.mem_toFinset, Option.mem_def,
    Option.map_eq_some_iff] at bound
  obtain ⟨name, _, slot, _, rfl⟩ := bound
  rfl

theorem params_storage {count : Nat} {address : Address} (member : address ∈ Address.params count) :
    address.storage = .param := by
  obtain ⟨i, _, rfl⟩ := List.mem_map.mp member
  rfl

theorem lawful_assign {scope : Scope} {dest : Address} {source : Value}
    (slot : dest.storage ≠ .ret) (strict : source.Strict) (drawn : source.DrawnFrom scope) :
    (Instr.assign dest source).Lawful := by
  refine ⟨strict, ?_⟩
  intro address member
  rcases List.mem_cons.mp member with rfl | read
  · exact slot
  cases source with
  | address source =>
    obtain rfl := List.mem_singleton.mp read
    simp [storage_of_mem_bound drawn]
  | binary op left right =>
    obtain ⟨rfl, rfl⟩ := strict
    rcases List.mem_pair.mp read with rfl | rfl <;> simp [Address.temp]
  | unary op operand =>
    obtain rfl := strict
    obtain rfl := List.mem_singleton.mp read
    simp [Address.temp]
  | call name args =>
    rw [Value.sources, strict] at read
    simp [params_storage read]
  | text | integer | absent => cases read

theorem lawful_call (name : String) (count : Nat) :
    (Instr.call name (Address.params count)).Lawful := by
  refine ⟨strict_params count, ?_⟩
  intro address member
  simp [params_storage member]

theorem lawful_define (name : String) (slot count : Nat) (inside : List Instr) :
    (Instr.define name (Address.params count) (prologue slot count ++ inside)).Lawful := by
  refine ⟨⟨strict_params count, slot, ?_⟩, ?_⟩
  · rw [Address.params, List.length_map, List.length_range]
    exact List.prefix_append _ _
  · intro address member
    simp [params_storage member]

theorem scratch_lawful {scope : Scope} {code : List Instr} (scratch : ScratchIn scope code) :
    ∀ instr ∈ everywhere code, instr.Lawful := by
  induction code with
  | nil => simp [everywhere]
  | cons instr rest ih =>
    obtain ⟨here, later⟩ := List.forall_mem_cons.mp scratch
    rw [everywhere, List.forall_mem_append]
    refine ⟨?_, ih later⟩
    cases instr with
    | assign dest source =>
      obtain ⟨slot, strict, drawn⟩ := here
      have other : dest.storage ≠ .ret := by rcases slot with slot | slot <;> simp [slot]
      exact List.forall_mem_singleton.mpr (lawful_assign other strict drawn)
    | call | define => cases here

theorem prologue_lawful (slot count : Nat) :
    ∀ instr ∈ everywhere (prologue slot count), instr.Lawful := by
  -- A copy has no body, so that nothing is found deeper in it.
  have flat : ∀ positions : List Nat, everywhere (positions.map fun i =>
      .assign (.var (slot + i)) (.address (.param i))) =
        positions.map fun i => .assign (.var (slot + i)) (.address (.param i)) := by
    intro positions
    induction positions with
    | nil => rfl
    | cons i rest ih => rw [List.map_cons, everywhere, ih, Instr.within, List.singleton_append]
  intro instr member
  rw [prologue, flat] at member
  obtain ⟨i, _, rfl⟩ := List.mem_map.mp member
  refine ⟨trivial, ?_⟩
  simp [Instr.addresses, Value.sources, Address.var, Address.param]

theorem Disciplined.lawful {scope : Scope} {nodes : Program} {code : List Instr}
    (disciplined : Disciplined scope nodes code) : ∀ instr ∈ everywhere code, instr.Lawful := by
  induction disciplined with
  | nil => simp [everywhere]
  | assign ends _ ih =>
    obtain ⟨front, source, rfl, scratch, strict, drawn⟩ := ends
    simp only [everywhere_append, everywhere_single, List.forall_mem_append]
    refine ⟨⟨scratch_lawful scratch, List.forall_mem_singleton.mpr ?_⟩, ih⟩
    exact lawful_assign (by simp [Address.var]) strict drawn
  | call scratch _ ih =>
    simp only [everywhere_append, everywhere_single, List.forall_mem_append]
    exact ⟨⟨scratch_lawful scratch, List.forall_mem_singleton.mpr (lawful_call _ _)⟩, ih⟩
  | define _ _ ihWithin ih =>
    simp only [everywhere_append, everywhere_single, Instr.within, List.forall_mem_append,
      List.forall_mem_cons]
    exact ⟨⟨lawful_define _ _ _ _, prologue_lawful _ _, ihWithin⟩, ih⟩
  | bare _ _ _ ih => exact ih

/-- Lowered code keeps to the discipline, and at every depth of it operators, calls and definitions
have their fixed slots. -/
theorem program_disciplined {scope : Scope} {nodes : Program} {code : List Instr}
    (lowered : program scope nodes = .ok code) :
    Disciplined scope nodes code ∧ ∀ instr ∈ everywhere code, instr.Lawful := by
  obtain ⟨final, done⟩ := program_eq_ok.mp lowered
  have disciplined := block_disciplined nodes done
  exact ⟨disciplined, disciplined.lawful⟩

/-- `b = -(a + f(a, 1))`, `def g(x, x): c = x; h(b, c); def k(): d = c`, `a`, `g(b)` where `a` is
known: the parameters of `g` take slots 2 and 3, though both have one name, and `k` has none. -/
theorem nested_operands_disciplined :
    let scope := Scope.empty.bind "a"
    let sum : Node := .binary "+" (.var "a") (.call "f" [.var "a", .integer "1"])
    let nodes : Program := [.assign (some "b") (.unary "-" sum),
      .define "g" [.var "x", .var "x"] [.assign (some "c") (.var "x"),
        .call "h" [.var "b", .var "c"], .define "k" [] [.assign (some "d") (.var "c")]],
      .var "a", .call "g" [.var "b"]]
    let copy (dest source : Address) : Instr := .assign dest (.address source)
    let code : List Instr := [copy (.temp 0) (.var 0), copy (.param 0) (.var 0),
      .assign (.param 1) (.integer "1"), .assign (.temp 1) (.call "f" [.param 0, .param 1]),
      .assign (.temp 0) (.binary "+" (.temp 0) (.temp 1)),
      .assign (.var 1) (.unary "-" (.temp 0)),
      .define "g" [.param 0, .param 1] [copy (.var 2) (.param 0), copy (.var 3) (.param 1),
        copy (.var 4) (.var 3), copy (.param 0) (.var 1), copy (.param 1) (.var 4),
        .call "h" [.param 0, .param 1], .define "k" [] [copy (.var 5) (.var 4)]],
      copy (.param 0) (.var 1), .call "g" [.param 0]]
    program scope nodes = .ok code ∧ Disciplined scope nodes code ∧
      ∀ instr ∈ everywhere code, instr.Lawful := by
  intro scope sum nodes copy code
  have lowered : program scope nodes = .ok code := rfl
  exact ⟨lowered, program_disciplined lowered⟩

end SnakeFront.Lowering
