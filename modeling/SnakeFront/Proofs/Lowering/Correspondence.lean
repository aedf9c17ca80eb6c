import Mathlib.Data.Set.Function
import Mathlib.Logic.Equiv.Basic
import SnakeFront.Proofs.Lowering.Cases
import SnakeFront.Proofs.NormalForm.Relocation
import SnakeFront.Proofs.Scope.Slots
import SnakeFront.Proofs.Tree.Renaming

/-! Lowering in two scopes that correspond. Names are exchanged for others and slots for others, and
the two runs go side by side: each step succeeds in both or fails in both. Main statements: new names
for the variables leave the code as it is, and a name that is bound in between and never used only
moves the slots behind it. -/
namespace SnakeFront.Lowering

open NormalForm
open SnakeFront.Tree (Node Program)

namespace Fault

def rename (new : String → String) : Fault → Fault
  | .unbound name => .unbound (new name)
  | .badParameter name params body index found =>
    .badParameter name (Tree.renameAll new params) (Tree.renameAll new body) index (found.rename new)
  | .notExpression found => .notExpression (found.rename new)
  | .badBoolean word => .badBoolean word
  | .strayExpression found => .strayExpression (found.rename new)
  | .strayStatement found => .strayStatement (found.rename new)
  | .noTarget value => .noTarget (value.rename new)

theorem kind_rename (new : String → String) (fault : Fault) :
    (fault.rename new).kind = fault.kind := by
  cases fault <;> rfl

theorem node_rename (new : String → String) (fault : Fault) :
    (fault.rename new).node = fault.node.rename new := by
  cases fault <;> rfl

theorem rename_id (fault : Fault) : fault.rename id = fault := by
  cases fault <;> simp only [rename, Tree.rename_id, Tree.renameAll_id, id_eq]

end Fault

/-- New names and new slots. Of the names that matter, no two get the same new name. -/
structure Translation where
  names : Set String
  rename : String → String
  move : Nat → Nat
  injective : Set.InjOn rename names

/-- The slot of each name, moved, is the slot of the new name. Slots that are still to be given out
stay in a row. -/
structure Corresponds (t : Translation) (one two : Scope) : Prop where
  lookup : ∀ {name}, name ∈ t.names → two.lookup (t.rename name) = (one.lookup name).map t.move
  next : two.next = t.move one.next
  row : ∀ {slot}, one.next ≤ slot → t.move (slot + 1) = t.move slot + 1

namespace Corresponds

variable {t : Translation} {one two : Scope}

theorem bind (same : Corresponds t one two) {name : String} (known : name ∈ t.names) :
    Corresponds t (one.bind name) (two.bind (t.rename name)) := by
  constructor
  · intro other member
    by_cases equal : other = name
    · subst equal
      simp only [Scope.lookup_bind_self, Option.map_some, same.next]
    · have apart : t.rename other ≠ t.rename name := fun clash =>
        equal (t.injective member known clash)
      rw [Scope.lookup_bind_of_ne equal, Scope.lookup_bind_of_ne apart, same.lookup member]
  · simp only [Scope.next_bind, same.next, same.row (Nat.le_refl _)]
  · intro slot above
    exact same.row (Nat.le_of_succ_le above)

theorem nest (same : Corresponds t one two) : Corresponds t one.nest two.nest where
  lookup known := by rw [Scope.lookup_nest, Scope.lookup_nest, same.lookup known]
  next := same.next
  row := same.row

theorem bindAll (same : Corresponds t one two) {names : List String}
    (known : ∀ name ∈ names, name ∈ t.names) :
    Corresponds t (one.bindAll names) (two.bindAll (names.map t.rename)) := by
  induction names generalizing one two with
  | nil => exact same
  | cons name rest ih =>
    exact ih (same.bind (known name (by simp))) fun other member => known other (by simp [member])

theorem claim (same : Corresponds t one two) {name : String} (known : name ∈ t.names) :
    (two.claim (t.rename name)).1 = t.move (one.claim name).1 ∧
      Corresponds t (one.claim name).2 (two.claim (t.rename name)).2 := by
  have slots := same.lookup known
  cases found : one.lookup name with
  | some slot =>
    rw [found, Option.map_some] at slots
    rw [Scope.claim_of_mem found, Scope.claim_of_mem slots]
    exact ⟨rfl, same⟩
  | none =>
    rw [found, Option.map_none] at slots
    rw [Scope.claim_of_not_mem found, Scope.claim_of_not_mem slots]
    exact ⟨same.next, same.bind known⟩

theorem next_add (same : Corresponds t one two) (i : Nat) :
    t.move (one.next + i) = two.next + i := by
  induction i with
  | zero => exact same.next.symm
  | succ i ih =>
    calc
      t.move (one.next + (i + 1)) = t.move (one.next + i) + 1 :=
        same.row (Nat.le_add_right one.next i)
      _ = two.next + (i + 1) := by rw [ih, Nat.add_assoc]

theorem copies (same : Corresponds t one two) (positions : List Nat) :
    relocateAll t.move
        (positions.map fun i => .assign (.var (one.next + i)) (.address (.param i))) =
      positions.map fun i => .assign (.var (two.next + i)) (.address (.param i)) := by
  induction positions with
  | nil => rfl
  | cons i rest ih =>
    simp only [List.map_cons, relocateAll, ih, Instr.relocate, Value.relocate, relocate_var,
      relocate_param, same.next_add]

end Corresponds

/-- Two outcomes that agree: related values, or the same fault under the new names. -/
inductive Agree (t : Translation) {α β : Type} (related : α → β → Prop) :
    Except Fault α → Except Fault β → Prop
  | ok {one : α} {two : β} (values : related one two) : Agree t related (.ok one) (.ok two)
  | error (fault : Fault) : Agree t related (.error fault) (.error (fault.rename t.rename))

namespace Agree

variable {t : Translation} {α β γ δ : Type} {related : α → β → Prop} {later : γ → δ → Prop}
  {one : Except Fault α} {two : Except Fault β}

theorem blame {fault other : Fault} (renamed : other = fault.rename t.rename) :
    Agree t related (.error fault) (.error other) :=
  renamed ▸ .error fault

theorem bind {next : α → Except Fault γ} {other : β → Except Fault δ} (first : Agree t related one two)
    (second : ∀ a b, related a b → Agree t later (next a) (other b)) :
    Agree t later (one >>= next) (two >>= other) := by
  cases first with
  | ok values => exact second _ _ values
  | error fault => exact .error fault

theorem map {f : α → γ} {g : β → δ} (agree : Agree t related one two)
    (kept : ∀ a b, related a b → later (f a) (g b)) : Agree t later (one.map f) (two.map g) := by
  cases agree with
  | ok values => exact .ok (kept _ _ values)
  | error fault => exact .error fault

theorem outcome (agree : Agree t related one two) :
    (∃ a b, one = .ok a ∧ two = .ok b ∧ related a b) ∨
      ∃ fault, one = .error fault ∧ two = .error (fault.rename t.rename) := by
  cases agree with
  | ok values => exact Or.inl ⟨_, _, rfl, rfl, values⟩
  | error fault => exact Or.inr ⟨fault, rfl, rfl⟩

end Agree

section
variable {t : Translation} {one two : Scope}

def Moved (t : Translation) (code moved : List Instr) : Prop := moved = relocateAll t.move code

mutual

/-- Both runs take the same branch at every node. Only at a variable do they ask their scopes, and
there the scopes give slots that correspond, or none. -/
theorem expression_agree (same : Corresponds t one two) (dest : Address) :
    (node : Node) → (∀ name ∈ node.mentions, name ∈ t.names) →
      Agree t (Moved t) (expression one dest node)
        (expression two (dest.relocate t.move) (node.rename t.rename))
  | .text _, _ | .integer _, _ => .ok rfl
  | .define .., _ | .assign .., _ | .unknown, _ | .absent, _ => .error _
  | .boolean word, _ => by
    simp only [expression, Node.rename]
    cases truthValue word with
    | none => exact .error _
    | some digits => exact .ok rfl
  | .var name, known => by
    have slots := same.lookup (known name (by simp [Node.mentions]))
    simp only [expression, Node.rename, slots]
    cases one.lookup name with
    | none => exact .error _
    | some slot => exact .ok rfl
  | .call name args, known => by
    have placed := arguments_agree same 0 args known
    simp only [expression, Node.rename, Tree.length_renameAll]
    refine placed.bind ?_
    rintro setup _ rfl
    exact .ok (by simp [Moved, Instr.relocate, Value.relocate])
  | .binary op left right, known => by
    simp only [Node.mentions, List.forall_mem_append] at known
    have first := expression_agree same (.temp 0) left known.1
    have second := expression_agree same (.temp 1) right known.2
    simp only [expression, Node.rename]
    refine first.bind ?_
    rintro code _ rfl
    refine second.bind ?_
    rintro others _ rfl
    exact .ok (by simp [Moved, Instr.relocate, Value.relocate])
  | .unary op operand, known => by
    have inner := expression_agree same (.temp 0) operand known
    simp only [expression, Node.rename]
    refine inner.bind ?_
    rintro code _ rfl
    exact .ok (by simp [Moved, Instr.relocate, Value.relocate])

theorem arguments_agree (same : Corresponds t one two) (position : Nat) :
    (args : List Node) → (∀ name ∈ Tree.mentionsAll args, name ∈ t.names) →
      Agree t (Moved t) (arguments one position args)
        (arguments two position (Tree.renameAll t.rename args))
  | [], _ => .ok rfl
  | arg :: rest, known => by
    simp only [Tree.mentionsAll, List.forall_mem_append] at known
    have first := expression_agree same (.param position) arg known.1
    have second := arguments_agree same (position + 1) rest known.2
    simp only [arguments, Tree.renameAll]
    refine first.bind ?_
    rintro code _ rfl
    refine second.bind ?_
    rintro others _ rfl
    exact .ok (by simp [Moved])

end

theorem parameterNames_agree (refuse other : Nat → Node → Fault)
    (alike : ∀ index found, other index (found.rename t.rename) = (refuse index found).rename t.rename)
    (index : Nat) {params : List Node} (known : ∀ name ∈ Tree.mentionsAll params, name ∈ t.names) :
    Agree t (fun names renamed => renamed = names.map t.rename ∧ ∀ name ∈ names, name ∈ t.names)
      (parameterNames refuse index params)
      (parameterNames other index (Tree.renameAll t.rename params)) := by
  induction params generalizing index with
  | nil => exact .ok ⟨rfl, by simp⟩
  | cons found rest ih =>
    simp only [Tree.mentionsAll, List.forall_mem_append] at known
    cases found with
    | var name =>
      simp only [parameterNames, Tree.renameAll, Node.rename]
      refine (ih (index + 1) known.2).bind ?_
      rintro names _ ⟨rfl, among⟩
      exact .ok ⟨rfl, List.forall_mem_cons.mpr ⟨known.1 name (by simp [Node.mentions]), among⟩⟩
    | text | boolean | integer | call | binary | unary | define | assign | unknown | absent =>
      exact .blame (alike index _)

def Advanced (t : Translation) (one two : List Instr × Scope) : Prop :=
  Moved t one.1 two.1 ∧ Corresponds t one.2 two.2

mutual

/-- One statement. An assignment gives both scopes the same new name, and the body of a definition
starts from scopes in which the parameters correspond as well. -/
theorem statement_agree {one two : Scope} (same : Corresponds t one two) :
    (node : Node) → (∀ name ∈ node.mentions, name ∈ t.names) →
      Agree t (Advanced t) (statement one node) (statement two (node.rename t.rename))
  | .text _, _ | .boolean _, _ | .integer _, _ | .var _, _ | .binary .., _ | .unary .., _ =>
    .ok ⟨rfl, same⟩
  | .assign none _, _ | .unknown, _ | .absent, _ => .error _
  | .assign (some target) value, known => by
    obtain ⟨slots, inner⟩ := same.claim (known target (by simp [Node.mentions]))
    have lowered := expression_agree inner (.var (one.claim target).1) value
      fun name member => known name (by simp [Node.mentions, member])
    simp only [statement, Node.rename, Option.map_some, slots]
    refine lowered.bind ?_
    rintro code _ rfl
    exact .ok ⟨rfl, inner⟩
  | .call name args, known => by
    have placed := arguments_agree same 0 args known
    simp only [statement, Node.rename, Tree.length_renameAll]
    refine placed.bind ?_
    rintro setup _ rfl
    exact .ok ⟨by simp [Moved, Instr.relocate], same⟩
  | .define name params body, known => by
    simp only [Node.mentions, List.forall_mem_append] at known
    have listed := parameterNames_agree (.badParameter name params body)
      (.badParameter name (Tree.renameAll t.rename params) (Tree.renameAll t.rename body))
      (fun _ _ => rfl) 0 known.1
    simp only [statement, Node.rename]
    refine listed.bind ?_
    rintro names _ ⟨rfl, among⟩
    refine (block_agree (same.nest.bindAll among) body known.2).bind ?_
    rintro ⟨code, _⟩ ⟨_, _⟩ ⟨rfl, _⟩
    refine .ok ⟨?_, same⟩
    simp [Moved, Instr.relocate, prologue, same.copies]

theorem block_agree {one two : Scope} (same : Corresponds t one two) :
    (nodes : Program) → (∀ name ∈ Tree.mentionsAll nodes, name ∈ t.names) →
      Agree t (Advanced t) (block one nodes) (block two (Tree.renameAll t.rename nodes))
  | [], _ => .ok ⟨rfl, same⟩
  | node :: rest, known => by
    simp only [Tree.mentionsAll, List.forall_mem_append] at known
    simp only [block, Tree.renameAll]
    refine (statement_agree same node known.1).bind ?_
    rintro ⟨code, _⟩ ⟨_, _⟩ ⟨rfl, inner⟩
    refine (block_agree inner rest known.2).bind ?_
    rintro ⟨others, _⟩ ⟨_, _⟩ ⟨rfl, outer⟩
    exact .ok ⟨by simp [Moved], outer⟩

end

theorem program_agree (same : Corresponds t one two) {nodes : Program}
    (known : ∀ name ∈ Tree.mentionsAll nodes, name ∈ t.names) :
    Agree t (Moved t) (program one nodes) (program two (Tree.renameAll t.rename nodes)) :=
  (block_agree same nodes known).map fun _ _ advanced => advanced.1

end

def exchange (new : String → String) (injective : Function.Injective new) : Translation :=
  ⟨Set.univ, new, id, injective.injOn⟩

/-- With new names for its variables, no two of them the same, a program has the same code, or a
fault of the same kind that blames the same node under the new names. -/
theorem program_rename {new : String → String} (injective : Function.Injective new)
    (bound : List String) (nodes : Program) :
    let before := program (Scope.empty.bindAll bound) nodes
    let after := program (Scope.empty.bindAll (bound.map new)) (Tree.renameAll new nodes)
    (∀ code, before = .ok code → after = .ok code) ∧
      ∀ fault, before = .error fault → ∃ other, after = .error other ∧
        other.kind = fault.kind ∧ other.node = fault.node.rename new := by
  intro before after
  let t := exchange new injective
  have start : Corresponds t .empty .empty := ⟨fun _ => rfl, rfl, fun _ => rfl⟩
  have agree : Agree t (Moved t) before after :=
    program_agree (start.bindAll fun _ _ => Set.mem_univ _) fun _ _ => Set.mem_univ _
  rcases agree.outcome with ⟨code, _, lowered, again, rfl⟩ | ⟨fault, refused, again⟩
  · have unmoved : after = .ok code := again.trans (congrArg Except.ok (relocateAll_id code))
    simp [lowered, unmoved]
  · have renamed : after = .error (fault.rename new) := again
    simp [refused, renamed, Fault.kind_rename, Fault.node_rename]

/-- `b = a`, `def f(a): a = b; g(a)` where `a` is bound, and the same with `a` and `b` exchanged. A
definition `def h(a, "b"): b = a` behind it is refused, and with the names exchanged it is
`def h(b, "b"): a = b` that is blamed. -/
theorem exchanged_names_share_code :
    let swap := Equiv.swap "a" "b"
    let copy (target source : String) : Node := .assign (some target) (.var source)
    let plain (a b : String) : Program :=
      [copy b a, .define "f" [.var a] [copy a b, .call "g" [.var a]]]
    let wrong (a b : String) : Node := .define "h" [.var a, .text "b"] [copy b a]
    let move (target source : Nat) : Instr := .assign (.var target) (.address (.var source))
    let code : List Instr := [move 1 0, .define "f" [.param 0]
      [.assign (.var 2) (.address (.param 0)), move 2 1,
        .assign (.param 0) (.address (.var 2)), .call "g" [.param 0]]]
    Function.Injective swap ∧
      program (Scope.empty.bindAll ["a"]) (plain "a" "b") = .ok code ∧
      program (Scope.empty.bindAll ["b"]) (plain "b" "a") = .ok code ∧
      ∃ other, program (Scope.empty.bindAll ["b"]) (plain "b" "a" ++ [wrong "b" "a"]) = .error other ∧
        other.kind = .badParameter ∧ other.node = wrong "b" "a" := by
  intro swap copy plain wrong move code
  have injective : Function.Injective swap := swap.injective
  have lowered : program (Scope.empty.bindAll ["a"]) (plain "a" "b") = .ok code := rfl
  exact ⟨injective, lowered, (program_rename injective ["a"] (plain "a" "b")).1 code lowered,
    (program_rename injective ["a"] (plain "a" "b" ++ [wrong "a" "b"])).2 _ rfl⟩

def insertion (first : Nat) (extra : String) : Translation :=
  ⟨{extra}ᶜ, id, makeRoom first, Set.injOn_id _⟩

theorem corresponds_insertion (front : List String) (extra : String) :
    Corresponds (insertion front.length extra) (Scope.empty.bindAll front)
      ((Scope.empty.bindAll front).bind extra) := by
  have next : (Scope.empty.bindAll front).next = front.length := by
    rw [Scope.next_bindAll]
    exact Nat.zero_add _
  constructor
  · intro name different
    have kept := Scope.lookup_bind_of_ne different (Scope.empty.bindAll front)
    cases found : (Scope.empty.bindAll front).lookup name with
    | none => exact kept.trans found
    | some slot =>
      have below := (Scope.bindAll_separated Scope.empty_separated front).below found
      rw [next] at below
      exact (kept.trans found).trans (congrArg some (makeRoom_of_lt below).symm)
  · rw [Scope.next_bind, next]
    exact (makeRoom_of_le (Nat.le_refl _)).symm
  · intro slot above
    rw [next] at above
    exact (makeRoom_of_le (Nat.le_succ_of_le above)).trans
      (congrArg (· + 1) (makeRoom_of_le above).symm)

/-- Where a name is bound in between that is not bound elsewhere and never used, the slots from its
place on move by one. The code is otherwise the same, and so is the fault, if there is one. -/
theorem program_insert {bound : List String} {position : Nat} (within : position ≤ bound.length)
    {extra : String} (unbound : extra ∉ bound) {nodes : Program}
    (unused : extra ∉ Tree.mentionsAll nodes) :
    program (Scope.empty.bindAll (bound.insertIdx position extra)) nodes =
      (program (Scope.empty.bindAll bound) nodes).map (relocateAll (makeRoom position)) := by
  obtain ⟨front, back, rfl, rfl, inserted⟩ := List.exists_of_modifyTailIdx (List.cons extra) within
  have placed : (front ++ back).insertIdx front.length extra = front ++ extra :: back := inserted
  have other : ∀ {names : List String}, extra ∉ names →
      ∀ name ∈ names, name ∈ (insertion front.length extra).names := by
    rintro names absent name member rfl
    exact absent member
  have absent : extra ∉ back := fun member => unbound (List.mem_append_right front member)
  have agree := program_agree ((corresponds_insertion front extra).bindAll (other absent))
    (other unused)
  simp only [insertion, List.map_id, Tree.renameAll_id] at agree
  rw [placed, Scope.bindAll_append, Scope.bindAll_append]
  change program (((Scope.empty.bindAll front).bind extra).bindAll back) nodes = _
  rcases agree.outcome with ⟨code, _, lowered, again, rfl⟩ | ⟨fault, refused, again⟩
  · rw [lowered, again]
    rfl
  · rw [refused, again, Fault.rename_id]
    rfl

/-- `c = b`, then `def f(x): y = x + a`, where `a`, `b` and again `a` are bound: with `z` bound behind
the first of them, each slot but the first is one further. -/
theorem unused_name_moves_slots :
    let nodes : Program := [.assign (some "c") (.var "b"),
      .define "f" [.var "x"] [.assign (some "y") (.binary "+" (.var "x") (.var "a"))]]
    let code (a b c x y : Nat) : List Instr :=
      [.assign (.var c) (.address (.var b)),
        .define "f" [.param 0] [.assign (.var x) (.address (.param 0)),
          .assign (.temp 0) (.address (.var x)), .assign (.temp 1) (.address (.var a)),
          .assign (.var y) (.binary "+" (.temp 0) (.temp 1))]]
    program (Scope.empty.bindAll ["a", "b", "a"]) nodes = .ok (code 2 1 3 4 5) ∧
      program (Scope.empty.bindAll ["a", "z", "b", "a"]) nodes = .ok (code 3 2 4 5 6) := by
  intro nodes code
  have within : 1 ≤ ["a", "b", "a"].length := by decide
  have unbound : "z" ∉ ["a", "b", "a"] := by decide
  have unused : "z" ∉ Tree.mentionsAll nodes := by decide
  exact ⟨rfl, program_insert within unbound unused⟩

end SnakeFront.Lowering
