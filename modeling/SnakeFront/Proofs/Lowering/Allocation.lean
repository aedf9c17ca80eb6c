import Mathlib.Data.List.Forall2
import Mathlib.Data.Finset.Card
import SnakeFront.Proofs.Lowering.Continuation
import SnakeFront.Proofs.Lowering.Targets

/-! How slots are given out. A program takes new slots one after the other, in the order in which it
first assigns its new names, and keeps to them; a body starts from the slot that comes next where it
is defined, with its parameters first. Main statement: this holds at every level of a program, the
program itself and each body in it. -/
namespace SnakeFront.Tree

section
variable {α β : Type} [DecidableEq α] [DecidableEq β]

theorem eraseDups_induction {P : List α → Prop} (nil : P [])
    (cons : ∀ first rest, P (rest.filter fun other => !other == first) → P (first :: rest))
    (list : List α) : P list := by
  induction size : list.length using Nat.strongRecOn generalizing list with
  | ind size ih =>
    subst size
    match list with
    | [] => exact nil
    | first :: rest =>
      have shorter : (rest.filter fun other => !other == first).length < (first :: rest).length :=
        Nat.lt_succ_of_le (List.length_filter_le _ rest)
      exact cons first rest (ih _ shorter _ rfl)

theorem nodup_eraseDups (list : List α) : list.eraseDups.Nodup := by
  induction list using eraseDups_induction with
  | nil => simp
  | cons first rest ih =>
    rw [List.eraseDups_cons, List.nodup_cons, List.mem_eraseDups]
    exact ⟨by simp, ih⟩

theorem eraseDups_of_nodup {list : List α} (different : list.Nodup) : list.eraseDups = list := by
  induction list with
  | nil => rfl
  | cons first rest ih =>
    obtain ⟨unused, others⟩ := List.nodup_cons.mp different
    have same : rest.filter (fun other => !other == first) = rest := by
      rw [List.filter_eq_self]
      intro other member
      have apart : other ≠ first := by
        rintro rfl
        exact unused member
      simpa using apart
    rw [List.eraseDups_cons, same, ih others]

theorem eraseDups_map {f : α → β} {list : List α}
    (apart : ∀ a ∈ list, ∀ b ∈ list, f a = f b → a = b) :
    (list.map f).eraseDups = list.eraseDups.map f := by
  induction list using eraseDups_induction with
  | nil => rfl
  | cons first rest ih =>
    have fewer : (rest.map f).filter (fun other => !other == f first) =
        (rest.filter fun other => !other == first).map f := by
      rw [List.filter_map]
      congr 1
      apply List.filter_congr
      intro other member
      have same : f other = f first ↔ other = first :=
        ⟨apart other (by simp [member]) first (by simp), congrArg f⟩
      simp [same]
    rw [List.map_cons, List.eraseDups_cons, List.eraseDups_cons, List.map_cons, fewer, ih]
    intro a memberA b memberB
    have inRest := fun c (member : c ∈ rest.filter fun other => !other == first) =>
      List.mem_cons_of_mem first (List.mem_of_mem_filter member)
    exact apart a (inRest a memberA) b (inRest b memberB)

end

variable {bound : Finset String} {nodes : Program} {name : String}

theorem introduced_nodup (bound : Finset String) (nodes : Program) :
    (introduced bound nodes).Nodup :=
  nodup_eraseDups _

theorem mem_introduced : name ∈ introduced bound nodes ↔ name ∈ assigned nodes ∧ name ∉ bound := by
  simp [introduced, List.mem_eraseDups]

theorem length_introduced (bound : Finset String) (nodes : Program) :
    (introduced bound nodes).length = ((assigned nodes).toFinset \ bound).card := by
  rw [← List.toFinset_card_of_nodup (introduced_nodup bound nodes)]
  congr 1
  ext name
  simp [mem_introduced]

/-- Induction over programs by the bodies of their definitions. -/
theorem body_induction {P : Program → Prop}
    (level : ∀ nodes, (∀ name params body, .define name params body ∈ nodes → P body) → P nodes)
    (nodes : Program) : P nodes :=
  level nodes fun name params body member =>
    have : sizeOf body < sizeOf nodes := by
      have smaller := List.sizeOf_lt_of_mem member
      simp only [Node.define.sizeOf_spec] at smaller
      omega
    body_induction level body
termination_by sizeOf nodes

end SnakeFront.Tree

namespace SnakeFront.Scope

theorem lookup_bindAll_of_not_mem {names : List String} {name : String} (other : name ∉ names)
    (scope : Scope) : (scope.bindAll names).lookup name = scope.lookup name := by
  induction names generalizing scope with
  | nil => rfl
  | cons first rest ih =>
    rw [List.mem_cons, not_or] at other
    exact (ih other.2 _).trans (lookup_bind_of_ne other.1 scope)

theorem lookup_bindAll_row {names : List String} (different : names.Nodup) (scope : Scope) :
    names.map (scope.bindAll names).lookup =
      (List.range' scope.next names.length).map some := by
  induction names generalizing scope with
  | nil => rfl
  | cons name rest ih =>
    obtain ⟨unused, others⟩ := List.nodup_cons.mp different
    have shifted : scope.bindAll (name :: rest) = (scope.bind name).bindAll rest := rfl
    rw [shifted, List.map_cons, lookup_bindAll_of_not_mem unused, lookup_bind_self, ih others,
      next_bind, List.length_cons, List.range'_succ, List.map_cons]

end SnakeFront.Scope

namespace SnakeFront.NormalForm

def Address.isSlotFrom (base : Nat) (address : Address) : Bool :=
  address.storage = .var && base ≤ address.index

theorem Address.isSlotFrom_iff {base : Nat} {address : Address} :
    address.isSlotFrom base = true ↔ address.storage = .var ∧ base ≤ address.index := by
  simp [isSlotFrom]

/-- The variable slots from `base` on are first assigned to in their order, without a gap. Bodies of
definitions are not looked into. -/
def TakesInOrder (base count : Nat) (code : List Instr) : Prop :=
  ((targets code).filter (·.isSlotFrom base)).eraseDups = (List.range' base count).map .var

def Instr.IsQuiet : Instr → Prop
  | .assign dest _ => dest.storage ≠ .var
  | .call .. => True
  | .define .. => False

def Quiet (code : List Instr) : Prop := ∀ instr ∈ code, instr.IsQuiet

theorem quiet_append {first second : List Instr} :
    Quiet (first ++ second) ↔ Quiet first ∧ Quiet second :=
  List.forall_mem_append

theorem quiet_nil : Quiet [] := by simp [Quiet]

theorem quiet_single {instr : Instr} : Quiet [instr] ↔ instr.IsQuiet := by simp [Quiet]

theorem Quiet.slots_eq_nil {code : List Instr} (quiet : Quiet code) :
    (targets code).filter (·.storage = .var) = [] := by
  rw [List.filter_eq_nil_iff]
  intro address member
  obtain ⟨instr, present, same⟩ := List.mem_filterMap.mp member
  cases instr with
  | assign dest source =>
    cases same
    simpa [Instr.IsQuiet] using quiet _ present
  | call name args => cases same
  | define name params body => cases same

end SnakeFront.NormalForm

namespace SnakeFront.Lowering

open NormalForm
open SnakeFront.Tree (Node Program)

/-- What the code of a statement does at the level of the statement: an assignment ends by writing
the slot of its target and writes no other, a definition is one instruction, and any other statement
writes no variable. -/
def Allots (slotOf : String → Nat) : Node → List Instr → Prop
  | .assign (some target) _, code => ∃ front source,
      code = front ++ [.assign (.var (slotOf target)) source] ∧ Quiet front
  | .define name params _, code => ∃ inside,
      code = [.define name (Address.params params.length) inside]
  | _, code => Quiet code

/-- How one level of a program gives out slots, and every level inside it. The level has `count`
parameters, which take the slots from `base` on, and starts with the names in `known`. Each name
that it assigns has one slot of its own, and behind the parameters the new slots are taken in order,
one for each name that was not known. A body starts from the next slot and the names at its
definition, with its parameters among them. -/
inductive Allocated : Finset String → Nat → Nat → Program → List Instr → Prop where
  | level {known : Finset String} {base count : Nat} {nodes : Program} {code : List Instr}
      (pieces : List (List Instr)) (slotOf : String → Nat)
      (parts : code = prologue base count ++ pieces.flatten)
      (statements : List.Forall₂ (Allots slotOf) nodes pieces)
      (apart : ∀ name ∈ Tree.assigned nodes, ∀ other ∈ Tree.assigned nodes,
        slotOf name = slotOf other → name = other)
      (order : TakesInOrder base (count + ((Tree.assigned nodes).toFinset \ known).card) code)
      (bodies : ∀ (i : Nat) (name : String) (params : List String) (body : Program)
        (inside : List Instr), nodes[i]? = some (.define name (params.map .var) body) →
        pieces[i]? = some [.define name (Address.params params.length) inside] →
        Allocated (known ∪ (Tree.assigned (nodes.take i)).toFinset ∪ params.toFinset)
          (base + count + ((Tree.assigned (nodes.take i)).toFinset \ known).card)
          params.length body inside) :
      Allocated known base count nodes code

theorem quiet_of_ends {dest : Address} {code : List Instr} (other : dest.storage ≠ .var)
    (ends : ∃ front source, code = front ++ [.assign dest source] ∧ Quiet front) : Quiet code := by
  obtain ⟨front, source, rfl, quiet⟩ := ends
  exact quiet_append.mpr ⟨quiet, quiet_single.mpr other⟩

/-- The code of an expression writes a variable in its last instruction at most, and there its
destination. -/
theorem lowered_ends (scope : Scope) :
    (∀ dest node code, expression scope dest node = .ok code →
      ∃ front source, code = front ++ [.assign dest source] ∧ Quiet front) ∧
    ∀ position args code, arguments scope position args = .ok code → Quiet code := by
  apply lowered_induction
  case text | integer =>
    intro dest _
    exact ⟨[], _, rfl, quiet_nil⟩
  case boolean | var =>
    intro dest _ _ _
    exact ⟨[], _, rfl, quiet_nil⟩
  case call =>
    intro dest name args setup _ ih
    exact ⟨setup, _, rfl, ih⟩
  case binary =>
    intro dest op left right first second _ _ ihLeft ihRight
    have one := quiet_of_ends (by decide) ihLeft
    have two := quiet_of_ends (by decide) ihRight
    exact ⟨first ++ second, _, rfl, quiet_append.mpr ⟨one, two⟩⟩
  case unary =>
    intro dest op operand inner _ ih
    exact ⟨inner, _, rfl, quiet_of_ends (by decide) ih⟩
  case nil =>
    intro position
    exact quiet_nil
  case cons =>
    intro position arg rest first others _ _ ihArg ihRest
    have one := quiet_of_ends (by simp [Address.param]) ihArg
    exact quiet_append.mpr ⟨one, ihRest⟩

section
variable {scope inner final : Scope} {node : Node} {nodes : Program} {code : List Instr}
  {slotOf : String → Nat}

theorem statement_allots (lowered : statement scope node = .ok (code, inner))
    (places : ∀ name slot, inner.lookup name = some slot → slotOf name = slot) :
    Allots slotOf node code := by
  cases node with
  | assign target value =>
    cases target with
    | none => cases lowered
    | some target =>
      obtain ⟨done, rfl⟩ := statement_assign_eq_ok.mp lowered
      rw [← places target _ (Scope.lookup_claim scope target)] at done
      exact (lowered_ends _).1 _ _ _ done
  | call name args =>
    obtain ⟨setup, placed, rfl, _⟩ := statement_call_eq_ok.mp lowered
    exact quiet_append.mpr ⟨(lowered_ends scope).2 _ _ _ placed, quiet_single.mpr trivial⟩
  | define name params body =>
    obtain ⟨names, listed, inside, _, rfl, _⟩ := statement_define_eq_ok.mp lowered
    rw [parameterNames_eq_ok listed]
    exact ⟨_, by rw [List.length_map]⟩
  | text | boolean | integer | var | binary | unary =>
    cases lowered
    exact quiet_nil
  | unknown | absent => cases lowered

/-- A block statement by statement: the code of each, lowered from the scope that the statements in
front of it leave. -/
theorem block_pieces (lowered : block scope nodes = .ok (code, final)) :
    ∃ pieces : List (List Instr), code = pieces.flatten ∧ pieces.length = nodes.length ∧
      ∀ i node piece, nodes[i]? = some node → pieces[i]? = some piece →
        ∃ front before after others, block scope (nodes.take i) = .ok (front, before) ∧
          statement before node = .ok (piece, after) ∧
          block after (nodes.drop (i + 1)) = .ok (others, final) := by
  induction nodes generalizing scope code with
  | nil =>
    cases lowered
    exact ⟨[], rfl, rfl, by simp⟩
  | cons node rest ih =>
    obtain ⟨first, inner, one, others, remaining, rfl⟩ := block_cons_eq_ok.mp lowered
    obtain ⟨pieces, rfl, same, each⟩ := ih remaining
    refine ⟨first :: pieces, rfl, by simp [same], ?_⟩
    rintro (_ | i) found piece here there
    · cases here
      cases there
      exact ⟨[], scope, inner, pieces.flatten, rfl, one, remaining⟩
    · obtain ⟨front, before, after, others, earlier, this, later⟩ := each i found piece here there
      exact ⟨first ++ front, before, after, others,
        block_cons_eq_ok.mpr ⟨first, inner, one, front, earlier, rfl⟩, this, later⟩

theorem lookup_behind_block (lowered : block scope nodes = .ok (code, final)) {name : String}
    {slot : Nat} (found : scope.lookup name = some slot) : final.lookup name = some slot := by
  have known : name ∈ scope.names := Scope.mem_names.mpr (by simp [found])
  have old : name ∉ Tree.introduced scope.names nodes :=
    fun new => (Tree.mem_introduced.mp new).2 known
  rw [block_scope lowered, Scope.lookup_bindAll_of_not_mem old, found]

theorem Allots.slots_eq (allots : Allots slotOf node code) :
    (targets code).filter (·.storage = .var) =
      node.target?.toList.map fun name => .var (slotOf name) := by
  cases node with
  | assign target value =>
    cases target with
    | none => exact Quiet.slots_eq_nil allots
    | some target =>
      obtain ⟨front, source, rfl, quiet⟩ := allots
      rw [targets_append, List.filter_append, quiet.slots_eq_nil]
      rfl
  | define name params body =>
    obtain ⟨inside, rfl⟩ := allots
    rfl
  | text | boolean | integer | var | call | binary | unary | unknown | absent =>
    exact Quiet.slots_eq_nil allots

/-- The variables that a level writes are the slots of the names it assigns, one after the other. -/
theorem slots_of_allots {pieces : List (List Instr)}
    (statements : List.Forall₂ (Allots slotOf) nodes pieces) :
    (targets pieces.flatten).filter (·.storage = .var) =
      (Tree.assigned nodes).map fun name => .var (slotOf name) := by
  induction statements with
  | nil => rfl
  | cons here _ ih =>
    rw [List.flatten_cons, targets_append, List.filter_append, here.slots_eq, ih,
      Tree.assigned_cons, List.map_append]

/-- New slots in order, if the known names of a level have slots below them and its new names have
the next ones. -/
theorem takes_in_order {pieces : List (List Instr)} {base : Nat} {known : Finset String}
    (statements : List.Forall₂ (Allots slotOf) nodes pieces)
    (apart : ∀ name ∈ Tree.assigned nodes, ∀ other ∈ Tree.assigned nodes,
      slotOf name = slotOf other → name = other)
    (old : ∀ name ∈ Tree.assigned nodes, name ∈ known → slotOf name < base)
    (new : (Tree.introduced known nodes).map slotOf =
      List.range' base (Tree.introduced known nodes).length) :
    TakesInOrder base (Tree.introduced known nodes).length pieces.flatten := by
  have above : ∀ name ∈ Tree.assigned nodes, (base ≤ slotOf name ↔ name ∉ known) := by
    intro name member
    constructor
    · intro high bound
      have := old name member bound
      omega
    · intro fresh
      have listed : slotOf name ∈ (Tree.introduced known nodes).map slotOf :=
        List.mem_map_of_mem (Tree.mem_introduced.mpr ⟨member, fresh⟩)
      rw [new] at listed
      exact (List.mem_range'_1.mp listed).1
  have written : (targets pieces.flatten).filter (·.isSlotFrom base) =
      ((Tree.assigned nodes).filter (· ∉ known)).map fun name => .var (slotOf name) := by
    have twice : (targets pieces.flatten).filter (·.isSlotFrom base) =
        ((targets pieces.flatten).filter (·.storage = .var)).filter ((base : Int) ≤ ·.index) := by
      rw [List.filter_filter]
      apply List.filter_congr
      intro address _
      exact Bool.and_comm _ _
    rw [twice, slots_of_allots statements, List.filter_map]
    congr 1
    apply List.filter_congr
    intro name member
    simp [Address.var, ← above name member]
  have injective : ∀ name ∈ (Tree.assigned nodes).filter (· ∉ known),
      ∀ other ∈ (Tree.assigned nodes).filter (· ∉ known),
        Address.var (slotOf name) = .var (slotOf other) → name = other := by
    intro name one other two same
    exact apart name (List.mem_of_mem_filter one) other (List.mem_of_mem_filter two)
      (Address.var_inj.mp same)
  calc ((targets pieces.flatten).filter (·.isSlotFrom base)).eraseDups
      = (Tree.introduced known nodes).map fun name => .var (slotOf name) := by
        rw [written, Tree.eraseDups_map injective, Tree.introduced]
    _ = ((Tree.introduced known nodes).map slotOf).map .var := by
        rw [List.map_map]
        rfl
    _ = (List.range' base (Tree.introduced known nodes).length).map .var := by rw [new]

end

theorem targets_prologue (base count : Nat) :
    targets (prologue base count) = (List.range' base count).map .var := by
  have shifted : List.range' base count = (List.range count).map (base + ·) := by
    rw [List.range_eq_range', List.map_add_range', Nat.add_zero]
  rw [shifted, targets, prologue, List.filterMap_map, List.map_map]
  exact congrFun (@List.filterMap_eq_map _ _ fun i => Address.var (base + i)) (List.range count)

theorem isSlotFrom_behind_row (base count : Nat) (address : Address) :
    address.isSlotFrom (base + count) = true ↔
      address ∉ (List.range' base count).map .var ∧ address.isSlotFrom base = true := by
  obtain ⟨storage, index⟩ := address
  simp only [Address.isSlotFrom_iff, List.mem_map, List.mem_range'_1]
  constructor
  · rintro ⟨slot, beyond⟩
    refine ⟨?_, slot, by omega⟩
    rintro ⟨place, row, same⟩
    cases same
    omega
  · rintro ⟨outside, rfl, above⟩
    refine ⟨rfl, Int.not_lt.mp fun below => ?_⟩
    have place : ((index.toNat : Nat) : Int) = index := Int.toNat_of_nonneg (by omega)
    exact outside ⟨index.toNat, by omega, by rw [Address.var, place]⟩

theorem nodup_row (base count : Nat) : ((List.range' base count).map Address.var).Nodup := by
  refine (List.nodup_map_iff ?_).mpr List.nodup_range'
  intro slot other same
  exact Address.var_inj.mp same

theorem takes_in_order_prologue {base count more : Nat} {code : List Instr}
    (behind : TakesInOrder (base + count) more code) :
    TakesInOrder base (count + more) (prologue base count ++ code) := by
  have whole : ((List.range' base count).map Address.var).filter (·.isSlotFrom base) =
      (List.range' base count).map .var := by
    rw [List.filter_eq_self]
    intro address member
    obtain ⟨slot, row, rfl⟩ := List.mem_map.mp member
    have := (List.mem_range'_1.mp row).1
    simpa [Address.isSlotFrom, Address.var] using this
  have rest : ((targets code).filter (·.isSlotFrom base)).removeAll
      ((List.range' base count).map .var) =
        (targets code).filter (·.isSlotFrom (base + count)) := by
    rw [List.removeAll, List.filter_filter]
    apply List.filter_congr
    intro address _
    rw [Bool.eq_iff_iff, isSlotFrom_behind_row]
    simp
  rw [TakesInOrder, targets_append, targets_prologue, List.filter_append, whole,
    List.eraseDups_append, Tree.eraseDups_of_nodup (nodup_row base count), rest, behind,
    ← List.map_append, List.range'_append_1]

def slotIn (scope : Scope) (name : String) : Nat := (scope.lookup name).getD 0

section
variable {scope final : Scope} {nodes : Program} {code : List Instr}

theorem slotIn_of_lookup {name : String} {slot : Nat} (found : scope.lookup name = some slot) :
    slotIn scope name = slot := by
  rw [slotIn, found]
  rfl

theorem exists_slot (lowered : block scope nodes = .ok (code, final)) {name : String}
    (member : name ∈ Tree.assigned nodes) : ∃ slot, final.lookup name = some slot := by
  have bound : name ∈ final.names := by
    rw [block_scope lowered, Scope.names_bindAll, Finset.mem_union, List.mem_toFinset,
      Tree.mem_introduced]
    tauto
  exact Option.isSome_iff_exists.mp (Scope.mem_names.mp bound)

theorem slotIn_apart (separated : scope.Separated)
    (lowered : block scope nodes = .ok (code, final)) :
    ∀ name ∈ Tree.assigned nodes, ∀ other ∈ Tree.assigned nodes,
      slotIn final name = slotIn final other → name = other := by
  intro name one other two same
  have separatedFinal : final.Separated := by
    rw [block_scope lowered]
    exact Scope.bindAll_separated separated _
  obtain ⟨slot, found⟩ := exists_slot lowered one
  obtain ⟨place, foundToo⟩ := exists_slot lowered two
  rw [slotIn_of_lookup found, slotIn_of_lookup foundToo] at same
  subst same
  exact separatedFinal.apart found foundToo

theorem slotIn_introduced (lowered : block scope nodes = .ok (code, final)) :
    (Tree.introduced scope.names nodes).map (slotIn final) =
      List.range' scope.next (Tree.introduced scope.names nodes).length := by
  have row := Scope.lookup_bindAll_row (Tree.introduced_nodup scope.names nodes) scope
  rw [← block_scope lowered] at row
  have shown := congrArg (List.map fun found : Option Nat => found.getD 0) row
  rw [List.map_map, List.map_map] at shown
  exact shown.trans (List.map_id _)

theorem names_behind_block (lowered : block scope nodes = .ok (code, final)) :
    final.names = scope.names ∪ (Tree.assigned nodes).toFinset ∧
      final.next = scope.next + ((Tree.assigned nodes).toFinset \ scope.names).card := by
  rw [block_scope lowered, Scope.names_bindAll, Scope.next_bindAll, Tree.length_introduced]
  refine ⟨?_, rfl⟩
  ext name
  simp only [Finset.mem_union, List.mem_toFinset, Tree.mem_introduced]
  tauto

end

/-- A block with the names of its parameters bound in front of it. -/
theorem block_allocated (nodes : Program) {scope final : Scope} {names : List String}
    {code : List Instr} (separated : scope.Separated)
    (lowered : block (scope.bindAll names) nodes = .ok (code, final)) :
    Allocated (scope.bindAll names).names scope.next names.length nodes
      (prologue scope.next names.length ++ code) := by
  -- The induction is over the bodies of the definitions in it; each starts from the scope that the
  -- statements in front of it leave.
  induction nodes using Tree.body_induction generalizing scope final names code with
  | level nodes ih =>
    have inner := Scope.bindAll_separated separated names
    have start := Scope.next_bindAll scope names
    obtain ⟨pieces, rfl, same, each⟩ := block_pieces lowered
    have statements : List.Forall₂ (Allots (slotIn final)) nodes pieces := by
      rw [List.forall₂_iff_get]
      refine ⟨same.symm, fun i one two => ?_⟩
      obtain ⟨_, _, after, _, _, this, later⟩ :=
        each i _ _ (List.getElem?_eq_getElem one) (List.getElem?_eq_getElem two)
      exact statement_allots this fun name slot found =>
        slotIn_of_lookup (lookup_behind_block later found)
    have apart := slotIn_apart inner lowered
    have old : ∀ name ∈ Tree.assigned nodes, name ∈ (scope.bindAll names).names →
        slotIn final name < scope.next + names.length := by
      intro name _ bound
      obtain ⟨slot, found⟩ := Option.isSome_iff_exists.mp (Scope.mem_names.mp bound)
      rw [slotIn_of_lookup (lookup_behind_block lowered found), ← start]
      exact inner.below found
    have new := slotIn_introduced lowered
    rw [start] at new
    have order := takes_in_order_prologue (takes_in_order statements apart old new)
    rw [Tree.length_introduced] at order
    refine .level pieces (slotIn final) rfl statements apart order ?_
    intro i name params body inside here there
    obtain ⟨front, before, _, _, earlier, this, _⟩ := each i _ _ here there
    obtain ⟨listed, known, ⟨inside, _⟩, done, code, _⟩ := statement_define_eq_ok.mp this
    have params_eq : params = listed :=
      List.map_injective_iff.mpr (fun _ _ => Node.var.inj) (parameterNames_eq_ok known)
    subst params_eq
    cases code
    obtain ⟨names_eq, next_eq⟩ := names_behind_block earlier
    have separatedBefore : before.Separated := by
      rw [block_scope earlier]
      exact Scope.bindAll_separated inner _
    have deeper := ih name _ body (List.mem_of_getElem? here) (Scope.nest_separated separatedBefore)
      done
    rw [Scope.names_bindAll, Scope.names_nest, names_eq, Scope.next_nest, next_eq, start] at deeper
    rw [next_eq, start]
    exact deeper

/-- A program takes its new slots in order and keeps to them, and so does every body in it. -/
theorem program_allocated {scope : Scope} (reachable : scope.Reachable) {nodes : Program}
    {code : List Instr} (lowered : program scope nodes = .ok code) :
    Allocated scope.names scope.next 0 nodes code := by
  obtain ⟨final, done⟩ := program_eq_ok.mp lowered
  exact @block_allocated nodes scope final [] code reachable.separated done

/-- `b = a`, `a = b`, `def f(x, b, x): y = x; a = y; def g(): z = b; b = a`, `c = b`, `b = c` where
`a` is known: `f` is defined when slot 2 comes next, and so `c` takes slot 2 behind it. -/
theorem repeated_parameters_take_slots :
    let scope := Scope.empty.bind "a"
    let copy (target source : String) : Node := .assign (some target) (.var source)
    let nodes : Program := [copy "b" "a", copy "a" "b",
      .define "f" [.var "x", .var "b", .var "x"]
        [copy "y" "x", copy "a" "y", .define "g" [] [copy "z" "b"], copy "b" "a"],
      copy "c" "b", copy "b" "c"]
    let move (target source : Nat) : Instr := .assign (.var target) (.address (.var source))
    let code : List Instr := [move 1 0, move 0 1,
      .define "f" (Address.params 3) (prologue 2 3 ++
        [move 5 4, move 0 5, .define "g" [] [move 6 3], move 3 0]),
      move 2 1, move 1 2]
    program scope nodes = .ok code ∧ Allocated scope.names 1 0 nodes code := by
  intro scope copy nodes move code
  have reachable : scope.Reachable :=
    ⟨[.fresh, .bind 0 "a"], by simp [scope, Scope.family, Scope.Step.apply, Scope.Step.result]⟩
  have lowered : program scope nodes = .ok code := rfl
  exact ⟨lowered, program_allocated reachable lowered⟩

end SnakeFront.Lowering
