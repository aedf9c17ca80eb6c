import SnakeFront.NormalForm.Basic

/-! Code with its variables in other slots. Only the slots of variables move, wherever they are read
or written, also in the bodies of definitions; every other address stays. -/
namespace SnakeFront.NormalForm

def Address.relocate (move : Nat → Nat) : Address → Address
  | ⟨.var, .ofNat slot⟩ => .var (move slot)
  | address => address

def Value.relocate (move : Nat → Nat) : Value → Value
  | .address source => .address (source.relocate move)
  | .text value => .text value
  | .integer digits => .integer digits
  | .binary op left right => .binary op (left.relocate move) (right.relocate move)
  | .unary op operand => .unary op (operand.relocate move)
  | .call name args => .call name (args.map (Address.relocate move))
  | .absent => .absent

mutual

def Instr.relocate (move : Nat → Nat) : Instr → Instr
  | .assign dest source => .assign (dest.relocate move) (source.relocate move)
  | .call name args => .call name (args.map (Address.relocate move))
  | .define name params body =>
    .define name (params.map (Address.relocate move)) (relocateAll move body)

def relocateAll (move : Nat → Nat) : List Instr → List Instr
  | [] => []
  | instr :: rest => instr.relocate move :: relocateAll move rest

end

section
variable (move : Nat → Nat)

@[simp] theorem relocate_var (slot : Nat) : (Address.var slot).relocate move = .var (move slot) := rfl

@[simp] theorem relocate_param (position : Nat) :
    (Address.param position).relocate move = .param position := rfl

@[simp] theorem relocate_temp (slot : Nat) : (Address.temp slot).relocate move = .temp slot := rfl

@[simp] theorem relocate_params (count : Nat) :
    (Address.params count).map (Address.relocate move) = Address.params count := by
  rw [Address.params, List.map_map]
  rfl

@[simp] theorem relocateAll_append (first second : List Instr) :
    relocateAll move (first ++ second) = relocateAll move first ++ relocateAll move second := by
  induction first with
  | nil => rfl
  | cons instr rest ih => simp only [List.cons_append, relocateAll, ih]

@[simp] theorem relocateAll_singleton (instr : Instr) :
    relocateAll move [instr] = [instr.relocate move] := rfl

end

theorem Address.relocate_id (address : Address) : address.relocate id = address := by
  unfold relocate
  split
  · rfl
  · rfl

theorem map_relocate_id (addresses : List Address) :
    addresses.map (Address.relocate id) = addresses := by
  induction addresses with
  | nil => rfl
  | cons address rest ih => simp only [List.map_cons, Address.relocate_id, ih]

theorem Value.relocate_id (value : Value) : value.relocate id = value := by
  cases value with
  | text | integer | absent => rfl
  | address source => simp only [relocate, Address.relocate_id]
  | binary op left right => simp only [relocate, Address.relocate_id]
  | unary op operand => simp only [relocate, Address.relocate_id]
  | call name args => simp only [relocate, map_relocate_id]

mutual

theorem Instr.relocate_id : (instr : Instr) → instr.relocate id = instr
  | .assign dest source => by
    simp only [Instr.relocate, Address.relocate_id, Value.relocate_id]
  | .call name args => by simp only [Instr.relocate, map_relocate_id]
  | .define name params body => by
    simp only [Instr.relocate, map_relocate_id, relocateAll_id body]

theorem relocateAll_id : (code : List Instr) → relocateAll id code = code
  | [] => rfl
  | instr :: rest => by simp only [relocateAll, Instr.relocate_id instr, relocateAll_id rest]

end

def makeRoom (first slot : Nat) : Nat := if first ≤ slot then slot + 1 else slot

section
variable {first slot : Nat}

theorem makeRoom_of_lt (below : slot < first) : makeRoom first slot = slot :=
  if_neg (Nat.not_le_of_gt below)

theorem makeRoom_of_le (above : first ≤ slot) : makeRoom first slot = slot + 1 := if_pos above

end

end SnakeFront.NormalForm
