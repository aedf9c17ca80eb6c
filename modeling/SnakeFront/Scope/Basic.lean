/-! Scopes: which slot each name has, and the slot the next name will get. A scope is a value, so a
nested scope is a copy, and what is bound in it is lost with it. A scope may have no table at all:
it is read like an empty one, but nothing can be written to it before it is nested. -/
namespace SnakeFront

structure Scope where
  table : Option (List (String × Nat))
  next : Nat

namespace Scope

def empty : Scope := ⟨some [], 0⟩

/-- A scope that was never set up. -/
def unset : Scope := ⟨none, 0⟩

def slots (scope : Scope) : List (String × Nat) := scope.table.getD []

def lookup (scope : Scope) (name : String) : Option Nat := scope.slots.lookup name

def size (scope : Scope) : Nat := scope.slots.length

/-- A copy, with a table even where there was none. -/
def nest (scope : Scope) : Scope where
  table := some (match scope.table with
    | some slots => slots
    | none => [])
  next := scope.next

theorem isSome_nest (scope : Scope) : scope.nest.table.isSome := rfl

/-- Gives `name` the next slot. An earlier slot of the same name is given up, not used again. The
entry is written to the table of a copy, which is there. -/
def bind (scope : Scope) (name : String) : Scope :=
  let slots := scope.nest.table.get scope.isSome_nest
  ⟨some ((name, scope.nest.next) :: slots.filter (·.1 ≠ name)), scope.nest.next + 1⟩

def bindAll (scope : Scope) (names : List String) : Scope := names.foldl bind scope

/-- The slot of `name`, a new one only if it has none, and the scope in which it has that slot. -/
def claim (scope : Scope) (name : String) : Nat × Scope :=
  match scope.lookup name with
  | some slot => (slot, scope)
  | none => (scope.next, scope.bind name)

@[simp] theorem slots_nest (scope : Scope) : scope.nest.slots = scope.slots := by
  obtain ⟨table, next⟩ := scope
  cases table with
  | some slots => rfl
  | none => rfl

@[simp] theorem next_nest (scope : Scope) : scope.nest.next = scope.next := rfl

@[simp] theorem lookup_nest (scope : Scope) (name : String) :
    scope.nest.lookup name = scope.lookup name := by
  rw [lookup, slots_nest, lookup]

@[simp] theorem lookup_empty (name : String) : empty.lookup name = none := rfl

@[simp] theorem next_bind (scope : Scope) (name : String) :
    (scope.bind name).next = scope.next + 1 := rfl

theorem slots_bind (scope : Scope) (name : String) :
    (scope.bind name).slots = (name, scope.next) :: scope.slots.filter (·.1 ≠ name) := by
  rw [← slots_nest scope]
  rfl

@[simp] theorem lookup_bind_self (scope : Scope) (name : String) :
    (scope.bind name).lookup name = some scope.next := by
  simp [lookup, slots_bind]

theorem lookup_filter_of_ne {other name : String} (different : other ≠ name)
    (slots : List (String × Nat)) :
    (slots.filter (·.1 ≠ name)).lookup other = slots.lookup other := by
  induction slots with
  | nil => rfl
  | cons slot rest ih =>
    obtain ⟨key, place⟩ := slot
    by_cases same : key = name
    · have apart : (other == key) = false := by simpa [same] using different
      rw [List.filter_cons_of_neg (by simp [same]), ih, List.lookup_cons, apart]
    · rw [List.filter_cons_of_pos (by simp [same]), List.lookup_cons, List.lookup_cons, ih]

theorem lookup_bind_of_ne {other name : String} (different : other ≠ name) (scope : Scope) :
    (scope.bind name).lookup other = scope.lookup other := by
  have apart : (other == name) = false := by simpa using different
  rw [lookup, slots_bind, List.lookup_cons, apart]
  exact lookup_filter_of_ne different scope.slots

theorem lookup_claim (scope : Scope) (name : String) :
    (scope.claim name).2.lookup name = some (scope.claim name).1 := by
  unfold claim
  split
  · assumption
  · exact lookup_bind_self scope name

end Scope
end SnakeFront
