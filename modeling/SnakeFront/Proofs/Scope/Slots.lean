import Mathlib.Data.Finset.Basic
import Mathlib.Data.Finset.Lattice.Lemmas
import SnakeFront.Scope.Family

/-! Slots of the scopes that can be reached. Two names never share a slot and every slot lies below
the next one, in each scope of a family; binding a name keeps both facts. What a scope binds is also
seen as a set of names, without the slots. -/
namespace SnakeFront.Scope

/-- The scope belongs to some family. -/
def Reachable (scope : Scope) : Prop := ∃ steps, scope ∈ family steps

structure Separated (scope : Scope) : Prop where
  below : ∀ {name slot}, scope.lookup name = some slot → slot < scope.next
  apart : ∀ {name other slot},
    scope.lookup name = some slot → scope.lookup other = some slot → name = other

theorem empty_separated : Separated empty := by
  constructor
  · intro name slot found
    cases found
  · intro name other slot found _
    cases found

theorem unset_separated : Separated unset := by
  constructor
  · intro name slot found
    cases found
  · intro name other slot found _
    cases found

theorem nest_separated {scope : Scope} (separated : scope.Separated) : scope.nest.Separated := by
  constructor
  · intro name slot found
    rw [lookup_nest] at found
    exact separated.below found
  · intro name other slot one two
    rw [lookup_nest] at one two
    exact separated.apart one two

theorem bind_separated {scope : Scope} (separated : scope.Separated) (name : String) :
    (scope.bind name).Separated := by
  have old : ∀ {other slot}, (scope.bind name).lookup other = some slot → other ≠ name →
      slot < scope.next ∧ scope.lookup other = some slot := by
    intro other slot found different
    rw [lookup_bind_of_ne different] at found
    exact ⟨separated.below found, found⟩
  have new : ∀ {slot}, (scope.bind name).lookup name = some slot → slot = scope.next := by
    intro slot found
    rw [lookup_bind_self] at found
    exact (Option.some.inj found).symm
  constructor
  · intro other slot found
    rw [next_bind]
    by_cases same : other = name
    · subst same
      have := new found
      omega
    · have := (old found same).1
      omega
  · intro first second slot one two
    by_cases left : first = name <;> by_cases right : second = name
    · rw [left, right]
    · subst left
      have := new one
      have := (old two right).1
      omega
    · subst right
      have := new two
      have := (old one left).1
      omega
    · exact separated.apart (old one left).2 (old two right).2

theorem claim_separated {scope : Scope} (separated : scope.Separated) (name : String) :
    (scope.claim name).2.Separated := by
  unfold claim
  split
  · exact separated
  · exact bind_separated separated name

theorem lookup_claim_of_ne {other name : String} (different : other ≠ name) (scope : Scope) :
    (scope.claim name).2.lookup other = scope.lookup other := by
  unfold claim
  split
  · rfl
  · exact lookup_bind_of_ne different scope

theorem claim_of_mem {scope : Scope} {name : String} {slot : Nat}
    (found : scope.lookup name = some slot) : scope.claim name = (slot, scope) := by
  rw [claim, found]

theorem claim_of_not_mem {scope : Scope} {name : String} (missing : scope.lookup name = none) :
    scope.claim name = (scope.next, scope.bind name) := by
  rw [claim, missing]

theorem next_le_claim (scope : Scope) (name : String) :
    scope.next ≤ (scope.claim name).2.next := by
  unfold claim
  split
  · exact Nat.le_refl _
  · exact Nat.le_succ _

theorem lookup_behind_claim {scope : Scope} {name other : String} {slot : Nat}
    (found : (scope.claim name).2.lookup other = some slot) :
    scope.lookup other = some slot ∨ slot = scope.next := by
  unfold claim at found
  split at found
  · exact Or.inl found
  · by_cases same : other = name
    · subst same
      rw [lookup_bind_self] at found
      exact Or.inr (Option.some.inj found).symm
    · rw [lookup_bind_of_ne same] at found
      exact Or.inl found

theorem bindAll_separated {scope : Scope} (separated : scope.Separated) (names : List String) :
    (scope.bindAll names).Separated := by
  induction names generalizing scope with
  | nil => exact separated
  | cons name rest ih => exact ih (bind_separated separated name)

theorem next_bindAll (scope : Scope) (names : List String) :
    (scope.bindAll names).next = scope.next + names.length := by
  induction names generalizing scope with
  | nil => rfl
  | cons name rest ih =>
    have shifted : scope.bindAll (name :: rest) = (scope.bind name).bindAll rest := rfl
    rw [shifted, ih, next_bind, List.length_cons]
    omega

theorem bindAll_append (scope : Scope) (front back : List String) :
    scope.bindAll (front ++ back) = (scope.bindAll front).bindAll back :=
  List.foldl_append

theorem lookup_bindAll {scope : Scope} {names : List String} {name : String} {slot : Nat}
    (found : (scope.bindAll names).lookup name = some slot) :
    scope.lookup name = some slot ∨ ∃ i < names.length, slot = scope.next + i := by
  induction names generalizing scope with
  | nil => exact Or.inl found
  | cons first rest ih =>
    have shifted : scope.bindAll (first :: rest) = (scope.bind first).bindAll rest := rfl
    rw [shifted] at found
    rcases ih found with old | ⟨i, below, rfl⟩
    · by_cases same : name = first
      · subst same
        rw [lookup_bind_self] at old
        exact Or.inr ⟨0, by simp, (Option.some.inj old).symm⟩
      · rw [lookup_bind_of_ne same] at old
        exact Or.inl old
    · refine Or.inr ⟨i + 1, by simpa using below, ?_⟩
      rw [next_bind]
      omega

/-- A name that is bound anew gives up the slot it had. -/
theorem next_le_of_rebound {scope : Scope} {names : List String} {name : String} {slot : Nat}
    (member : name ∈ names) (found : (scope.bindAll names).lookup name = some slot) :
    scope.next ≤ slot := by
  induction names generalizing scope with
  | nil => cases member
  | cons first rest ih =>
    have shifted : ((scope.bind first).bindAll rest).lookup name = some slot := found
    rcases List.mem_cons.mp member with rfl | later
    · rcases lookup_bindAll shifted with own | ⟨i, _, rfl⟩
      · rw [lookup_bind_self] at own
        exact Nat.le_of_eq (Option.some.inj own)
      · rw [next_bind]
        omega
    · have := ih later shifted
      rw [next_bind] at this
      omega

theorem step_separated {scopes : List Scope} (known : ∀ scope ∈ scopes, scope.Separated)
    (step : Step) : ∀ scope ∈ step.apply scopes, scope.Separated := by
  intro scope member
  rcases List.mem_append.mp member with old | new
  · exact known scope old
  · rw [Option.mem_toList] at new
    cases step with
    | fresh =>
      cases Option.some.inj new
      exact empty_separated
    | unset =>
      cases Option.some.inj new
      exact unset_separated
    | nest parent =>
      obtain ⟨outer, found, rfl⟩ := Option.map_eq_some_iff.mp new
      exact nest_separated (known outer (List.mem_of_getElem? found))
    | bind parent name =>
      obtain ⟨outer, found, rfl⟩ := Option.map_eq_some_iff.mp new
      exact bind_separated (known outer (List.mem_of_getElem? found)) name

theorem run_separated (steps : List Step) {scopes : List Scope}
    (known : ∀ scope ∈ scopes, scope.Separated) :
    ∀ scope ∈ steps.foldl Step.apply scopes, scope.Separated := by
  induction steps generalizing scopes with
  | nil => exact known
  | cons step rest ih => exact ih (step_separated known step)

theorem Reachable.separated {scope : Scope} (reachable : scope.Reachable) : scope.Separated := by
  obtain ⟨steps, member⟩ := reachable
  exact run_separated steps (by simp) scope member

def names (scope : Scope) : Finset String := (scope.slots.map Prod.fst).toFinset

theorem mem_names {scope : Scope} {name : String} :
    name ∈ scope.names ↔ (scope.lookup name).isSome := by
  simp [names, lookup, List.lookup_isSome_iff]

theorem not_mem_names {scope : Scope} {name : String} :
    name ∉ scope.names ↔ scope.lookup name = none := by
  rw [mem_names, Option.not_isSome_iff_eq_none]

@[simp] theorem names_nest (scope : Scope) : scope.nest.names = scope.names := by
  rw [names, slots_nest, names]

theorem names_bind (scope : Scope) (name : String) :
    (scope.bind name).names = insert name scope.names := by
  ext other
  rw [Finset.mem_insert, mem_names, mem_names]
  by_cases same : other = name
  · subst same
    simp
  · simp [same, lookup_bind_of_ne same]

theorem names_bindAll (scope : Scope) (names : List String) :
    (scope.bindAll names).names = scope.names ∪ names.toFinset := by
  induction names generalizing scope with
  | nil => simp [bindAll]
  | cons name rest ih =>
    have shifted : scope.bindAll (name :: rest) = (scope.bind name).bindAll rest := rfl
    rw [shifted, ih, names_bind, List.toFinset_cons, Finset.insert_union, Finset.union_insert]

theorem names_claim (scope : Scope) (name : String) :
    (scope.claim name).2.names = insert name scope.names := by
  unfold claim
  split
  next slot found =>
    have member : name ∈ scope.names := mem_names.mpr (by simp [found])
    exact (Finset.insert_eq_of_mem member).symm
  next => exact names_bind scope name

end SnakeFront.Scope
