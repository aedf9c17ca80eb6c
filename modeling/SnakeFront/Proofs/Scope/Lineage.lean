import Mathlib.Data.Finset.Card
import Mathlib.Data.List.Forall2
import SnakeFront.Proofs.Scope.Slots

/-! Scopes seen through their lineage: the names that were bound on the way to a scope, the oldest
first. Main statement: in every family of scopes, however it branches, each scope shows of its
lineage the number of names, for each name the place where it was bound last, and the number of
different names. -/
namespace SnakeFront.Scope

def Step.lineage (known : List (List String)) : Step → Option (List String)
  | fresh | unset => some []
  | nest parent => known[parent]?
  | bind parent name => known[parent]?.map (· ++ [name])

def Step.extend (known : List (List String)) (step : Step) : List (List String) :=
  known ++ (step.lineage known).toList

/-- The lineages of the scopes of a family, in the same order. -/
def lineages (steps : List Step) : List (List String) := steps.foldl Step.extend []

-- Two scopes that differ only in what was bound last, and one nested in the first of them.
example : lineages [.unset, .bind 0 "a", .bind 1 "b", .bind 1 "a", .nest 2, .bind 9 "c"] =
    [[], ["a"], ["a", "b"], ["a", "a"], ["a", "b"]] := rfl

/-- What a scope shows of the names that were bound on the way to it. -/
structure Records (scope : Scope) (lineage : List String) : Prop where
  next_eq : scope.next = lineage.length
  lookup_iff : ∀ name slot, scope.lookup name = some slot ↔
    lineage[slot]? = some name ∧ name ∉ lineage.drop (slot + 1)
  missing_iff : ∀ name, scope.lookup name = none ↔ name ∉ lineage
  size_eq : scope.size = lineage.toFinset.card

/-- The last place of a name in a longer lineage: the new place for the new name, and for any other
name the place it had. -/
theorem last_place_append (lineage : List String) (last name : String) (slot : Nat) :
    ((lineage ++ [last])[slot]? = some name ∧ name ∉ (lineage ++ [last]).drop (slot + 1)) ↔
      if name = last then slot = lineage.length
      else lineage[slot]? = some name ∧ name ∉ lineage.drop (slot + 1) := by
  rcases Nat.lt_trichotomy slot lineage.length with before | here | beyond
  · have later : (lineage ++ [last]).drop (slot + 1) = lineage.drop (slot + 1) ++ [last] :=
      List.drop_append_of_le_length before
    rw [List.getElem?_append_left before, later]
    by_cases same : name = last
    · simp [same, Nat.ne_of_lt before]
    · simp [same]
  · subst here
    by_cases same : name = last
    · simp [same]
    · simp [same, Ne.symm same]
  · have missing : (lineage ++ [last])[slot]? = none := by
      simpa using Nat.succ_le_of_lt beyond
    have missingBefore : lineage[slot]? = none := by
      simpa using Nat.le_of_lt beyond
    simp [missing, missingBefore, Nat.ne_of_gt beyond]

def Keyed (scope : Scope) : Prop := (scope.slots.map Prod.fst).Nodup

theorem Keyed.size_eq {scope : Scope} (keyed : scope.Keyed) : scope.size = scope.names.card := by
  rw [names, List.toFinset_card_of_nodup keyed, List.length_map, size]

theorem nest_keyed {scope : Scope} (keyed : scope.Keyed) : scope.nest.Keyed := by
  rw [Keyed, slots_nest]
  exact keyed

theorem bind_keyed {scope : Scope} (keyed : scope.Keyed) (name : String) :
    (scope.bind name).Keyed := by
  have others : ((scope.slots.filter (·.1 ≠ name)).map Prod.fst).Nodup :=
    (List.filter_sublist.map Prod.fst).nodup keyed
  rw [Keyed, slots_bind, List.map_cons]
  refine List.nodup_cons.mpr ⟨?_, others⟩
  simp

namespace Records

variable {scope : Scope} {lineage : List String}

theorem separated (records : scope.Records lineage) : scope.Separated := by
  constructor
  · intro name slot found
    obtain ⟨place, _⟩ := (records.lookup_iff name slot).mp found
    rw [records.next_eq]
    exact (List.getElem?_eq_some_iff.mp place).1
  · intro name other slot one two
    obtain ⟨here, _⟩ := (records.lookup_iff name slot).mp one
    obtain ⟨there, _⟩ := (records.lookup_iff other slot).mp two
    exact Option.some.inj (here.symm.trans there)

theorem size_le_next (records : scope.Records lineage) : scope.size ≤ scope.next := by
  rw [records.size_eq, records.next_eq]
  exact lineage.toFinset_card_le

theorem size_eq_next_iff (records : scope.Records lineage) :
    scope.size = scope.next ↔ lineage.Nodup := by
  rw [records.size_eq, records.next_eq]
  exact Multiset.toFinset_card_eq_card_iff_nodup (m := (lineage : Multiset String))

theorem names_eq (records : scope.Records lineage) : scope.names = lineage.toFinset := by
  ext name
  rw [List.mem_toFinset, ← not_iff_not, not_mem_names, records.missing_iff]

theorem nest (records : scope.Records lineage) : scope.nest.Records lineage where
  next_eq := records.next_eq
  lookup_iff name slot := by rw [lookup_nest, records.lookup_iff]
  missing_iff name := by rw [lookup_nest, records.missing_iff]
  size_eq := by rw [size, slots_nest, ← size, records.size_eq]

theorem bind (records : scope.Records lineage) (keyed : scope.Keyed) (name : String) :
    (scope.bind name).Records (lineage ++ [name]) where
  next_eq := by rw [next_bind, records.next_eq, List.length_append, List.length_singleton]
  lookup_iff other slot := by
    rw [last_place_append]
    by_cases same : other = name
    · subst same
      rw [lookup_bind_self, records.next_eq, if_pos rfl, Option.some.injEq, eq_comm]
    · rw [lookup_bind_of_ne same, records.lookup_iff, if_neg same]
  missing_iff other := by
    rw [← not_mem_names, names_bind, records.names_eq]
    simp [or_comm]
  size_eq := by
    rw [(bind_keyed keyed name).size_eq, names_bind, records.names_eq, List.toFinset_append,
      Finset.union_comm]
    rfl

end Records

def Kept (scope : Scope) (lineage : List String) : Prop := scope.Keyed ∧ scope.Records lineage

theorem empty_kept : Kept empty [] :=
  ⟨List.nodup_nil, rfl, by simp, by simp, rfl⟩

-- Without a table there is nothing to read, as in an empty one.
theorem unset_kept : Kept unset [] :=
  ⟨List.nodup_nil, rfl, by simp [unset, lookup, slots], by simp [unset, lookup, slots], rfl⟩

section
variable {scopes : List Scope} {known : List (List String)}

theorem kept_parent (kept : List.Forall₂ Kept scopes known) (parent : Nat) :
    Option.Rel Kept scopes[parent]? known[parent]? := by
  induction kept generalizing parent with
  | nil => exact .none
  | cons first _ ih =>
    cases parent with
    | zero => exact .some first
    | succ parent => exact ih parent

theorem kept_map {scope : Option Scope} {lineage : Option (List String)} {f : Scope → Scope}
    {g : List String → List String} (kept : Option.Rel Kept scope lineage)
    (step : ∀ {one other}, Kept one other → Kept (f one) (g other)) :
    Option.Rel Kept (scope.map f) (lineage.map g) := by
  cases kept with
  | none => exact .none
  | some kept => exact .some (step kept)

theorem result_kept (kept : List.Forall₂ Kept scopes known) (step : Step) :
    Option.Rel Kept (step.result scopes) (step.lineage known) := by
  cases step with
  | fresh => exact .some empty_kept
  | unset => exact .some unset_kept
  | nest parent =>
    have nested : ∀ {scope lineage}, Kept scope lineage → Kept scope.nest (id lineage) :=
      fun kept => ⟨nest_keyed kept.1, kept.2.nest⟩
    have outer := kept_map (kept_parent kept parent) nested
    rwa [Option.map_id_apply] at outer
  | bind parent name =>
    exact kept_map (kept_parent kept parent)
      fun kept => ⟨bind_keyed kept.1 name, kept.2.bind kept.1 name⟩

theorem step_kept (kept : List.Forall₂ Kept scopes known) (step : Step) :
    List.Forall₂ Kept (step.apply scopes) (step.extend known) := by
  have added := result_kept kept step
  refine List.rel_append kept ?_
  generalize step.result scopes = scope, step.lineage known = lineage at added ⊢
  cases added with
  | none => exact .nil
  | some added => exact .cons added .nil

theorem run_kept (kept : List.Forall₂ Kept scopes known) (steps : List Step) :
    List.Forall₂ Kept (steps.foldl Step.apply scopes) (steps.foldl Step.extend known) := by
  induction steps generalizing scopes known with
  | nil => exact kept
  | cons step rest ih => exact ih (step_kept kept step)

end

/-- Every scope of a family records its lineage. So two names never share a slot, every slot lies
below the next one, and there are as many names as slots were given exactly if no name was bound
twice. -/
theorem family_records_lineages (steps : List Step) :
    List.Forall₂ (fun scope lineage => scope.Records lineage ∧ scope.Separated ∧
        scope.size ≤ scope.next ∧ (scope.size = scope.next ↔ lineage.Nodup))
      (family steps) (lineages steps) := by
  refine (run_kept .nil steps).imp fun scope lineage kept => ?_
  have records := kept.2
  exact ⟨records, records.separated, records.size_le_next, records.size_eq_next_iff⟩

end SnakeFront.Scope
