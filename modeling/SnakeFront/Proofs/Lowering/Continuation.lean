import SnakeFront.Proofs.Lowering.Names

/-! Programs in two parts. The second part is lowered as a program of its own, from the scope of the
first with the names added that the first binds, and these can be read off its statements. Main
statement: lowering one part after the other gives the code, or the fault, of the whole. -/
namespace SnakeFront.Scope

/-- Gives a slot to each name that has none when its turn comes. -/
def claimAll (scope : Scope) (names : List String) : Scope :=
  names.foldl (fun found name => (found.claim name).2) scope

theorem claimAll_eq_bindAll (scope : Scope) (names : List String) :
    scope.claimAll names = scope.bindAll (names.filter (· ∉ scope.names)).eraseDups := by
  induction names generalizing scope with
  | nil => rfl
  | cons name rest ih =>
    have shifted : scope.claimAll (name :: rest) = (scope.claim name).2.claimAll rest := rfl
    by_cases bound : name ∈ scope.names
    · obtain ⟨slot, found⟩ := Option.isSome_iff_exists.mp (mem_names.mp bound)
      rw [shifted, claim_of_mem found, ih, List.filter_cons_of_neg (by simpa using bound)]
    · have missing := not_mem_names.mp bound
      -- Behind `name`, what is still unbound is what was unbound before and is not `name` again.
      have fresh : rest.filter (· ∉ (scope.bind name).names) =
          (rest.filter (· ∉ scope.names)).filter fun other => !other == name := by
        simp only [names_bind, List.filter_filter]
        apply List.filter_congr
        intro other _
        rw [Bool.eq_iff_iff]
        simp
      rw [shifted, claim_of_not_mem missing, ih, fresh,
        List.filter_cons_of_pos (by simpa using bound), List.eraseDups_cons]
      rfl

end SnakeFront.Scope

namespace SnakeFront.Tree

theorem assigned_cons (node : Node) (rest : Program) :
    assigned (node :: rest) = node.target?.toList ++ assigned rest := by
  cases own : node.target? with
  | none => exact List.filterMap_cons_none own
  | some target => exact List.filterMap_cons_some own

/-- The names that a program adds to those that are bound, in order of their first assignment. -/
def introduced (bound : Finset String) (nodes : Program) : List String :=
  ((assigned nodes).filter (· ∉ bound)).eraseDups

end SnakeFront.Tree

namespace SnakeFront.Lowering

open NormalForm
open SnakeFront.Tree (Node Program)

variable {scope inner final : Scope} {code : List Instr}

theorem statement_claims {node : Node} (lowered : statement scope node = .ok (code, inner)) :
    inner = scope.claimAll node.target?.toList := by
  rcases statement_scope lowered with ⟨rfl, unassigned, _⟩ | ⟨target, rfl, assigned, _⟩
  · rw [unassigned]
    rfl
  · rw [assigned]
    rfl

theorem block_claims {nodes : Program} (lowered : block scope nodes = .ok (code, final)) :
    final = scope.claimAll (Tree.assigned nodes) := by
  induction nodes generalizing scope code with
  | nil =>
    cases lowered
    rfl
  | cons node rest ih =>
    obtain ⟨first, inner, one, others, remaining, rfl⟩ := block_cons_eq_ok.mp lowered
    rw [ih remaining, statement_claims one, Tree.assigned_cons]
    exact List.foldl_append.symm

theorem block_scope {nodes : Program} (lowered : block scope nodes = .ok (code, final)) :
    final = scope.bindAll (Tree.introduced scope.names nodes) := by
  rw [block_claims lowered, Scope.claimAll_eq_bindAll, Tree.introduced]

/-- A program in two parts has the fault of its first part. If that has none, it has the code of the
first part and behind it the code of the second, or else the fault of the second, lowered from the
scope with the names that the first part introduces. -/
theorem program_append (scope : Scope) (first second : Program) :
    (∀ fault, program scope first = .error fault →
      program scope (first ++ second) = .error fault) ∧
    ∀ code, program scope first = .ok code →
      program scope (first ++ second) =
        (program (scope.bindAll (Tree.introduced scope.names first)) second).map (code ++ ·) := by
  constructor
  · intro fault refused
    rw [program_eq_error] at refused ⊢
    rw [block_append, refused]
    rfl
  · intro code lowered
    obtain ⟨inner, done⟩ := program_eq_ok.mp lowered
    rw [← block_scope done, program, program, block_append_of_ok second done]
    cases block inner second with
    | error fault => rfl
    | ok result => rfl

/-- `b = a`, `a = b`, `def f(c): d = c`, `b = a`, `c = b` where `a` is known: behind it `b` and `c`
are bound and `d` is not, so that `d = c` takes the next slot. Behind `b = e` nothing is lowered. -/
theorem second_part_starts_behind_first :
    let scope := Scope.empty.bind "a"
    let copy (target source : String) : Node := .assign (some target) (.var source)
    let first : Program := [copy "b" "a", copy "a" "b", .define "f" [.var "c"] [copy "d" "c"],
      copy "b" "a", copy "c" "b"]
    let move (target source : Nat) : Instr := .assign (.var target) (.address (.var source))
    let code : List Instr := [move 1 0, move 0 1,
      .define "f" [.param 0] [.assign (.var 2) (.address (.param 0)), move 3 2],
      move 1 0, move 2 1]
    Tree.introduced scope.names first = ["b", "c"] ∧
      program scope (first ++ [copy "d" "c"]) = .ok (code ++ [move 3 2]) ∧
      program scope ([copy "b" "e"] ++ first) = .error (.unbound "e") := by
  intro scope copy first move code
  have added : Tree.introduced scope.names first = ["b", "c"] := by decide
  have behind := (program_append scope first [copy "d" "c"]).2 code rfl
  have refused := (program_append scope [copy "b" "e"] first).1 (.unbound "e") rfl
  rw [added] at behind
  exact ⟨added, behind, refused⟩

end SnakeFront.Lowering
