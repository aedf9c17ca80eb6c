import SnakeFront.Proofs.Assembly.Listing

/-! The listing as a traversal. An instruction has its place in a program: its index among the
instructions beside it, behind the indices of the labels around it. In the order of the places a
label stands before its body and a body before what follows the label. Main statement: the listing
has the line of every instruction in that order, each behind one tab for every label around it, so
the header that a listing gives to a label is the label's own line. -/
namespace SnakeFront.Assembly

open Text

def Instr.body : Instr → List Instr
  | .label _ body => body
  | _ => []

/-- An instruction of a program. Indices and labels are listed from the outermost on. -/
structure Visit where
  place : List Nat
  around : List Instr
  instr : Instr

namespace Visit

/-- Seen from outside the label that has the given index. -/
def inside (index : Nat) (label : Instr) (visit : Visit) : Visit :=
  ⟨index :: visit.place, label :: visit.around, visit.instr⟩

/-- The order of the dictionary, where a place comes before all that it opens. -/
def Before (first second : Visit) : Prop := first.place < second.place

def line (visit : Visit) : String :=
  String.ofList (visit.around.map fun _ => '\t') ++ visit.instr.render ++ "\n"

end Visit

/-- The program has the instruction at its place, below its labels. -/
inductive Occurs : List Instr → Visit → Prop where
  | here {code : List Instr} {index : Nat} {instr : Instr} :
      code[index]? = some instr → Occurs code ⟨[index], [], instr⟩
  | inside {code body : List Instr} {index : Nat} {name : String} {visit : Visit} :
      code[index]? = some (.label name body) → Occurs body visit →
      Occurs code (visit.inside index (.label name body))

/-- All instructions of the program, each once, in the order of their places. -/
def Traverses (program : List Instr) (visits : List Visit) : Prop :=
  visits.Pairwise Visit.Before ∧ ∀ visit, visit ∈ visits ↔ Occurs program visit

mutual

def Instr.visits (index : Nat) : Instr → List Visit
  | .label name body =>
    ⟨[index], [], .label name body⟩ :: (visitsFrom 0 body).map (.inside index (.label name body))
  | instr => [⟨[index], [], instr⟩]

def visitsFrom (index : Nat) : List Instr → List Visit
  | [] => []
  | instr :: rest => instr.visits index ++ visitsFrom (index + 1) rest

end

def preorder (program : List Instr) : List Visit := visitsFrom 0 program

section
variable {instr : Instr} {code : List Instr} {visit : Visit}

theorem Instr.body_of_line (line : instr.IsLine) : instr.body = [] := by
  cases instr with
  | label => exact line.elim
  | add | sub | mul | div | neg | mov | call | push | pop | ret | cmp | jmp | jne => rfl
  | declare | unknown => rfl

/-- Induction over programs by the bodies in them. -/
theorem code_induction {P : List Instr → Prop}
    (step : ∀ code, (∀ instr ∈ code, P instr.body) → P code) (code : List Instr) : P code := by
  have below : ∀ instr : Instr, P instr.body := by
    intro instr
    induction instr using Instr.label_induction with
    | line instr line =>
      rw [Instr.body_of_line line]
      exact step [] (by simp)
    | label name body ih => exact step body ih
  exact step code fun instr _ => below instr

/-- Every instruction opens with its line, and its body follows one tab deeper. -/
theorem Instr.lines_eq_render_body (instr : Instr) (level : Nat) :
    instr.lines level =
      indent "\t" level ++ instr.render ++ "\n" ++ linesAll (level + 1) instr.body := by
  cases instr with
  | label name body =>
    apply String.toList_inj.mp
    simp [Instr.lines, Instr.render, Instr.body]
  | add | sub | mul | div | neg | mov | call | push | pop | ret | cmp | jmp | jne =>
    simp [Instr.lines, Instr.body, linesAll]
  | declare | unknown => simp [Instr.lines, Instr.body, linesAll]

theorem Instr.visits_eq (instr : Instr) (index : Nat) :
    instr.visits index =
      ⟨[index], [], instr⟩ :: (preorder instr.body).map (.inside index instr) := by
  cases instr with
  | add | sub | mul | div | neg | mov | call | push | pop | ret | cmp | jmp | jne => rfl
  | label | declare | unknown => rfl

theorem visitsFrom_eq_flatMap (code : List Instr) (start : Nat) :
    visitsFrom start code = (code.zipIdx start).flatMap fun entry => entry.1.visits entry.2 := by
  induction code generalizing start with
  | nil => rfl
  | cons instr code ih => rw [visitsFrom, ih, List.zipIdx_cons, List.flatMap_cons]

theorem preorder_eq_flatMap (code : List Instr) :
    preorder code = code.zipIdx.flatMap fun entry => entry.1.visits entry.2 :=
  visitsFrom_eq_flatMap code 0

theorem mem_preorder_cases :
    visit ∈ preorder code ↔ ∃ index instr, code[index]? = some instr ∧
      (visit = ⟨[index], [], instr⟩ ∨
        ∃ inner ∈ preorder instr.body, inner.inside index instr = visit) := by
  rw [preorder_eq_flatMap, List.mem_flatMap]
  constructor
  · rintro ⟨⟨instr, index⟩, entry, member⟩
    rw [Instr.visits_eq, List.mem_cons, List.mem_map] at member
    exact ⟨index, instr, List.mem_zipIdx_iff_getElem?.mp entry, member⟩
  · rintro ⟨index, instr, entry, member⟩
    refine ⟨(instr, index), List.mem_zipIdx_iff_getElem?.mpr entry, ?_⟩
    rwa [Instr.visits_eq, List.mem_cons, List.mem_map]

theorem occurs_of_mem (member : visit ∈ preorder code) : Occurs code visit := by
  induction code using code_induction generalizing visit with
  | step code ih =>
    obtain ⟨index, instr, entry, rfl | ⟨inner, within, rfl⟩⟩ := mem_preorder_cases.mp member
    · exact .here entry
    -- Behind an index there is a body, so the instruction there is a label.
    · rcases instr.label_or_line with ⟨name, body, rfl⟩ | line
      · exact .inside entry (ih _ (List.mem_of_getElem? entry) within)
      · rw [Instr.body_of_line line] at within
        cases within

theorem mem_of_occurs (occurs : Occurs code visit) : visit ∈ preorder code := by
  induction occurs with
  | here entry => exact mem_preorder_cases.mpr ⟨_, _, entry, .inl rfl⟩
  | inside entry _ ih => exact mem_preorder_cases.mpr ⟨_, _, entry, .inr ⟨_, ih, rfl⟩⟩

theorem exists_place (occurs : Occurs code visit) :
    ∃ index place, visit.place = index :: place := by
  cases occurs with
  | here | inside => exact ⟨_, _, rfl⟩

theorem place_visits {index : Nat} (member : visit ∈ instr.visits index) :
    ∃ place, visit.place = index :: place := by
  rw [Instr.visits_eq, List.mem_cons, List.mem_map] at member
  obtain rfl | ⟨inner, _, rfl⟩ := member
  · exact ⟨[], rfl⟩
  · exact ⟨inner.place, rfl⟩

theorem zipIdx_ascending (code : List Instr) :
    code.zipIdx.Pairwise fun first second => first.2 < second.2 := by
  have indices := List.pairwise_lt_range' (s := 0) (n := code.length) 1
  rwa [← List.zipIdx_map_snd, List.pairwise_map] at indices

theorem Instr.visits_ascending (below : (preorder instr.body).Pairwise Visit.Before)
    (index : Nat) : (instr.visits index).Pairwise Visit.Before := by
  rw [Instr.visits_eq, List.pairwise_cons, List.pairwise_map]
  constructor
  · intro visit member
    obtain ⟨inner, within, rfl⟩ := List.mem_map.mp member
    obtain ⟨next, place, same⟩ := exists_place (occurs_of_mem within)
    simp only [Visit.Before, Visit.inside, same]
    exact List.cons_lt_cons_iff.mpr (.inr ⟨rfl, List.nil_lt_cons next place⟩)
  · refine below.imp fun before => ?_
    exact List.cons_lt_cons_iff.mpr (.inr ⟨rfl, before⟩)

theorem preorder_ascending (code : List Instr) : (preorder code).Pairwise Visit.Before := by
  induction code using code_induction with
  | step code ih =>
    rw [preorder_eq_flatMap, List.pairwise_flatMap]
    constructor
    · intro entry member
      exact Instr.visits_ascending (ih entry.1 (List.fst_mem_of_mem_zipIdx member)) entry.2
    -- Across two instructions the first index decides, however deep the visits are.
    · refine (zipIdx_ascending code).imp fun below first member second memberToo => ?_
      obtain ⟨place, same⟩ := place_visits member
      obtain ⟨other, sameToo⟩ := place_visits memberToo
      simp only [Visit.Before, same, sameToo]
      exact List.cons_lt_cons_iff.mpr (.inl below)

theorem preorder_traverses (program : List Instr) : Traverses program (preorder program) :=
  ⟨preorder_ascending program, fun _ => ⟨occurs_of_mem, mem_of_occurs⟩⟩

theorem Traverses.unique {program : List Instr} {visits others : List Visit}
    (traverses : Traverses program visits) (traversesToo : Traverses program others) :
    visits = others := by
  have nodup : ∀ {list : List Visit}, list.Pairwise Visit.Before → list.Nodup := by
    intro list ascending
    refine ascending.imp fun before same => ?_
    rw [same] at before
    exact List.lt_irrefl _ before
  have perm : visits.Perm others := by
    rw [List.perm_ext_iff_of_nodup (nodup traverses.1) (nodup traversesToo.1)]
    intro visit
    rw [traverses.2, traversesToo.2]
  refine perm.eq_of_pairwise ?_ traverses.1 traversesToo.1
  intro first second _ _ before behind
  exact absurd behind (List.lt_asymm before)

theorem Visit.toList_line_inside (index : Nat) (label : Instr) (visit : Visit) :
    (visit.inside index label).line.toList = '\t' :: visit.line.toList := by
  simp [Visit.line, Visit.inside]

def marginText (level : Nat) (visits : List Visit) : List Char :=
  visits.flatMap fun visit => List.replicate level '\t' ++ visit.line.toList

/-- The tab that a body has more in its margin is the one for the label around it. -/
theorem marginText_inside (level index : Nat) (label : Instr) (visits : List Visit) :
    marginText level (visits.map (.inside index label)) = marginText (level + 1) visits := by
  simp only [marginText, List.flatMap_map, Visit.toList_line_inside, List.replicate_succ',
    List.append_assoc, List.singleton_append]

theorem toList_lines_visits {level : Nat}
    (below : (linesAll (level + 1) instr.body).toList =
      marginText (level + 1) (preorder instr.body)) (index : Nat) :
    (instr.lines level).toList = marginText level (instr.visits index) := by
  have header : marginText level (instr.visits index) =
      List.replicate level '\t' ++ instr.render.toList ++ '\n' ::
        marginText (level + 1) (preorder instr.body) := by
    rw [Instr.visits_eq, ← marginText_inside level index instr]
    simp [marginText, Visit.line]
  rw [header, Instr.lines_eq_render_body, ← below]
  simp [toList_margin]

theorem toList_linesAll_preorder (code : List Instr) (level : Nat) :
    (linesAll level code).toList = marginText level (preorder code) := by
  induction code using code_induction generalizing level with
  | step code ih =>
    have each : ∀ entry ∈ code.zipIdx,
        (entry.1.lines level).toList = marginText level (entry.1.visits entry.2) := by
      intro entry member
      have below := ih entry.1 (List.fst_mem_of_mem_zipIdx member) (level + 1)
      exact toList_lines_visits below entry.2
    calc (linesAll level code).toList
      _ = (code.zipIdx.map Prod.fst).flatMap fun instr => (instr.lines level).toList := by
        rw [List.zipIdx_map_fst, toList_linesAll]
      _ = code.zipIdx.flatMap fun entry => (entry.1.lines level).toList :=
        List.flatMap_map _ _ _
      _ = code.zipIdx.flatMap fun entry => marginText level (entry.1.visits entry.2) :=
        List.flatMap_congr each
      _ = marginText level (preorder code) := by
        rw [marginText, preorder_eq_flatMap, List.flatMap_assoc]
        rfl

end

/-- The listing is the line of every instruction in preorder, each behind one tab for every label
around it. The traversal is the one list of all instructions in the order of their places, and what
an instruction writes, a label too, opens with its line. -/
theorem listing_eq_preorder (program : List Instr) :
    listing program = String.join ((preorder program).map Visit.line) ∧
      (∀ visits, Traverses program visits ↔ visits = preorder program) ∧
      ∀ (instr : Instr) (level : Nat), instr.lines level =
        indent "\t" level ++ instr.render ++ "\n" ++ linesAll (level + 1) instr.body := by
  refine ⟨?_, fun visits => ⟨fun traverses => ?_, ?_⟩, Instr.lines_eq_render_body⟩
  · apply String.toList_inj.mp
    rw [listing, toList_linesAll_preorder, String.toList_join, List.flatMap_map]
    rfl
  · exact traverses.unique (preorder_traverses program)
  · rintro rfl
    exact preorder_traverses program

example :
    let program := [Instr.label "a" [.label "b" [], .push .unknown], .unknown]
    (preorder program).map Visit.place = [[0], [0, 0], [0, 1], [1]] ∧
      listing program = "a:\n\tb:\n\tpush <?>\n<?>\n" := by decide

end SnakeFront.Assembly
