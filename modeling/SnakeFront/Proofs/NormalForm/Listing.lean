import SnakeFront.NormalForm.Printer
import SnakeFront.Proofs.Text.Unambiguous
import SnakeFront.Proofs.Token.Spelling
import SnakeFront.Proofs.Word.Joining

/-! Listings that can be taken apart. Names, numbers and quoted texts tell where they end, the first
character of a value or of a line tells its form, and a body ends where the margin gets narrower.
Main statement: code whose names are plain words is told from its listing. -/
namespace SnakeFront.NormalForm

open Text
open SnakeFront.Token (Digits operators)
open SnakeFront.Word (PlainWord)

/-- There is a value, and what it holds besides addresses and texts is written as in a source. -/
def Value.Legible : Value → Prop
  | .address _ | .text _ => True
  | .integer digits => Digits digits
  | .binary op _ _ | .unary op _ => op ∈ operators
  | .call name _ => PlainWord name
  | .absent => False

mutual

def Instr.Legible : Instr → Prop
  | .assign _ source => source.Legible
  | .call name _ => PlainWord name
  | .define name _ body => PlainWord name ∧ LegibleAll body

def LegibleAll : List Instr → Prop
  | [] => True
  | instr :: rest => instr.Legible ∧ LegibleAll rest

end

instance : DecidablePred Value.Legible
  | .address _ | .text _ => inferInstanceAs (Decidable True)
  | .integer digits => inferInstanceAs (Decidable (Digits digits))
  | .binary op _ _ | .unary op _ => inferInstanceAs (Decidable (op ∈ operators))
  | .call name _ => inferInstanceAs (Decidable (PlainWord name))
  | .absent => inferInstanceAs (Decidable False)

mutual

instance Instr.decideLegible : DecidablePred Instr.Legible
  | .assign _ source => inferInstanceAs (Decidable source.Legible)
  | .call name _ => inferInstanceAs (Decidable (PlainWord name))
  | .define name _ body =>
    have := decideLegibleAll body
    inferInstanceAs (Decidable (PlainWord name ∧ LegibleAll body))

instance decideLegibleAll : DecidablePred LegibleAll
  | [] => inferInstanceAs (Decidable True)
  | instr :: rest =>
    have := instr.decideLegible
    have := decideLegibleAll rest
    inferInstanceAs (Decidable (instr.Legible ∧ LegibleAll rest))

end

inductive Lead where
  | address
  | text
  | integer
  | operator
  | call
  | define

def leadOf (c : Char) : Lead :=
  if c = '"' then .text
  else if c = 'c' then .call
  else if c = 'f' then .define
  else if c.isDigit then .integer
  else if c.isAlpha then .address
  else .operator

def Value.lead : Value → Lead
  | .address _ | .binary .. => .address
  | .text _ => .text
  | .integer _ => .integer
  | .unary .. | .absent => .operator
  | .call .. => .call

def Instr.lead : Instr → Lead
  | .assign .. => .address
  | .call .. => .call
  | .define .. => .define

namespace Storage

def initial : Storage → Char
  | var => 'v'
  | param => 'p'
  | temp => 't'
  | ret => 'r'
  | other _ => 'm'

theorem head_render (storage : Storage) :
    ∃ tail, storage.render.toList = storage.initial :: tail := by
  cases storage with
  | var | param | temp | ret => exact ⟨_, rfl⟩
  | other code => exact ⟨"em_".toList ++ (toString code).toList, by simp [render, initial]⟩

theorem leadOf_initial (storage : Storage) : leadOf storage.initial = .address := by
  cases storage with
  | var | param | temp | ret | other => rfl

theorem bracket_not_mem (storage : Storage) : '[' ∉ storage.render.toList := by
  cases storage with
  | var | param | temp | ret => decide
  | other code =>
    simp only [render, String.toList_append, List.mem_append, not_or]
    exact ⟨by decide, not_mem_numeral (by decide) (by decide) code⟩

theorem render_inj {storage another : Storage} (same : storage.render = another.render) :
    storage = another := by
  obtain ⟨tail, one⟩ := storage.head_render
  obtain ⟨back, two⟩ := another.head_render
  have first : storage.initial = another.initial := by
    rw [same, two] at one
    exact (List.cons.inj one).1.symm
  cases storage with
  | other code =>
    cases another with
    | other number =>
      have numerals : toString code = toString number := (String.append_right_inj "mem_").mp same
      rw [numeral_inj (congrArg String.toList numerals)]
    | var | param | temp | ret => simp [initial] at first
  | var | param | temp | ret => cases another <;> simp_all [initial]

end Storage

section
variable {rest more : List Char}

theorem Address.toList_render (address : Address) :
    address.render.toList =
      address.storage.render.toList ++ '[' :: ((toString address.index).toList ++ [']']) := by
  simp [render]

theorem Address.head_render (address : Address) :
    ∃ c tail, address.render.toList = c :: tail ∧ leadOf c = .address := by
  obtain ⟨tail, text⟩ := address.storage.head_render
  exact ⟨_, _, by rw [toList_render, text, List.cons_append], address.storage.leadOf_initial⟩

theorem address_append_inj {address other : Address}
    (same : address.render.toList ++ rest = other.render.toList ++ more) :
    address = other ∧ rest = more := by
  obtain ⟨storage, index⟩ := address
  obtain ⟨place, number⟩ := other
  simp only [Address.toList_render, List.append_assoc, List.cons_append, List.nil_append] at same
  obtain ⟨storages, behind⟩ :=
    delimited_append_inj storage.bracket_not_mem place.bracket_not_mem same
  have free : ∀ n : Int, ']' ∉ (toString n).toList := not_mem_numeral (by decide) (by decide)
  obtain ⟨numerals, rests⟩ := delimited_append_inj (free index) (free number) behind
  rw [Storage.render_inj (String.toList_inj.mp storages), numeral_inj numerals]
  exact ⟨rfl, rests⟩

theorem addresses_append_inj {addresses others : List Address}
    (same : (renderAddresses addresses).toList ++ ')' :: rest =
      (renderAddresses others).toList ++ ')' :: more) : addresses = others ∧ rest = more := by
  have opens : ∀ address ∈ addresses ++ others,
      ∃ c tail, address.render.toList = c :: tail ∧ c ≠ ')' := by
    intro address _
    obtain ⟨c, tail, text, lead⟩ := address.head_render
    refine ⟨c, tail, text, ?_⟩
    rintro rfl
    cases lead
  have told := joined_append_inj id (by decide) opens
    (fun _ _ _ _ _ _ _ _ => address_append_inj) same
  simpa only [List.map_id] using told

theorem signature_append_inj {name other : String} {addresses others : List Address}
    (plain : PlainWord name) (plainToo : PlainWord other)
    (same : name.toList ++ '(' :: ((renderAddresses addresses).toList ++ ')' :: rest) =
      other.toList ++ '(' :: ((renderAddresses others).toList ++ ')' :: more)) :
    name = other ∧ addresses = others ∧ rest = more := by
  have free : ∀ {word}, PlainWord word → '(' ∉ word.toList :=
    fun plain member => Bool.noConfusion (plain.2 '(' member)
  obtain ⟨names, behind⟩ := delimited_append_inj (free plain) (free plainToo) same
  obtain ⟨passed, rests⟩ := addresses_append_inj behind
  exact ⟨String.toList_inj.mp names, passed, rests⟩

theorem toList_renderCall (name : String) (args : List Address) :
    (renderCall name args).toList =
      "call ".toList ++ (name.toList ++ '(' :: ((renderAddresses args).toList ++ [')'])) := by
  simp [renderCall]

theorem call_append_inj {name other : String} {args others : List Address}
    (plain : PlainWord name) (plainToo : PlainWord other)
    (same : (renderCall name args).toList ++ rest = (renderCall other others).toList ++ more) :
    name = other ∧ args = others ∧ rest = more := by
  simp only [toList_renderCall, List.append_assoc, List.cons_append, List.nil_append,
    List.append_cancel_left_eq] at same
  exact signature_append_inj plain plainToo same

theorem operator_toList {op : String} (known : op ∈ operators) :
    ∃ c, op.toList = [c] ∧ c ≠ ' ' ∧ leadOf c = .operator := by
  simp only [operators, List.mem_cons, List.not_mem_nil, or_false] at known
  rcases known with rfl | rfl | rfl | rfl | rfl <;> exact ⟨_, rfl, by decide, rfl⟩

theorem Value.toList_binary (op : String) (left right : Address) :
    (binary op left right).render.toList =
      left.render.toList ++ ' ' :: (op.toList ++ ' ' :: right.render.toList) := by
  simp [render]

theorem Value.toList_unary (op : String) (operand : Address) :
    (unary op operand).render.toList = op.toList ++ operand.render.toList := by
  simp [render]

theorem leadOf_digit {c : Char} (digit : c.isDigit = true) : leadOf c = .integer := by
  have others : c ≠ '"' ∧ c ≠ 'c' ∧ c ≠ 'f' := by
    refine ⟨?_, ?_, ?_⟩ <;> rintro rfl <;> cases digit
  simp [leadOf, others, digit]

theorem Value.head_render {value : Value} (legible : value.Legible) :
    ∃ c tail, value.render.toList = c :: tail ∧ leadOf c = value.lead := by
  cases value with
  | address source => exact source.head_render
  | text value => exact ⟨'"', value.toList.flatMap escape ++ ['"'], by simp [render, quote], rfl⟩
  | integer digits =>
    obtain ⟨nonempty, all⟩ := legible
    obtain ⟨c, tail, chars⟩ := List.exists_cons_of_ne_nil (mt String.toList_eq_nil_iff.mp nonempty)
    exact ⟨c, tail, chars, leadOf_digit (all c (by simp [chars]))⟩
  | binary op left right =>
    obtain ⟨c, tail, text, lead⟩ := left.head_render
    exact ⟨c, _, by rw [toList_binary, text, List.cons_append], lead⟩
  | unary op operand =>
    obtain ⟨c, text, _, lead⟩ := operator_toList legible
    exact ⟨c, _, by rw [toList_unary, text, List.singleton_append], lead⟩
  | call name args => exact ⟨'c', _, by rw [render, toList_renderCall]; rfl, rfl⟩
  | absent => cases legible

theorem lead_eq {value other : Value} (legible : value.Legible) (legibleToo : other.Legible)
    (same : value.render.toList ++ rest = other.render.toList ++ more) :
    value.lead = other.lead := by
  obtain ⟨c, tail, text, lead⟩ := value.head_render legible
  obtain ⟨d, back, textToo, leadToo⟩ := other.head_render legibleToo
  rw [text, textToo] at same
  rw [← lead, ← leadToo, (List.cons.inj same).1]

/-- A value is told from its line. Where the first characters announce the same form, the values
have the same constructor, an address and a binary operation apart; these differ in what follows
their first address. -/
theorem value_append_inj {value other : Value} (legible : value.Legible)
    (legibleToo : other.Legible)
    (same : value.render.toList ++ '\n' :: rest = other.render.toList ++ '\n' :: more) :
    value = other ∧ rest = more := by
  have lead := lead_eq legible legibleToo same
  cases value with
  | address source =>
    cases other with
    | address place =>
      obtain ⟨rfl, behind⟩ := address_append_inj same
      exact ⟨rfl, (List.cons.inj behind).2⟩
    | binary op left right =>
      rw [Value.toList_binary, List.append_assoc] at same
      cases (address_append_inj same).2
    | text | integer | unary | call | absent => cases lead
  | binary op left right =>
    rw [Value.toList_binary, List.append_assoc] at same
    cases other with
    | address place => cases (address_append_inj same).2
    | binary symbol first second =>
      rw [Value.toList_binary, List.append_assoc] at same
      obtain ⟨rfl, behind⟩ := address_append_inj same
      simp only [List.cons_append, List.append_assoc, List.cons.injEq, true_and] at behind
      have free : ∀ {word}, word ∈ operators → ' ' ∉ word.toList := by
        intro word known
        obtain ⟨c, text, different, _⟩ := operator_toList known
        simpa [text] using different.symm
      obtain ⟨symbols, operands⟩ := delimited_append_inj (free legible) (free legibleToo) behind
      obtain ⟨rfl, ends⟩ := address_append_inj operands
      rw [String.toList_inj.mp symbols]
      exact ⟨rfl, (List.cons.inj ends).2⟩
    | text | integer | unary | call | absent => cases lead
  | text value =>
    cases other with
    | text text =>
      obtain ⟨rfl, behind⟩ := quote_append_inj same
      exact ⟨rfl, (List.cons.inj behind).2⟩
    | address | integer | binary | unary | call | absent => cases lead
  | integer digits =>
    cases other with
    | integer number =>
      have free : ∀ {word}, Digits word → '\n' ∉ word.toList :=
        fun digits member => Bool.noConfusion (digits.2 '\n' member)
      obtain ⟨chars, rests⟩ := delimited_append_inj (free legible) (free legibleToo) same
      rw [String.toList_inj.mp chars]
      exact ⟨rfl, rests⟩
    | address | text | binary | unary | call | absent => cases lead
  | unary op operand =>
    cases other with
    | unary symbol place =>
      obtain ⟨c, text, _⟩ := operator_toList legible
      obtain ⟨d, textToo, _⟩ := operator_toList legibleToo
      simp only [Value.toList_unary, List.append_assoc] at same
      obtain ⟨symbols, behind⟩ := List.append_inj same (by simp [text, textToo])
      obtain ⟨rfl, ends⟩ := address_append_inj behind
      rw [String.toList_inj.mp symbols]
      exact ⟨rfl, (List.cons.inj ends).2⟩
    | absent => cases legibleToo
    | address | text | integer | binary | call => cases lead
  | call name args =>
    cases other with
    | call function others =>
      obtain ⟨rfl, rfl, behind⟩ := call_append_inj legible legibleToo same
      exact ⟨rfl, (List.cons.inj behind).2⟩
    | address | text | integer | binary | unary | absent => cases lead
  | absent => cases legible

theorem toList_margin (level : Nat) :
    (indent "  " level).toList = List.replicate (2 * level) ' ' :=
  toList_indent rfl level

theorem toList_assign (level : Nat) (dest : Address) (source : Value) :
    ((Instr.assign dest source).lines level).toList = List.replicate (2 * level) ' ' ++
      (dest.render.toList ++ (" = ".toList ++ (source.render.toList ++ ['\n']))) := by
  simp [Instr.lines, Instr.render, toList_margin]

theorem toList_call (level : Nat) (name : String) (args : List Address) :
    ((Instr.call name args).lines level).toList =
      List.replicate (2 * level) ' ' ++ ((renderCall name args).toList ++ ['\n']) := by
  simp [Instr.lines, Instr.render, toList_margin]

theorem toList_define (level : Nat) (name : String) (params : List Address) (body : List Instr) :
    ((Instr.define name params body).lines level).toList = List.replicate (2 * level) ' ' ++
      ("func ".toList ++ (name.toList ++ '(' :: ((renderAddresses params).toList ++
        ')' :: ':' :: '\n' :: (linesAll (level + 1) body).toList))) := by
  simp [Instr.lines, renderHeader, toList_margin]

theorem toList_linesAll (level : Nat) (code : List Instr) :
    (linesAll level code).toList = code.flatMap fun instr => (instr.lines level).toList := by
  induction code with
  | nil => rfl
  | cons instr code ih => rw [linesAll, String.toList_append, ih, List.flatMap_cons]

theorem Instr.head_lines (instr : Instr) (level : Nat) :
    ∃ c tail, (instr.lines level).toList = List.replicate (2 * level) ' ' ++ c :: tail ∧
      leadOf c = instr.lead := by
  cases instr with
  | assign dest source =>
    obtain ⟨c, tail, text, lead⟩ := dest.head_render
    exact ⟨c, _, by rw [toList_assign, text, List.cons_append], lead⟩
  | call name args => exact ⟨'c', _, by rw [toList_call, toList_renderCall]; rfl, rfl⟩
  | define name params body => exact ⟨'f', _, by rw [toList_define]; rfl, rfl⟩

theorem Instr.lead_ne_operator (instr : Instr) : instr.lead ≠ .operator := by
  cases instr with
  | assign | call | define => simp [lead]

theorem lines_lead {instr other : Instr} {level : Nat}
    (same : (instr.lines level).toList ++ rest = (other.lines level).toList ++ more) :
    instr.lead = other.lead := by
  obtain ⟨c, tail, text, lead⟩ := instr.head_lines level
  obtain ⟨d, back, textToo, leadToo⟩ := other.head_lines level
  simp only [text, textToo, List.append_assoc, List.append_cancel_left_eq, List.cons_append]
    at same
  rw [← lead, ← leadToo, (List.cons.inj same).1]

theorem indented_lines (instr : Instr) (level : Nat) :
    Indented ' ' (2 * level) (instr.lines level).toList := by
  obtain ⟨c, tail, text, lead⟩ := instr.head_lines level
  refine ⟨c, tail, ?_, text⟩
  rintro rfl
  exact instr.lead_ne_operator lead.symm

theorem legibleAll_iff {code : List Instr} : LegibleAll code ↔ ∀ instr ∈ code, instr.Legible := by
  induction code with
  | nil => simp [LegibleAll]
  | cons instr code ih => rw [LegibleAll, ih, List.forall_mem_cons]

mutual

/-- An instruction is told from its lines. The body of a definition ends where the text behind it is
less indented than the body. -/
theorem lines_append_inj : (instr other : Instr) → {level : Nat} → {rest more : List Char} →
    instr.Legible → other.Legible →
    Outdented ' ' (2 * (level + 1)) rest → Outdented ' ' (2 * (level + 1)) more →
    (instr.lines level).toList ++ rest = (other.lines level).toList ++ more →
    instr = other ∧ rest = more
  | .assign dest source, .assign place value, _, _, _, legible, legibleToo, _, _, same => by
    simp only [toList_assign, List.append_assoc, List.append_cancel_left_eq] at same
    obtain ⟨rfl, behind⟩ := address_append_inj same
    simp only [List.append_cancel_left_eq, List.cons_append, List.nil_append] at behind
    obtain ⟨rfl, rests⟩ := value_append_inj legible legibleToo behind
    exact ⟨rfl, rests⟩
  | .call name args, .call function others, _, _, _, legible, legibleToo, _, _, same => by
    simp only [toList_call, List.append_assoc, List.append_cancel_left_eq, List.cons_append,
      List.nil_append] at same
    obtain ⟨rfl, rfl, behind⟩ := call_append_inj legible legibleToo same
    exact ⟨rfl, (List.cons.inj behind).2⟩
  | .define name params body, .define function others block, level, _, _, legible, legibleToo,
      outdented, outdentedToo, same => by
    simp only [toList_define, List.append_assoc, List.append_cancel_left_eq, List.cons_append]
      at same
    obtain ⟨rfl, rfl, behind⟩ := signature_append_inj legible.1 legibleToo.1 same
    simp only [List.cons.injEq, true_and] at behind
    obtain ⟨rfl, rests⟩ :=
      linesAll_append_inj body block legible.2 legibleToo.2 outdented outdentedToo behind
    exact ⟨rfl, rests⟩
  | .assign .., .call .., level, _, _, _, _, _, _, same
  | .assign .., .define .., level, _, _, _, _, _, _, same
  | .call .., .assign .., level, _, _, _, _, _, _, same
  | .call .., .define .., level, _, _, _, _, _, _, same
  | .define .., .assign .., level, _, _, _, _, _, _, same
  | .define .., .call .., level, _, _, _, _, _, _, same => by
    cases lines_lead same

theorem linesAll_append_inj (code others : List Instr) {level : Nat} {rest more : List Char}
    (legible : LegibleAll code) (legibleToo : LegibleAll others)
    (outdented : Outdented ' ' (2 * level) rest) (outdentedToo : Outdented ' ' (2 * level) more)
    (same : (linesAll level code).toList ++ rest = (linesAll level others).toList ++ more) :
    code = others ∧ rest = more := by
  rw [legibleAll_iff] at legible legibleToo
  rw [toList_linesAll, toList_linesAll] at same
  have told := block_append_inj id (fun instr _ => indented_lines instr level)
    (fun instr member other memberToo text behind out outToo =>
      lines_append_inj instr other (legible instr member) (legibleToo other memberToo)
        (out.wider (by omega)) (outToo.wider (by omega)))
    outdented outdentedToo same
  simpa only [List.map_id] using told

end

end

/-- Code with plain names, known operators and written numbers is told from its listing. -/
theorem same_listing_iff_same_code {code other : List Instr} (legible : LegibleAll code)
    (legibleToo : LegibleAll other) : listing code = listing other ↔ code = other := by
  constructor
  · intro same
    have ends : Outdented ' ' (2 * 0) [] := fun nonempty => absurd rfl nonempty
    have chars := congrArg (fun text => text.toList ++ []) same
    exact (linesAll_append_inj code other legible legibleToo ends ends chars).1
  · exact congrArg listing

/-- A call at the end of a body, and the same call behind it; the text in the body looks like such a
line. -/
theorem body_told_from_sequel :
    let first := Instr.assign (.var 0) (.text "\n  call g()")
    let nested := [Instr.define "f" [.param 0] [first, .call "g" []]]
    let sequel := [Instr.define "f" [.param 0] [first], .call "g" []]
    LegibleAll nested ∧ LegibleAll sequel ∧ listing nested ≠ listing sequel := by
  intro first nested sequel
  have one : LegibleAll nested := by decide
  have two : LegibleAll sequel := by decide
  refine ⟨one, two, fun same => ?_⟩
  have equal := (same_listing_iff_same_code one two).mp same
  simp [nested, sequel] at equal

end SnakeFront.NormalForm
