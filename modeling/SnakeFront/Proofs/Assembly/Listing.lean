import SnakeFront.Assembly.Printer
import SnakeFront.Proofs.Text.Joined
import SnakeFront.Proofs.Text.Unambiguous

/-! Assembly text that can be taken apart. A line is a mnemonic with its arguments, or the name of a
label; both end at the first character that no name holds, and that character tells them apart.
Main statement: a program with written names and numbers is told from its listing, up to the scale
that stands for one that was not given. -/
namespace SnakeFront.Assembly

open Text

def isNameChar (c : Char) : Bool := c.isAlphanum || c = '_'

def Name (word : String) : Prop := word ≠ "" ∧ ∀ c ∈ word.toList, isNameChar c = true

-- Only the characters at hand are looked at, not all there are.
instance : DecidablePred Name := fun word =>
  have : Decidable (∀ c ∈ word.toList, isNameChar c = true) := List.decidableBAll _ _
  inferInstanceAs (Decidable (_ ∧ _))

def unsigned : List Char → List Char
  | '-' :: digits => digits
  | digits => digits

def isNumeralChar (c : Char) : Bool := c = '-' || c.isDigit

def Numeral (word : String) : Prop :=
  unsigned word.toList ≠ [] ∧ ∀ c ∈ unsigned word.toList, c.isDigit = true

instance : DecidablePred Numeral := fun word =>
  have : Decidable (∀ c ∈ unsigned word.toList, c.isDigit = true) := List.decidableBAll _ _
  inferInstanceAs (Decidable (_ ∧ _))

/-- The operand is of a known shape, and its names and numbers are written as such. -/
def Operand.Legible : Operand → Prop
  | .register name | .pointed name => Name name
  | .scaled base index _ => Name base ∧ Name index
  | .integer digits => Numeral digits
  | .text label => Name label
  | .unknown => False

instance : DecidablePred Operand.Legible
  | .register name | .pointed name => inferInstanceAs (Decidable (Name name))
  | .scaled base index _ => inferInstanceAs (Decidable (Name base ∧ Name index))
  | .integer digits => inferInstanceAs (Decidable (Numeral digits))
  | .text label => inferInstanceAs (Decidable (Name label))
  | .unknown => inferInstanceAs (Decidable False)

mutual

def Instr.Legible : Instr → Prop
  | .add first second | .sub first second | .mov first second | .cmp first second =>
    first.Legible ∧ second.Legible
  | .mul operand | .div operand | .neg operand | .push operand | .pop operand => operand.Legible
  | .call target | .jmp target | .jne target => Name target
  | .label name body => Name name ∧ LegibleAll body
  | .ret | .declare _ => True
  | .unknown => False

def LegibleAll : List Instr → Prop
  | [] => True
  | instr :: rest => instr.Legible ∧ LegibleAll rest

end

mutual

instance Instr.decideLegible : DecidablePred Instr.Legible
  | .add first second | .sub first second | .mov first second | .cmp first second =>
    inferInstanceAs (Decidable (first.Legible ∧ second.Legible))
  | .mul operand | .div operand | .neg operand | .push operand | .pop operand =>
    inferInstanceAs (Decidable operand.Legible)
  | .call target | .jmp target | .jne target => inferInstanceAs (Decidable (Name target))
  | .label name body =>
    have := decideLegibleAll body
    inferInstanceAs (Decidable (Name name ∧ LegibleAll body))
  | .ret | .declare _ => inferInstanceAs (Decidable True)
  | .unknown => inferInstanceAs (Decidable False)

instance decideLegibleAll : DecidablePred LegibleAll
  | [] => inferInstanceAs (Decidable True)
  | instr :: rest =>
    have := instr.decideLegible
    have := decideLegibleAll rest
    inferInstanceAs (Decidable (instr.Legible ∧ LegibleAll rest))

end

/-- The scale that was not given is put in. -/
def Operand.explicit : Operand → Operand
  | .scaled base index scale => .scaled base index (if scale = 0 then defaultScale else scale)
  | operand => operand

mutual

def Instr.explicit : Instr → Instr
  | .add dst src => .add dst.explicit src.explicit
  | .sub dst src => .sub dst.explicit src.explicit
  | .mul src => .mul src.explicit
  | .div src => .div src.explicit
  | .neg dst => .neg dst.explicit
  | .mov dst src => .mov dst.explicit src.explicit
  | .push src => .push src.explicit
  | .pop dst => .pop dst.explicit
  | .cmp first second => .cmp first.explicit second.explicit
  | .label name body => .label name (explicitAll body)
  | .call target => .call target
  | .jmp target => .jmp target
  | .jne target => .jne target
  | .declare text => .declare text
  | .ret => .ret
  | .unknown => .unknown

def explicitAll : List Instr → List Instr
  | [] => []
  | instr :: rest => instr.explicit :: explicitAll rest

end

theorem legibleAll_iff {code : List Instr} : LegibleAll code ↔ ∀ instr ∈ code, instr.Legible := by
  induction code with
  | nil => simp [LegibleAll]
  | cons instr code ih => rw [LegibleAll, ih, List.forall_mem_cons]

theorem explicitAll_eq_map (code : List Instr) : explicitAll code = code.map Instr.explicit := by
  induction code with
  | nil => rfl
  | cons instr code ih => rw [explicitAll, ih, List.map_cons]

inductive Argument where
  | operand (value : Operand)
  | target (label : String)
  | text (value : String)

namespace Argument

def render : Argument → String
  | operand value => value.render
  | target label => label
  | text value => quote value

def Legible : Argument → Prop
  | operand value => value.Legible
  | target label => Name label
  | text _ => True

def explicit : Argument → Argument
  | operand value => operand value.explicit
  | target label => target label
  | text value => text value

end Argument

/-- The mnemonic of an instruction, and its arguments in the order in which they are written. A
label has neither. -/
def Instr.parts : Instr → String × List Argument
  | .add dst src => ("addq", [.operand src, .operand dst])
  | .sub dst src => ("subq", [.operand src, .operand dst])
  | .mul src => ("mulq", [.operand src])
  | .div src => ("divq", [.operand src])
  | .neg dst => ("negq", [.operand dst])
  | .mov dst src => ("movq", [.operand src, .operand dst])
  | .call target => ("call", [.target target])
  | .push src => ("push", [.operand src])
  | .pop dst => ("pop", [.operand dst])
  | .ret => ("ret", [])
  | .cmp first second => ("cmp", [.operand second, .operand first])
  | .jmp target => ("jmp", [.target target])
  | .jne target => ("jne", [.target target])
  | .declare text => (".string", [.text text])
  | .label .. | .unknown => ("", [])

def Instr.ofParts : String × List Argument → Instr
  | ("addq", [.operand src, .operand dst]) => .add dst src
  | ("subq", [.operand src, .operand dst]) => .sub dst src
  | ("mulq", [.operand src]) => .mul src
  | ("divq", [.operand src]) => .div src
  | ("negq", [.operand dst]) => .neg dst
  | ("movq", [.operand src, .operand dst]) => .mov dst src
  | ("call", [.target target]) => .call target
  | ("push", [.operand src]) => .push src
  | ("pop", [.operand dst]) => .pop dst
  | ("ret", []) => .ret
  | ("cmp", [.operand second, .operand first]) => .cmp first second
  | ("jmp", [.target target]) => .jmp target
  | ("jne", [.target target]) => .jne target
  | (".string", [.text text]) => .declare text
  | _ => .unknown

def Instr.IsLine : Instr → Prop
  | .label .. => False
  | _ => True

theorem Instr.label_induction {P : Instr → Prop} (line : ∀ instr, instr.IsLine → P instr)
    (label : ∀ name body, (∀ instr ∈ body, P instr) → P (.label name body)) :
    (instr : Instr) → P instr
  | .label name body => label name body fun instr _ => label_induction line label instr
  | .add .. | .sub .. | .mul _ | .div _ | .neg _ | .mov .. | .call _ | .push _ | .pop _ | .ret
  | .cmp .. | .jmp _ | .jne _ | .declare _ | .unknown => line _ trivial

section
variable {instr : Instr}

theorem Instr.ofParts_parts (line : instr.IsLine) : ofParts instr.parts = instr := by
  cases instr with
  | label => exact line.elim
  | add | sub | mul | div | neg | mov | call | push | pop | ret | cmp | jmp | jne => rfl
  | declare | unknown => rfl

theorem Instr.parts_explicit (instr : Instr) :
    instr.explicit.parts = (instr.parts.1, instr.parts.2.map Argument.explicit) := by
  cases instr with
  | add | sub | mul | div | neg | mov | call | push | pop | ret | cmp | jmp | jne => rfl
  | label | declare | unknown => rfl

theorem Instr.isLine_explicit (line : instr.IsLine) : instr.explicit.IsLine := by
  cases instr with
  | label => exact line.elim
  | add | sub | mul | div | neg | mov | call | push | pop | ret | cmp | jmp | jne => trivial
  | declare | unknown => trivial

theorem Instr.legible_parts (legible : instr.Legible) :
    ∀ argument ∈ instr.parts.2, argument.Legible := by
  cases instr with
  | add | sub | mov | cmp => simpa [parts, Argument.Legible, Legible, and_comm] using legible
  | mul | div | neg | call | push | pop | jmp | jne =>
    simpa [parts, Argument.Legible, Legible] using legible
  | ret | label | declare | unknown => simp [parts, Argument.Legible]

end

section
variable {rest more : List Char}

theorem Name.exists_cons {word : String} (name : Name word) :
    ∃ c tail, word.toList = c :: tail ∧ isNameChar c = true := by
  obtain ⟨nonempty, written⟩ := name
  obtain ⟨c, tail, chars⟩ := List.exists_cons_of_ne_nil (mt String.toList_eq_nil_iff.mp nonempty)
  exact ⟨c, tail, chars, written c (by simp [chars])⟩

theorem Numeral.of_mem {word : String} (numeral : Numeral word) {c : Char}
    (member : c ∈ word.toList) : isNumeralChar c = true := by
  obtain ⟨_, digits⟩ := numeral
  have cases : c = '-' ∨ c.isDigit = true := by
    unfold unsigned at digits
    split at digits
    next rest chars =>
      rw [chars] at member
      exact (List.mem_cons.mp member).imp_right (digits c)
    next => exact Or.inr (digits c member)
  simpa [isNumeralChar] using cases

theorem Numeral.exists_cons {word : String} (numeral : Numeral word) :
    ∃ c tail, word.toList = c :: tail ∧ isNumeralChar c = true := by
  have nonempty : word.toList ≠ [] := by
    intro empty
    exact numeral.1 (by rw [empty]; rfl)
  obtain ⟨c, tail, chars⟩ := List.exists_cons_of_ne_nil nonempty
  exact ⟨c, tail, chars, numeral.of_mem (by simp [chars])⟩

theorem stop {c : Char} (free : isNameChar c = false) :
    ∀ d ∈ (c :: rest).head?, isNameChar d = false := by
  rintro d ⟨⟩
  exact free

theorem name_append_inj {word other : String} (name : Name word) (nameToo : Name other)
    (ends : ∀ c ∈ rest.head?, isNameChar c = false)
    (endsToo : ∀ c ∈ more.head?, isNameChar c = false)
    (same : word.toList ++ rest = other.toList ++ more) : word = other ∧ rest = more := by
  obtain ⟨chars, rests⟩ := run_append_inj name.2 nameToo.2 ends endsToo same
  exact ⟨String.toList_inj.mp chars, rests⟩

theorem numeral_append_inj {word other : String} (numeral : Numeral word)
    (numeralToo : Numeral other) (parted : Parted '\n' rest) (partedToo : Parted '\n' more)
    (same : word.toList ++ rest = other.toList ++ more) : word = other ∧ rest = more := by
  obtain ⟨chars, rests⟩ := run_append_inj (fun _ => numeral.of_mem) (fun _ => numeralToo.of_mem)
    (parted.ends rfl rfl) (partedToo.ends rfl rfl) same
  exact ⟨String.toList_inj.mp chars, rests⟩

theorem numeral_ne_address {word : String} (numeral : Numeral word) :
    word.toList ++ rest ≠ '_' :: more := by
  intro same
  obtain ⟨c, tail, chars, first⟩ := numeral.exists_cons
  rw [chars] at same
  rw [(List.cons.inj same).1] at first
  cases first

section
variable (name base index digits label : String) (scale : Int)

theorem toList_register : (Operand.register name).render.toList = '%' :: name.toList := by
  simp [Operand.render]

theorem toList_pointed :
    (Operand.pointed name).render.toList = '(' :: '%' :: (name.toList ++ [')']) := by
  simp [Operand.render]

theorem toList_scaled :
    (Operand.scaled base index scale).render.toList =
      '(' :: '%' :: (base.toList ++ ',' :: ' ' :: '%' :: (index.toList ++ ',' :: ' ' ::
        ((toString (if scale = 0 then defaultScale else scale)).toList ++ [')']))) := by
  simp [Operand.render]

theorem toList_integer : (Operand.integer digits).render.toList = '$' :: digits.toList := by
  simp [Operand.render]

theorem toList_text : (Operand.text label).render.toList =
    '$' :: '_' :: 's' :: 't' :: 'r' :: '_' :: label.toList := by
  simp [Operand.render]

end

/-- An operand is told from the text it opens. Its first character leaves two forms at most: behind
a parenthesis the register ends at a parenthesis or at a comma, and behind a dollar sign stands a
number or what no number starts with. -/
theorem operand_append_inj {operand other : Operand} (legible : operand.Legible)
    (legibleToo : other.Legible) (parted : Parted '\n' rest) (partedToo : Parted '\n' more)
    (same : operand.render.toList ++ rest = other.render.toList ++ more) :
    operand.explicit = other.explicit ∧ rest = more := by
  cases operand with
  | register name =>
    cases other with
    | register title =>
      simp only [toList_register, List.cons_append, List.cons.injEq, true_and] at same
      obtain ⟨rfl, rests⟩ := name_append_inj legible legibleToo (parted.ends rfl rfl)
        (partedToo.ends rfl rfl) same
      exact ⟨rfl, rests⟩
    | pointed | scaled | integer | text =>
      simp [toList_register, toList_pointed, toList_scaled, toList_integer, toList_text] at same
    | unknown => exact legibleToo.elim
  | pointed name =>
    simp only [toList_pointed, List.cons_append, List.append_assoc, List.nil_append] at same
    cases other with
    | pointed title =>
      simp only [toList_pointed, List.cons_append, List.append_assoc, List.nil_append,
        List.cons.injEq, true_and] at same
      obtain ⟨rfl, behind⟩ := name_append_inj legible legibleToo (stop rfl) (stop rfl) same
      exact ⟨rfl, (List.cons.inj behind).2⟩
    | scaled base index scale =>
      simp only [toList_scaled, List.cons_append, List.append_assoc, List.cons.injEq, true_and]
        at same
      cases (name_append_inj legible legibleToo.1 (stop rfl) (stop rfl) same).2
    | register | integer | text => simp [toList_register, toList_integer, toList_text] at same
    | unknown => exact legibleToo.elim
  | scaled base index scale =>
    simp only [toList_scaled, List.cons_append, List.append_assoc] at same
    cases other with
    | pointed title =>
      simp only [toList_pointed, List.cons_append, List.append_assoc, List.cons.injEq, true_and]
        at same
      cases (name_append_inj legible.1 legibleToo (stop rfl) (stop rfl) same).2
    | scaled start offset factor =>
      simp only [toList_scaled, List.cons_append, List.append_assoc, List.nil_append,
        List.cons.injEq, true_and] at same
      obtain ⟨rfl, second⟩ := name_append_inj legible.1 legibleToo.1 (stop rfl) (stop rfl) same
      simp only [List.cons.injEq, true_and] at second
      obtain ⟨rfl, third⟩ := name_append_inj legible.2 legibleToo.2 (stop rfl) (stop rfl) second
      simp only [List.cons.injEq, true_and] at third
      have free : ∀ number : Int, ')' ∉ (toString number).toList :=
        not_mem_numeral (by decide) (by decide)
      obtain ⟨numerals, rests⟩ := delimited_append_inj (free _) (free _) third
      exact ⟨by rw [Operand.explicit, Operand.explicit, numeral_inj numerals], rests⟩
    | register | integer | text => simp [toList_register, toList_integer, toList_text] at same
    | unknown => exact legibleToo.elim
  | integer digits =>
    simp only [toList_integer, List.cons_append] at same
    cases other with
    | integer number =>
      simp only [toList_integer, List.cons_append, List.cons.injEq, true_and] at same
      obtain ⟨rfl, rests⟩ := numeral_append_inj legible legibleToo parted partedToo same
      exact ⟨rfl, rests⟩
    | text label =>
      simp only [toList_text, List.cons_append, List.cons.injEq, true_and] at same
      exact absurd same (numeral_ne_address legible)
    | register | pointed | scaled => simp [toList_register, toList_pointed, toList_scaled] at same
    | unknown => exact legibleToo.elim
  | text label =>
    simp only [toList_text, List.cons_append] at same
    cases other with
    | integer number =>
      simp only [toList_integer, List.cons_append, List.cons.injEq, true_and] at same
      exact absurd same.symm (numeral_ne_address legibleToo)
    | text title =>
      simp only [toList_text, List.cons_append, List.cons.injEq, true_and] at same
      obtain ⟨rfl, rests⟩ := name_append_inj legible legibleToo (parted.ends rfl rfl)
        (partedToo.ends rfl rfl) same
      exact ⟨rfl, rests⟩
    | register | pointed | scaled => simp [toList_register, toList_pointed, toList_scaled] at same
    | unknown => exact legibleToo.elim
  | unknown => exact legible.elim

inductive Lead where
  | operand
  | target
  | text
deriving DecidableEq

def leadOf (c : Char) : Option Lead :=
  if isNameChar c then some .target
  else if c = '"' then some .text
  else if c = '%' ∨ c = '(' ∨ c = '$' then some .operand
  else none

def Argument.lead : Argument → Lead
  | .operand _ => .operand
  | .target _ => .target
  | .text _ => .text

theorem Argument.head_render {argument : Argument} (legible : argument.Legible) :
    ∃ c tail, argument.render.toList = c :: tail ∧ leadOf c = some argument.lead := by
  cases argument with
  | operand value =>
    cases value with
    | register name => exact ⟨'%', _, toList_register name, rfl⟩
    | pointed name => exact ⟨'(', _, toList_pointed name, rfl⟩
    | scaled base index scale => exact ⟨'(', _, toList_scaled base index scale, rfl⟩
    | integer digits => exact ⟨'$', _, toList_integer digits, rfl⟩
    | text label => exact ⟨'$', _, toList_text label, rfl⟩
    | unknown => exact legible.elim
  | target label =>
    obtain ⟨c, tail, chars, written⟩ := Name.exists_cons legible
    exact ⟨c, tail, chars, by simp [leadOf, written, lead]⟩
  | text value => exact ⟨'"', value.toList.flatMap escape ++ ['"'], by simp [render, quote], rfl⟩

theorem argument_append_inj {argument other : Argument} (legible : argument.Legible)
    (legibleToo : other.Legible) (parted : Parted '\n' rest) (partedToo : Parted '\n' more)
    (same : argument.render.toList ++ rest = other.render.toList ++ more) :
    argument.explicit = other.explicit ∧ rest = more := by
  have lead : argument.lead = other.lead := by
    obtain ⟨c, tail, chars, first⟩ := Argument.head_render legible
    obtain ⟨d, back, charsToo, firstToo⟩ := Argument.head_render legibleToo
    rw [chars, charsToo] at same
    rw [(List.cons.inj same).1, firstToo] at first
    exact (Option.some.inj first).symm
  cases argument with
  | operand value =>
    cases other with
    | operand another =>
      obtain ⟨values, rests⟩ := operand_append_inj legible legibleToo parted partedToo same
      exact ⟨congrArg Argument.operand values, rests⟩
    | target | text => cases lead
  | target label =>
    cases other with
    | target title =>
      obtain ⟨rfl, rests⟩ := name_append_inj legible legibleToo (parted.ends rfl rfl)
        (partedToo.ends rfl rfl) same
      exact ⟨rfl, rests⟩
    | operand | text => cases lead
  | text value =>
    cases other with
    | text another =>
      obtain ⟨rfl, rests⟩ := quote_append_inj same
      exact ⟨rfl, rests⟩
    | operand | target => cases lead

def argumentText : List Argument → List Char
  | [] => []
  | arguments => ' ' :: (", ".intercalate (arguments.map Argument.render)).toList

theorem arguments_append_inj {arguments others : List Argument}
    (legible : ∀ argument ∈ arguments, argument.Legible)
    (legibleToo : ∀ argument ∈ others, argument.Legible)
    (same : argumentText arguments ++ '\n' :: rest = argumentText others ++ '\n' :: more) :
    arguments.map Argument.explicit = others.map Argument.explicit ∧ rest = more := by
  have opens : ∀ argument ∈ arguments ++ others,
      ∃ c tail, argument.render.toList = c :: tail ∧ c ≠ '\n' := by
    intro argument member
    have fine := List.forall_mem_append.mpr ⟨legible, legibleToo⟩ argument member
    obtain ⟨c, tail, chars, first⟩ := Argument.head_render fine
    refine ⟨c, tail, chars, ?_⟩
    rintro rfl
    cases first
  have each := fun argument member other memberToo text behind =>
    @argument_append_inj text behind argument other (legible argument member)
      (legibleToo other memberToo)
  cases arguments with
  | nil =>
    cases others with
    | nil => exact ⟨rfl, (List.cons.inj same).2⟩
    | cons other others => cases (List.cons.inj same).1
  | cons argument arguments =>
    cases others with
    | nil => cases (List.cons.inj same).1
    | cons other others =>
      exact joined_append_inj Argument.explicit (by decide) opens each (List.cons.inj same).2

end

def isOpening (c : Char) : Bool := isNameChar c || c = '.'

def Opening (word : String) : Prop := word ≠ "" ∧ ∀ c ∈ word.toList, isOpening c = true

theorem opening_of_name {word : String} (name : Name word) : Opening word :=
  ⟨name.1, fun c member => by simp [isOpening, name.2 c member]⟩

theorem toList_margin (level : Nat) : (indent "\t" level).toList = List.replicate level '\t' := by
  simpa using @toList_indent "\t" '\t' 1 rfl level

theorem argumentText_ends (arguments : List Argument) (rest : List Char) :
    ∃ c tail, argumentText arguments ++ '\n' :: rest = c :: tail ∧
      isOpening c = false ∧ c ≠ ':' := by
  cases arguments with
  | nil => exact ⟨'\n', rest, rfl, rfl, by decide⟩
  | cons argument arguments => exact ⟨' ', _, rfl, rfl, by decide⟩

section
variable {instr other : Instr} {level : Nat} {rest more : List Char}

theorem opening_mnemonic (line : instr.IsLine) (legible : instr.Legible) :
    Opening instr.parts.1 := by
  cases instr with
  | label => exact line.elim
  | unknown => exact legible.elim
  | add | sub | mul | div | neg | mov | call | push | pop | ret | cmp | jmp | jne | declare =>
    simp [Instr.parts, Opening, isOpening, isNameChar, Char.isAlphanum, Char.isAlpha, Char.isLower]

theorem toList_line (line : instr.IsLine) (legible : instr.Legible) (level : Nat) :
    (instr.lines level).toList = List.replicate level '\t' ++
      (instr.parts.1.toList ++ (argumentText instr.parts.2 ++ ['\n'])) := by
  cases instr with
  | label => exact line.elim
  | unknown => exact legible.elim
  | add | sub | mul | div | neg | mov | call | push | pop | ret | cmp | jmp | jne | declare =>
    simp [Instr.lines, Instr.render, Instr.parts, argumentText, Argument.render, toList_margin]

theorem toList_label (name : String) (body : List Instr) (level : Nat) :
    ((Instr.label name body).lines level).toList = List.replicate level '\t' ++
      (name.toList ++ ':' :: '\n' :: (linesAll (level + 1) body).toList) := by
  simp [Instr.lines, toList_margin]

theorem toList_linesAll (level : Nat) (code : List Instr) :
    (linesAll level code).toList = code.flatMap fun instr => (instr.lines level).toList := by
  induction code with
  | nil => rfl
  | cons instr code ih => rw [linesAll, String.toList_append, ih, List.flatMap_cons]

theorem Instr.label_or_line (instr : Instr) :
    (∃ name body, instr = .label name body) ∨ instr.IsLine := by
  cases instr with
  | label name body => exact Or.inl ⟨name, body, rfl⟩
  | add | sub | mul | div | neg | mov | call | push | pop | ret | cmp | jmp | jne =>
    exact Or.inr trivial
  | declare | unknown => exact Or.inr trivial

/-- Behind the margin stands an opening word, and the character that ends it is a colon for a label
only. -/
theorem exists_opening (legible : instr.Legible) (level : Nat) :
    ∃ word c tail, Opening word ∧ isOpening c = false ∧ (c = ':' ↔ ¬ instr.IsLine) ∧
      (instr.lines level).toList = List.replicate level '\t' ++ (word.toList ++ c :: tail) := by
  rcases instr.label_or_line with ⟨name, body, rfl⟩ | line
  · exact ⟨name, ':', _, opening_of_name legible.1, rfl, by simp [Instr.IsLine],
      toList_label name body level⟩
  · obtain ⟨c, tail, text, ends, colon⟩ := argumentText_ends instr.parts.2 []
    refine ⟨instr.parts.1, c, tail, opening_mnemonic line legible, ends, ?_, ?_⟩
    · exact iff_of_false colon (not_not_intro line)
    · rw [toList_line line legible, text]

theorem indented_lines (legible : instr.Legible) (level : Nat) :
    Indented '\t' level (instr.lines level).toList := by
  obtain ⟨word, c, tail, ⟨nonempty, opening⟩, _, _, text⟩ := exists_opening legible level
  obtain ⟨d, back, chars⟩ := List.exists_cons_of_ne_nil (mt String.toList_eq_nil_iff.mp nonempty)
  refine ⟨d, _, ?_, by rw [text, chars, List.cons_append]⟩
  rintro rfl
  cases opening '\t' (by simp [chars])

theorem isLine_iff (legible : instr.Legible) (legibleToo : other.Legible)
    (same : (instr.lines level).toList ++ rest = (other.lines level).toList ++ more) :
    instr.IsLine ↔ other.IsLine := by
  obtain ⟨word, c, tail, opening, ends, colon, text⟩ := exists_opening legible level
  obtain ⟨title, d, back, openingToo, endsToo, colonToo, textToo⟩ := exists_opening legibleToo level
  simp only [text, textToo, List.append_assoc, List.append_cancel_left_eq, List.cons_append] at same
  obtain ⟨_, behind⟩ := run_append_inj opening.2 openingToo.2 (by simpa using ends)
    (by simpa using endsToo) same
  rw [(List.cons.inj behind).1] at colon
  exact not_iff_not.mp (colon.symm.trans colonToo)

theorem line_append_inj (line : instr.IsLine) (lineToo : other.IsLine) (legible : instr.Legible)
    (legibleToo : other.Legible)
    (same : (instr.lines level).toList ++ rest = (other.lines level).toList ++ more) :
    instr.explicit = other.explicit ∧ rest = more := by
  simp only [toList_line line legible, toList_line lineToo legibleToo, List.append_assoc,
    List.append_cancel_left_eq, List.cons_append, List.nil_append] at same
  have ends : ∀ (arguments : List Argument) (behind : List Char),
      ∀ c ∈ (argumentText arguments ++ '\n' :: behind).head?, isOpening c = false := by
    intro arguments behind c first
    obtain ⟨d, tail, text, stop, _⟩ := argumentText_ends arguments behind
    rw [text] at first
    cases first
    exact stop
  obtain ⟨words, behind⟩ := run_append_inj (opening_mnemonic line legible).2
    (opening_mnemonic lineToo legibleToo).2 (ends _ _) (ends _ _) same
  obtain ⟨arguments, rests⟩ :=
    arguments_append_inj (Instr.legible_parts legible) (Instr.legible_parts legibleToo) behind
  have parts : instr.explicit.parts = other.explicit.parts := by
    rw [Instr.parts_explicit, Instr.parts_explicit, String.toList_inj.mp words, arguments]
  refine ⟨?_, rests⟩
  rw [← Instr.ofParts_parts (Instr.isLine_explicit line), parts,
    Instr.ofParts_parts (Instr.isLine_explicit lineToo)]

end

/-- The instruction is told from every text that its lines open, where the text behind them is not
indented deeper. -/
def Told (instr : Instr) : Prop :=
  ∀ (other : Instr) (level : Nat) (rest more : List Char), instr.Legible → other.Legible →
    Outdented '\t' (level + 1) rest → Outdented '\t' (level + 1) more →
    (instr.lines level).toList ++ rest = (other.lines level).toList ++ more →
    instr.explicit = other.explicit ∧ rest = more

theorem linesAll_append_inj {code others : List Instr} {level : Nat} {rest more : List Char}
    (told : ∀ instr ∈ code, Told instr) (legible : LegibleAll code)
    (legibleToo : LegibleAll others) (outdented : Outdented '\t' level rest)
    (outdentedToo : Outdented '\t' level more)
    (same : (linesAll level code).toList ++ rest = (linesAll level others).toList ++ more) :
    explicitAll code = explicitAll others ∧ rest = more := by
  rw [legibleAll_iff] at legible legibleToo
  rw [toList_linesAll, toList_linesAll] at same
  have indented : ∀ instr ∈ code ++ others, Indented '\t' level (instr.lines level).toList := by
    intro instr member
    exact indented_lines (List.forall_mem_append.mpr ⟨legible, legibleToo⟩ instr member) level
  rw [explicitAll_eq_map, explicitAll_eq_map]
  exact block_append_inj Instr.explicit indented
    (fun instr member other memberToo text behind =>
      told instr member other level text behind (legible instr member) (legibleToo other memberToo))
    outdented outdentedToo same

/-- The body of a label ends where the text behind it is less indented than the body. -/
theorem told_instr (instr : Instr) : Told instr := by
  induction instr using Instr.label_induction with
  | line instr line =>
    intro other level rest more legible legibleToo _ _ same
    have lineToo := (isLine_iff legible legibleToo same).mp line
    exact line_append_inj line lineToo legible legibleToo same
  | label name body ih =>
    intro other level rest more legible legibleToo outdented outdentedToo same
    rcases other.label_or_line with ⟨title, block, rfl⟩ | lineToo
    · simp only [toList_label, List.append_assoc, List.append_cancel_left_eq, List.cons_append]
        at same
      obtain ⟨rfl, behind⟩ := name_append_inj legible.1 legibleToo.1 (stop rfl) (stop rfl) same
      simp only [List.cons.injEq, true_and] at behind
      obtain ⟨bodies, rests⟩ :=
        linesAll_append_inj ih legible.2 legibleToo.2 outdented outdentedToo behind
      exact ⟨by rw [Instr.explicit, Instr.explicit, bodies], rests⟩
    · exact ((isLine_iff legible legibleToo same).mpr lineToo).elim

theorem render_explicit (operand : Operand) : operand.explicit.render = operand.render := by
  cases operand with
  | scaled base index scale =>
    by_cases none : scale = 0
    · simp [Operand.explicit, Operand.render, none, defaultScale]
    · simp [Operand.explicit, Operand.render, none]
  | register | pointed | integer | text | unknown => rfl

theorem linesAll_explicit {level : Nat} {body : List Instr}
    (same : ∀ instr ∈ body, instr.explicit.lines level = instr.lines level) :
    linesAll level (explicitAll body) = linesAll level body := by
  induction body with
  | nil => rfl
  | cons instr body ih =>
    rw [List.forall_mem_cons] at same
    rw [explicitAll, linesAll, linesAll, same.1, ih same.2]

theorem lines_explicit (instr : Instr) (level : Nat) :
    instr.explicit.lines level = instr.lines level := by
  induction instr using Instr.label_induction generalizing level with
  | line instr line =>
    cases instr with
    | label => exact line.elim
    | add | sub | mul | div | neg | mov | push | pop | cmp =>
      simp only [Instr.explicit, Instr.lines, Instr.render, render_explicit]
    | call | ret | jmp | jne | declare | unknown => rfl
  | label name body ih =>
    have inner := linesAll_explicit fun instr member => ih instr member (level + 1)
    rw [Instr.explicit, Instr.lines, Instr.lines, inner]

theorem listing_explicit (program : List Instr) : listing (explicitAll program) = listing program :=
  linesAll_explicit fun instr _ => lines_explicit instr 0

/-- Programs with written names and numbers have the same listing exactly if they are the same once
every scale is given. -/
theorem same_listing_iff_same_explicit {program other : List Instr} (legible : LegibleAll program)
    (legibleToo : LegibleAll other) :
    listing program = listing other ↔ explicitAll program = explicitAll other := by
  constructor
  · intro same
    have ends : Outdented '\t' 0 [] := fun nonempty => absurd rfl nonempty
    have chars := congrArg (fun text => text.toList ++ []) same
    exact (linesAll_append_inj (fun instr _ => told_instr instr) legible legibleToo ends ends chars).1
  · intro same
    rw [← listing_explicit program, same, listing_explicit other]

/-- A jump at the end of a nested block and the same jump behind the block, below a label that is
named like an instruction; a scale that is given in one program only; a declared text that looks
like the header of a label. -/
theorem jump_told_from_sequel :
    let load (scale : Int) := Instr.mov (.register "c") (.scaled "a" "b" scale)
    let front (scale : Int) := [Instr.declare "\n\tx:", load scale, .cmp (.integer "-1") (.text "1")]
    let nested (scale : Int) := [Instr.label "ret" [.label "x" (front scale ++ [.jne "x"]), .ret]]
    let sequel := [Instr.label "ret" [.label "x" (front 8), .jne "x", .ret]]
    LegibleAll (nested 0) ∧ LegibleAll (nested 8) ∧ LegibleAll sequel ∧
      listing (nested 0) = listing (nested 8) ∧ listing (nested 0) ≠ listing sequel := by
  intro load front nested sequel
  have zero : LegibleAll (nested 0) := by decide
  have eight : LegibleAll (nested 8) := by decide
  have flat : LegibleAll sequel := by decide
  refine ⟨zero, eight, flat, (same_listing_iff_same_explicit zero eight).mpr rfl, fun same => ?_⟩
  have equal := (same_listing_iff_same_explicit zero flat).mp same
  simp [nested, sequel, front, explicitAll, Instr.explicit] at equal

end SnakeFront.Assembly
