import Mathlib
import SnakeFront.Text.Indent
import SnakeFront.Text.Quoted

/-! Texts that tell where their parts end. A word ends at the first character it cannot hold, a
quoted text at the first quote that is not escaped, and an indented block at the first line further
out. For each, what is written in front of some rest is told from the whole, and so is the rest. -/
namespace SnakeFront.Text

section
variable {word other rest more : List Char}

/-- A run is told from the text it opens if the text behind it does not go on with it. -/
theorem run_append_inj {p : Char → Bool} (within : ∀ c ∈ word, p c = true)
    (without : ∀ c ∈ other, p c = true) (ends : ∀ c ∈ rest.head?, p c = false)
    (endsToo : ∀ c ∈ more.head?, p c = false) (same : word ++ rest = other ++ more) :
    word = other ∧ rest = more := by
  have stops : ∀ {behind : List Char}, (∀ c ∈ behind.head?, p c = false) →
      behind.takeWhile p = [] := by
    intro behind ends
    cases behind with
    | nil => rfl
    | cons c tail => simp [ends c rfl]
  have runs := congrArg (List.takeWhile p) same
  rw [List.takeWhile_append_of_pos within, List.takeWhile_append_of_pos without, stops ends,
    stops endsToo, List.append_nil, List.append_nil] at runs
  subst runs
  exact ⟨rfl, List.append_cancel_left same⟩

theorem delimited_append_inj {stop : Char} (within : stop ∉ word) (without : stop ∉ other)
    (same : word ++ stop :: rest = other ++ stop :: more) : word = other ∧ rest = more := by
  have free : ∀ {word : List Char}, stop ∉ word → ∀ c ∈ word, decide (c ≠ stop) = true := by
    rintro word without c member
    have different : c ≠ stop := by
      rintro rfl
      exact without member
    simpa using different
  obtain ⟨rfl, behind⟩ := run_append_inj (free within) (free without) (by simp) (by simp) same
  exact ⟨rfl, (List.cons.inj behind).2⟩

end

theorem mem_numeral {number : Int} {c : Char} (member : c ∈ (toString number).toList) :
    c = '-' ∨ c.isDigit = true := by
  have natural : ∀ n : Nat, c ∈ n.repr.toList → c.isDigit = true := by
    intro n digit
    rw [Nat.repr_eq_ofList_toDigits, String.toList_ofList] at digit
    exact Nat.isDigit_of_mem_toDigits (by decide) (by decide) digit
  rw [Int.toString_eq_repr, Int.repr_eq_if] at member
  split at member
  · exact Or.inr (natural _ member)
  · rw [String.toList_append, List.mem_append] at member
    rcases member with sign | digit
    · exact Or.inl (by simpa using sign)
    · exact Or.inr (natural _ digit)

theorem not_mem_numeral {c : Char} (sign : c ≠ '-') (digit : c.isDigit = false) (number : Int) :
    c ∉ (toString number).toList := by
  intro member
  rcases mem_numeral member with same | same
  · exact sign same
  · exact Bool.noConfusion (digit.symm.trans same)

theorem numeral_inj {number other : Int}
    (same : (toString number).toList = (toString other).toList) : number = other := by
  simp only [String.toList_inj, Int.toString_eq_repr] at same
  exact Int.repr_injective same

/-! A reader for the characters of a quoted text. -/

def hexValue (c : Char) : Nat := "0123456789abcdef".toList.idxOf c

def readHex (digits : List Char) : Nat :=
  digits.foldl (fun value c => 16 * value + hexValue c) 0

def escapeWidth (letter : Char) : Option Nat :=
  if letter = 'x' then some 2 else if letter = 'u' then some 4
  else if letter = 'U' then some 8 else none

def readEscape (letter : Char) (rest : List Char) : Char × List Char :=
  match escapeWidth letter with
  | some width => (Char.ofNat (readHex (rest.take width)), rest.drop width)
  | none =>
    match controlLetters.find? (·.2 = letter) with
    | some control => (Char.ofNat control.1, rest)
    | none => (letter, rest)

def readChar : List Char → Option (Char × List Char)
  | [] => none
  | c :: rest =>
    if c = '\\' then
      match rest with
      | [] => none
      | letter :: behind => some (readEscape letter behind)
    else some (c, rest)

section
variable {rest more : List Char}

theorem hexValue_hexDigit : ∀ n < 16, hexValue (hexDigit n) = n := by decide

theorem length_hexDigits (width n : Nat) : (hexDigits width n).length = width := by
  induction width generalizing n with
  | zero => rfl
  | succ width ih => simp [hexDigits, ih]

theorem readHex_hexDigits {width n : Nat} (fits : n < 16 ^ width) :
    readHex (hexDigits width n) = n := by
  induction width generalizing n with
  | zero =>
    have zero : n = 0 := by simpa using fits
    exact zero.symm
  | succ width ih =>
    have front : n / 16 < 16 ^ width := by
      rw [Nat.pow_succ] at fits
      omega
    have last := hexValue_hexDigit (n % 16) (Nat.mod_lt n (by decide))
    have value := ih front
    unfold readHex at value ⊢
    simp only [hexDigits, List.foldl_append, value, List.foldl_cons, List.foldl_nil, last]
    omega

theorem readEscape_hexDigits {letter : Char} {width : Nat} (known : escapeWidth letter = some width)
    {c : Char} (fits : c.toNat < 16 ^ width) (rest : List Char) :
    readEscape letter (hexDigits width c.toNat ++ rest) = (c, rest) := by
  have count := length_hexDigits width c.toNat
  have digits : (hexDigits width c.toNat ++ rest).take width = hexDigits width c.toNat :=
    List.take_left' count
  have behind : (hexDigits width c.toNat ++ rest).drop width = rest := List.drop_left' count
  simp only [readEscape, known, digits, behind, readHex_hexDigits fits, Char.ofNat_toNat]

theorem readEscape_control {c letter : Char} (found : controlLetters.lookup c.toNat = some letter)
    (rest : List Char) : readEscape letter rest = (c, rest) := by
  have each : ∀ control ∈ controlLetters, escapeWidth control.2 = none ∧
      controlLetters.find? (·.2 = control.2) = some control := by decide
  obtain ⟨before, after, table, _⟩ := List.lookup_eq_some_iff.mp found
  obtain ⟨none, first⟩ := each (c.toNat, letter) (by simp [table])
  simp only [readEscape, none, first, Char.ofNat_toNat]

theorem readChar_escapeCode (c : Char) (rest : List Char) :
    readChar (escapeCode c.toNat ++ rest) = some (c, rest) := by
  have digits : ∀ letter width, escapeWidth letter = some width → c.toNat < 16 ^ width →
      readChar ('\\' :: letter :: hexDigits width c.toNat ++ rest) = some (c, rest) :=
    fun _ _ known fits => congrArg some (readEscape_hexDigits known fits rest)
  unfold escapeCode
  split
  next letter found => exact congrArg some (readEscape_control found rest)
  next missing =>
    split
    next low => exact digits 'x' 2 rfl (by omega)
    next high =>
      split
      next basic => exact digits 'u' 4 rfl (by omega)
      next beyond => exact digits 'U' 8 rfl c.val.toNat_lt

theorem readChar_escape (c : Char) (rest : List Char) :
    readChar (escape c ++ rest) = some (c, rest) := by
  unfold escape
  split
  next mark => rcases mark with rfl | rfl <;> rfl
  next plain =>
    split
    next => simp [readChar, (not_or.mp plain).2]
    next => exact readChar_escapeCode c rest

theorem escape_append_inj {c d : Char} (same : escape c ++ rest = escape d ++ more) :
    c = d ∧ rest = more := by
  have read := readChar_escape c rest
  rw [same, readChar_escape] at read
  obtain ⟨rfl, rfl⟩ := Prod.mk.inj (Option.some.inj read)
  exact ⟨rfl, rfl⟩

/-- No escape starts with a quote, so the quote behind a text is not taken for one of its own. -/
theorem escape_ne_quote (c : Char) : escape c ++ rest ≠ '"' :: more := by
  intro same
  have read := readChar_escape c rest
  rw [same] at read
  obtain ⟨rfl, rfl⟩ := Prod.mk.inj (Option.some.inj read)
  cases same

theorem escaped_append_inj {text other : List Char}
    (same : text.flatMap escape ++ '"' :: rest = other.flatMap escape ++ '"' :: more) :
    text = other ∧ rest = more := by
  induction text generalizing other with
  | nil =>
    cases other with
    | nil => exact ⟨rfl, (List.cons.inj same).2⟩
    | cons d other =>
      rw [List.flatMap_cons, List.append_assoc] at same
      exact absurd same.symm (escape_ne_quote d)
  | cons c text ih =>
    rw [List.flatMap_cons, List.append_assoc] at same
    cases other with
    | nil => exact absurd same (escape_ne_quote c)
    | cons d other =>
      rw [List.flatMap_cons, List.append_assoc] at same
      obtain ⟨rfl, behind⟩ := escape_append_inj same
      obtain ⟨rfl, rests⟩ := ih behind
      exact ⟨rfl, rests⟩

theorem quote_append_inj {text other : String}
    (same : (quote text).toList ++ rest = (quote other).toList ++ more) :
    text = other ∧ rest = more := by
  simp only [quote, String.toList_ofList, List.cons_append, List.append_assoc,
    List.cons.injEq, true_and, List.nil_append] at same
  obtain ⟨chars, rests⟩ := escaped_append_inj same
  exact ⟨String.toList_inj.mp chars, rests⟩

end

def margin (c : Char) (text : List Char) : Nat := (text.takeWhile (· = c)).length

/-- The text ends, or goes on with a line whose margin is narrower. -/
def Outdented (c : Char) (width : Nat) (text : List Char) : Prop :=
  text ≠ [] → margin c text < width

theorem margin_replicate {c d : Char} (different : d ≠ c) (width : Nat) (rest : List Char) :
    margin c (List.replicate width c ++ d :: rest) = width := by
  induction width with
  | zero => simp [margin, different]
  | succ width ih => simpa [margin, List.replicate_succ] using ih

theorem Outdented.wider {c : Char} {width wider : Nat} {text : List Char}
    (outdented : Outdented c width text) (more : width ≤ wider) : Outdented c wider text :=
  fun nonempty => Nat.lt_of_lt_of_le (outdented nonempty) more

theorem toList_indent {unit : String} {c : Char} {width : Nat}
    (made : unit.toList = List.replicate width c) (level : Nat) :
    (indent unit level).toList = List.replicate (width * level) c := by
  induction level with
  | zero => rfl
  | succ level ih =>
    simp only [indent, String.toList_join] at ih ⊢
    rw [List.replicate_succ, List.flatMap_cons, ih, made, List.replicate_append_replicate,
      Nat.mul_succ, Nat.add_comm]

def Indented (c : Char) (width : Nat) (text : List Char) : Prop :=
  ∃ d tail, d ≠ c ∧ text = List.replicate width c ++ d :: tail

section
variable {α β : Type} {lines : α → List Char} {c : Char} {width : Nat}
  {items others : List α} {text rest more : List Char}

theorem Indented.margin_append (indented : Indented c width text) (rest : List Char) :
    text ++ rest ≠ [] ∧ margin c (text ++ rest) = width := by
  obtain ⟨d, tail, different, rfl⟩ := indented
  rw [List.append_assoc, List.cons_append]
  exact ⟨by simp, margin_replicate different width _⟩

theorem Indented.ne_outdented (indented : Indented c width text)
    (outdented : Outdented c width rest) (more : List Char) : text ++ more ≠ rest := by
  rintro rfl
  obtain ⟨nonempty, margin⟩ := indented.margin_append more
  exact absurd (outdented nonempty) (by omega)

theorem outdented_block (indented : ∀ item ∈ items, Indented c width (lines item))
    (outdented : Outdented c width rest) :
    Outdented c (width + 1) (items.flatMap lines ++ rest) := by
  cases items with
  | nil => exact outdented.wider (by omega)
  | cons item items =>
    intro _
    have here := (indented item (by simp)).margin_append (items.flatMap lines ++ rest)
    rw [List.flatMap_cons, List.append_assoc, here.2]
    omega

/-- Items below each other at one margin: if each is told from the text it opens, wherever what
follows is not indented deeper, then so are the items of a block, which ends where the text is
outdented. -/
theorem block_append_inj (told : α → β)
    (indented : ∀ item ∈ items ++ others, Indented c width (lines item))
    (each : ∀ item ∈ items, ∀ other ∈ others, ∀ text behind, Outdented c (width + 1) text →
      Outdented c (width + 1) behind → lines item ++ text = lines other ++ behind →
      told item = told other ∧ text = behind)
    (outdented : Outdented c width rest) (outdentedToo : Outdented c width more)
    (same : items.flatMap lines ++ rest = others.flatMap lines ++ more) :
    items.map told = others.map told ∧ rest = more := by
  induction items generalizing others with
  | nil =>
    cases others with
    | nil => exact ⟨rfl, same⟩
    | cons other others =>
      rw [List.flatMap_cons, List.append_assoc] at same
      exact absurd same.symm ((indented other (by simp)).ne_outdented outdented _)
  | cons item items ih =>
    cases others with
    | nil =>
      rw [List.flatMap_cons, List.append_assoc] at same
      exact absurd same ((indented item (by simp)).ne_outdented outdentedToo _)
    | cons other others =>
      simp only [List.flatMap_cons, List.append_assoc] at same
      have later : ∀ next ∈ items, Indented c width (lines next) :=
        fun next member => indented next (by simp [member])
      have laterToo : ∀ next ∈ others, Indented c width (lines next) :=
        fun next member => indented next (by simp [member])
      obtain ⟨first, behind⟩ := each item (by simp) other (by simp) _ _
        (outdented_block later outdented) (outdented_block laterToo outdentedToo) same
      obtain ⟨tails, rests⟩ := ih (List.forall_mem_append.mpr ⟨later, laterToo⟩)
        (fun next member another memberToo =>
          each next (by simp [member]) another (by simp [memberToo])) behind
      exact ⟨by rw [List.map_cons, List.map_cons, first, tails], rests⟩

end

end SnakeFront.Text
