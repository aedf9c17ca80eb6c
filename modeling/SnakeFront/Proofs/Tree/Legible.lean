import SnakeFront.Proofs.Text.Joined
import SnakeFront.Proofs.Text.Unambiguous
import SnakeFront.Proofs.Token.Spelling
import SnakeFront.Proofs.Word.Joining
import SnakeFront.Tree.Printer

/-! Expressions that can be read off their text. The start of the text tells the form: a quote, a
parenthesis with or without an operator behind it, or a word with or without a parenthesis behind
it. What follows an expression cannot be taken for a part of it. Main statement: an expression whose
words are written as in a source is told from its text. -/
namespace SnakeFront.Tree

open Text
open SnakeFront.Token (Digits operators)
open SnakeFront.Word (PlainWord isPlain)

mutual

/-- An expression whose names, numbers and operators are written as in a source. -/
def Node.Legible : Node → Prop
  | .text _ => True
  | .boolean word => word = "True" ∨ word = "False"
  | .integer digits => Digits digits
  | .var name => PlainWord name ∧ ¬ Digits name ∧ name ≠ "True" ∧ name ≠ "False"
  | .call name args => PlainWord name ∧ LegibleAll args
  | .binary op left right => op ∈ operators ∧ left.Legible ∧ right.Legible
  | .unary op operand => op ∈ operators ∧ operand.Legible
  | .define .. | .assign .. | .unknown | .absent => False

def LegibleAll : List Node → Prop
  | [] => True
  | node :: rest => node.Legible ∧ LegibleAll rest

end

mutual

instance Node.decideLegible : DecidablePred Node.Legible
  | .text _ => inferInstanceAs (Decidable True)
  | .boolean word => inferInstanceAs (Decidable (word = "True" ∨ word = "False"))
  | .integer digits => inferInstanceAs (Decidable (Digits digits))
  | .var name => inferInstanceAs
    (Decidable (PlainWord name ∧ ¬ Digits name ∧ name ≠ "True" ∧ name ≠ "False"))
  | .call name args =>
    have := decideLegibleAll args
    inferInstanceAs (Decidable (PlainWord name ∧ LegibleAll args))
  | .binary op left right =>
    have := left.decideLegible
    have := right.decideLegible
    inferInstanceAs (Decidable (op ∈ operators ∧ left.Legible ∧ right.Legible))
  | .unary op operand =>
    have := operand.decideLegible
    inferInstanceAs (Decidable (op ∈ operators ∧ operand.Legible))
  | .define .. | .assign .. | .unknown | .absent => inferInstanceAs (Decidable False)

instance decideLegibleAll : DecidablePred LegibleAll
  | [] => inferInstanceAs (Decidable True)
  | node :: rest =>
    have := node.decideLegible
    have := decideLegibleAll rest
    inferInstanceAs (Decidable (node.Legible ∧ LegibleAll rest))

end

theorem legibleAll_iff {nodes : List Node} : LegibleAll nodes ↔ ∀ node ∈ nodes, node.Legible := by
  induction nodes with
  | nil => simp [LegibleAll]
  | cons node nodes ih => rw [LegibleAll, ih, List.forall_mem_cons]

def Node.word? : Node → Option String
  | .boolean word | .integer word | .var word => some word
  | _ => none

def ofWord (word : String) : Node :=
  if word = "True" ∨ word = "False" then .boolean word
  else if Digits word then .integer word
  else .var word

/-- Induction over expressions; those that are single words are one case, and so are the nodes that
are no legible expressions. -/
theorem Node.shape_induction {P : Node → Prop} (text : ∀ value, P (.text value))
    (word : ∀ node word, node.word? = some word → P node)
    (call : ∀ name args, (∀ arg ∈ args, P arg) → P (.call name args))
    (binary : ∀ op left right, P left → P right → P (.binary op left right))
    (unary : ∀ op operand, P operand → P (.unary op operand))
    (others : ∀ node, ¬ node.Legible → P node) : (node : Node) → P node
  | .text value => text value
  | .boolean _ | .integer _ | .var _ => word _ _ rfl
  | .call name args =>
    call name args fun arg _ => shape_induction text word call binary unary others arg
  | .binary op left right =>
    binary op left right (shape_induction text word call binary unary others left)
      (shape_induction text word call binary unary others right)
  | .unary op operand =>
    unary op operand (shape_induction text word call binary unary others operand)
  | .define .. | .assign .. | .unknown | .absent => others _ id

section
variable {node other : Node} {word : String}

theorem plain_of_digits (digits : Digits word) : PlainWord word := by
  have none : Word.reserved.all (fun c => !c.isDigit) = true := by decide
  refine ⟨digits.1, fun c member => ?_⟩
  cases plain : isPlain c with
  | true => rfl
  | false =>
    have reserved : c ∈ Word.reserved := Word.isReserved_iff.mp (by simpa [isPlain] using plain)
    have other := List.all_eq_true.mp none c reserved
    simp [digits.2 c member] at other

theorem render_word (legible : node.Legible) (found : node.word? = some word) :
    node.render = word ∧ PlainWord word ∧ node = ofWord word := by
  cases node with
  | boolean literal =>
    cases found
    refine ⟨rfl, ?_, by simp [ofWord, show word = "True" ∨ word = "False" from legible]⟩
    rcases legible with rfl | rfl <;> decide
  | integer literal =>
    cases found
    have named : ¬ (word = "True" ∨ word = "False") := by
      rintro (rfl | rfl) <;> exact absurd legible (by decide)
    have digits : Digits word := legible
    exact ⟨rfl, plain_of_digits digits, by simp [ofWord, named, digits]⟩
  | var name =>
    cases found
    obtain ⟨plain, digits, yes, no⟩ := legible
    exact ⟨rfl, plain, by simp [ofWord, digits, yes, no]⟩
  | text | call | binary | unary | define | assign | unknown | absent => cases found

end

def Closed (text : List Char) : Prop := ∀ c ∈ text.head?, c = ' ' ∨ c = ',' ∨ c = ')'

theorem Closed.ends {text : List Char} (closed : Closed text) :
    ∀ c ∈ text.head?, isPlain c = false := by
  intro c first
  rcases closed c first with rfl | rfl | rfl <;> rfl

theorem Closed.not_paren {text : List Char} (closed : Closed text) : text.head? ≠ some '(' :=
  fun first => absurd (closed '(' first) (by decide)

theorem Closed.of_parted {text : List Char} (parted : Parted ')' text) : Closed text := by
  intro c first
  rcases parted with same | same <;> cases same.symm.trans first
  · exact Or.inr (Or.inl rfl)
  · exact Or.inr (Or.inr rfl)

theorem closed_cons {c : Char} (mark : c = ' ' ∨ c = ',' ∨ c = ')') (rest : List Char) :
    Closed (c :: rest) := by
  rintro d ⟨⟩
  exact mark

def isSymbol (c : Char) : Bool := ['+', '-', '*', '/', '%'].contains c

theorem operator_symbol {op : String} (known : op ∈ operators) :
    ∃ c, op.toList = [c] ∧ isSymbol c = true := by
  simp only [operators, List.mem_cons, List.not_mem_nil, or_false] at known
  rcases known with rfl | rfl | rfl | rfl | rfl <;> exact ⟨_, rfl, rfl⟩

theorem operator_append_inj {op symbol : String} {rest more : List Char} (known : op ∈ operators)
    (knownToo : symbol ∈ operators) (same : op.toList ++ rest = symbol.toList ++ more) :
    op = symbol ∧ rest = more := by
  obtain ⟨c, chars, _⟩ := operator_symbol known
  obtain ⟨d, charsToo, _⟩ := operator_symbol knownToo
  obtain ⟨symbols, rests⟩ := List.append_inj same (by simp [chars, charsToo])
  exact ⟨String.toList_inj.mp symbols, rests⟩

section
variable (name op : String) (args : List Node) (left right operand : Node)

theorem toList_call : (Node.call name args).render.toList =
    name.toList ++ '(' :: ((", ".intercalate (args.map Node.render)).toList ++ [')']) := by
  simp [Node.render, renderAll_eq_map]

theorem toList_binary : (Node.binary op left right).render.toList =
    '(' :: (left.render.toList ++ ' ' :: (op.toList ++ ' ' :: (right.render.toList ++ [')']))) := by
  simp [Node.render]

theorem toList_unary : (Node.unary op operand).render.toList =
    '(' :: (op.toList ++ (operand.render.toList ++ [')'])) := by
  simp [Node.render]

end

inductive Lead where
  | text
  | word
  | call
  | binary
  | unary

def leadOf : List Char → Lead
  | '"' :: _ => .text
  | '(' :: c :: _ => if isSymbol c then .unary else .binary
  | text => if (text.dropWhile isPlain).head? = some '(' then .call else .word

def Node.lead : Node → Lead
  | .text _ => .text
  | .call .. => .call
  | .binary .. => .binary
  | .unary .. => .unary
  | _ => .word

theorem not_symbol {c : Char} (starts : c = '"' ∨ c = '(' ∨ isPlain c = true) :
    isSymbol c = false ∧ c ≠ ')' := by
  rcases starts with rfl | rfl | plain
  · decide
  · decide
  · constructor
    · cases symbol : isSymbol c with
      | false => rfl
      | true =>
        simp only [isSymbol, List.contains_iff_mem, List.mem_cons, List.not_mem_nil, or_false]
          at symbol
        rcases symbol with rfl | rfl | rfl | rfl | rfl <;> cases plain
    · rintro rfl
      cases plain

theorem head_plain {word : String} (plain : PlainWord word) :
    ∃ c tail, word.toList = c :: tail ∧ isPlain c = true := by
  obtain ⟨c, tail, chars⟩ := List.exists_cons_of_ne_nil (mt String.toList_eq_nil_iff.mp plain.1)
  exact ⟨c, tail, chars, plain.2 c (by simp [chars])⟩

theorem toList_quote (value : String) :
    (quote value).toList = '"' :: (value.toList.flatMap escape ++ ['"']) := by
  simp [quote]

section
variable {node other : Node} {rest more : List Char}

theorem head_render (legible : node.Legible) :
    ∃ c tail, node.render.toList = c :: tail ∧ (c = '"' ∨ c = '(' ∨ isPlain c = true) := by
  have word : ∀ {word : String}, node.word? = some word →
      ∃ c tail, node.render.toList = c :: tail ∧ (c = '"' ∨ c = '(' ∨ isPlain c = true) := by
    intro word found
    obtain ⟨text, plain, _⟩ := render_word legible found
    obtain ⟨c, tail, chars, first⟩ := head_plain plain
    exact ⟨c, tail, by rw [text, chars], Or.inr (Or.inr first)⟩
  cases node with
  | text value => exact ⟨'"', _, by rw [Node.render, toList_quote], Or.inl rfl⟩
  | boolean | integer | var => exact word rfl
  | call name args =>
    obtain ⟨c, tail, chars, first⟩ := head_plain legible.1
    exact ⟨c, _, by rw [toList_call, chars, List.cons_append], Or.inr (Or.inr first)⟩
  | binary op left right => exact ⟨'(', _, toList_binary op left right, Or.inr (Or.inl rfl)⟩
  | unary op operand => exact ⟨'(', _, toList_unary op operand, Or.inr (Or.inl rfl)⟩
  | define | assign | unknown | absent => exact legible.elim

theorem leadOf_word {word : String} (plain : PlainWord word)
    (ends : ∀ c ∈ rest.head?, isPlain c = false) :
    leadOf (word.toList ++ rest) = if rest.head? = some '(' then .call else .word := by
  obtain ⟨c, tail, chars, first⟩ := head_plain plain
  have behind : (word.toList ++ rest).dropWhile isPlain = rest := by
    rw [List.dropWhile_append_of_pos plain.2]
    cases rest with
    | nil => rfl
    | cons d rest => simp [ends d rfl]
  unfold leadOf
  split
  next text =>
    rw [chars] at text
    cases (List.cons.inj text).1
    cases first
  next text =>
    rw [chars] at text
    cases (List.cons.inj text).1
    cases first
  next => rw [behind]

theorem leadOf_render (legible : node.Legible) (closed : Closed rest) :
    leadOf (node.render.toList ++ rest) = node.lead := by
  have word : ∀ {word : String}, node.word? = some word →
      leadOf (node.render.toList ++ rest) = .word := by
    intro word found
    obtain ⟨text, plain, _⟩ := render_word legible found
    rw [text, leadOf_word plain closed.ends, if_neg closed.not_paren]
  cases node with
  | text value => rw [Node.render, toList_quote]; rfl
  | boolean | integer | var => exact word rfl
  | call name args =>
    rw [toList_call, List.append_assoc, leadOf_word legible.1 (by simp; rfl)]
    rfl
  | binary op left right =>
    obtain ⟨c, tail, chars, first⟩ := head_render legible.2.1
    rw [toList_binary, chars]
    simp [leadOf, (not_symbol first).1, Node.lead]
  | unary op operand =>
    obtain ⟨c, chars, symbol⟩ := operator_symbol legible.1
    rw [toList_unary, chars]
    simp [leadOf, symbol, Node.lead]
  | define | assign | unknown | absent => exact legible.elim

end

theorem lead_eq_word_iff {node : Node} (legible : node.Legible) :
    node.lead = .word ↔ ∃ word, node.word? = some word := by
  cases node with
  | boolean word | integer word | var word => exact iff_of_true rfl ⟨word, rfl⟩
  | text | call | binary | unary => simp [Node.lead, Node.word?]
  | define | assign | unknown | absent => exact legible.elim

theorem lead_eq {node other : Node} {rest more : List Char} (legible : node.Legible)
    (legibleToo : other.Legible) (closed : Closed rest) (closedToo : Closed more)
    (same : node.render.toList ++ rest = other.render.toList ++ more) : node.lead = other.lead := by
  rw [← leadOf_render legible closed, same, leadOf_render legibleToo closedToo]

/-- The expression is told from every text that it opens. -/
def Told (node : Node) : Prop :=
  ∀ {other : Node} {rest more : List Char}, node.Legible → other.Legible → Closed rest →
    Closed more → node.render.toList ++ rest = other.render.toList ++ more →
    node = other ∧ rest = more

theorem told_text (value : String) : Told (.text value) := by
  intro other rest more legible legibleToo closed closedToo same
  have lead := lead_eq legible legibleToo closed closedToo same
  cases other with
  | text another =>
    obtain ⟨rfl, rests⟩ := quote_append_inj same
    exact ⟨rfl, rests⟩
  | boolean | integer | var | call | binary | unary => cases lead
  | define | assign | unknown | absent => exact legibleToo.elim

theorem told_word {node : Node} {word : String} (found : node.word? = some word) : Told node := by
  intro other rest more legible legibleToo closed closedToo same
  have lead := lead_eq legible legibleToo closed closedToo same
  have single := (lead_eq_word_iff legible).mpr ⟨word, found⟩
  obtain ⟨another, foundToo⟩ := (lead_eq_word_iff legibleToo).mp (lead.symm.trans single)
  obtain ⟨text, plain, own⟩ := render_word legible found
  obtain ⟨textToo, plainToo, ownToo⟩ := render_word legibleToo foundToo
  rw [text, textToo] at same
  obtain ⟨words, rests⟩ := run_append_inj plain.2 plainToo.2 closed.ends closedToo.ends same
  exact ⟨by rw [own, ownToo, String.toList_inj.mp words], rests⟩

theorem arguments_append_inj {args others : List Node} {rest more : List Char}
    (told : ∀ arg ∈ args, Told arg) (legible : ∀ arg ∈ args, arg.Legible)
    (legibleToo : ∀ arg ∈ others, arg.Legible)
    (same : (", ".intercalate (args.map Node.render)).toList ++ ')' :: rest =
      (", ".intercalate (others.map Node.render)).toList ++ ')' :: more) :
    args = others ∧ rest = more := by
  have opens : ∀ arg ∈ args ++ others, ∃ c tail, arg.render.toList = c :: tail ∧ c ≠ ')' := by
    intro arg member
    obtain ⟨c, tail, chars, first⟩ :=
      head_render (List.forall_mem_append.mpr ⟨legible, legibleToo⟩ arg member)
    exact ⟨c, tail, chars, (not_symbol first).2⟩
  have passed := joined_append_inj id (by decide) opens
    (fun arg member another memberToo text behind parted partedToo =>
      told arg member (legible arg member) (legibleToo another memberToo) (.of_parted parted)
        (.of_parted partedToo)) same
  simpa only [List.map_id] using passed

theorem told_call (name : String) {args : List Node} (told : ∀ arg ∈ args, Told arg) :
    Told (.call name args) := by
  intro other rest more legible legibleToo closed closedToo same
  have lead := lead_eq legible legibleToo closed closedToo same
  cases other with
  | call function others =>
    have free : ∀ {word}, PlainWord word → '(' ∉ word.toList :=
      fun plain member => Bool.noConfusion (plain.2 '(' member)
    simp only [toList_call, List.append_assoc, List.cons_append, List.nil_append] at same
    obtain ⟨names, behind⟩ := delimited_append_inj (free legible.1) (free legibleToo.1) same
    obtain ⟨rfl, rests⟩ := arguments_append_inj told (legibleAll_iff.mp legible.2)
      (legibleAll_iff.mp legibleToo.2) behind
    exact ⟨by rw [String.toList_inj.mp names], rests⟩
  | text | boolean | integer | var | binary | unary => cases lead
  | define | assign | unknown | absent => exact legibleToo.elim

theorem told_binary (op : String) {left right : Node} (told : Told left) (toldRight : Told right) :
    Told (.binary op left right) := by
  intro other rest more legible legibleToo closed closedToo same
  have lead := lead_eq legible legibleToo closed closedToo same
  cases other with
  | binary symbol first second =>
    obtain ⟨known, fine, fineRight⟩ := legible
    obtain ⟨knownToo, fineToo, fineRightToo⟩ := legibleToo
    simp only [toList_binary, List.append_assoc, List.cons_append, List.nil_append,
      List.cons.injEq, true_and] at same
    obtain ⟨rfl, behind⟩ := told fine fineToo (closed_cons (Or.inl rfl) _)
      (closed_cons (Or.inl rfl) _) same
    simp only [List.cons.injEq, true_and] at behind
    obtain ⟨rfl, operands⟩ := operator_append_inj known knownToo behind
    simp only [List.cons.injEq, true_and] at operands
    obtain ⟨rfl, ends⟩ := toldRight fineRight fineRightToo (closed_cons (Or.inr (Or.inr rfl)) _)
      (closed_cons (Or.inr (Or.inr rfl)) _) operands
    exact ⟨rfl, (List.cons.inj ends).2⟩
  | text | boolean | integer | var | call | unary => cases lead
  | define | assign | unknown | absent => exact legibleToo.elim

theorem told_unary (op : String) {operand : Node} (told : Told operand) :
    Told (.unary op operand) := by
  intro other rest more legible legibleToo closed closedToo same
  have lead := lead_eq legible legibleToo closed closedToo same
  cases other with
  | unary symbol inner =>
    simp only [toList_unary, List.append_assoc, List.cons_append, List.nil_append,
      List.cons.injEq, true_and] at same
    obtain ⟨rfl, behind⟩ := operator_append_inj legible.1 legibleToo.1 same
    obtain ⟨rfl, ends⟩ := told legible.2 legibleToo.2 (closed_cons (Or.inr (Or.inr rfl)) _)
      (closed_cons (Or.inr (Or.inr rfl)) _) behind
    exact ⟨rfl, (List.cons.inj ends).2⟩
  | text | boolean | integer | var | call | binary => cases lead
  | define | assign | unknown | absent => exact legibleToo.elim

theorem told_node (node : Node) : Told node := by
  induction node using Node.shape_induction with
  | text value => exact told_text value
  | word node word found => exact told_word found
  | call name args ih => exact told_call name ih
  | binary op left right ihLeft ihRight => exact told_binary op ihLeft ihRight
  | unary op operand ih => exact told_unary op ih
  | others node none =>
    intro other rest more legible
    exact absurd legible none

/-- Expressions whose words are written as in a source have the same text exactly if they are the
same. -/
theorem same_text_iff_same_expression {node other : Node} (legible : node.Legible)
    (legibleToo : other.Legible) : node.render = other.render ↔ node = other := by
  constructor
  · intro same
    have ends : Closed [] := fun c first => nomatch first
    have chars := congrArg (fun text => text.toList ++ []) same
    exact (told_node node legible legibleToo ends ends chars).1
  · exact congrArg Node.render

/-- A text that looks like a list of arguments, a call with that list, and an operator in front of
the call or between the arguments. -/
theorem quoted_arguments_told_apart :
    let one := Node.unary "-" (.call "f" [.text "a, \"b\")", .var "1_"])
    let two := Node.unary "-" (.call "f" [.text "a", .text "b", .var "1_"])
    let three := Node.call "f" [.binary "-" (.text "a") (.text "b"), .var "1_"]
    one.Legible ∧ two.Legible ∧ three.Legible ∧
      one.render ≠ two.render ∧ two.render ≠ three.render := by
  intro one two three
  have first : one.Legible := by decide
  have second : two.Legible := by decide
  have third : three.Legible := by decide
  refine ⟨first, second, third, ?_, ?_⟩
  · rw [Ne, same_text_iff_same_expression first second]
    simp [one, two]
  · rw [Ne, same_text_iff_same_expression second third]
    simp [two, three]

end SnakeFront.Tree
