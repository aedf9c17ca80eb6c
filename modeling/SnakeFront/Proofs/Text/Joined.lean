/-! Texts joined by a separator. A list with commas between its items ends at the mark behind it, so
where each item tells where it ends, so does the list. -/
namespace SnakeFront.Text

theorem toList_intercalate_cons (separator first : String) (rest : List String) :
    (separator.intercalate (first :: rest)).toList =
      first.toList ++ rest.flatMap fun next => separator.toList ++ next.toList := by
  rw [String.toList_intercalate]
  induction rest generalizing first with
  | nil => simp
  | cons next others ih =>
    simp only [List.map_cons, List.intercalate_cons_cons, List.flatMap_cons, List.append_assoc]
    rw [← List.map_cons, ih]

/-- What can follow an item of a list: a comma, or the mark behind the list. -/
def Parted (close : Char) (text : List Char) : Prop :=
  text.head? = some ',' ∨ text.head? = some close

theorem Parted.ends {close : Char} {text : List Char} (parted : Parted close text)
    {p : Char → Bool} (comma : p ',' = false) (mark : p close = false) :
    ∀ c ∈ text.head?, p c = false := by
  intro c first
  rcases parted with same | same <;> cases same.symm.trans first
  · exact comma
  · exact mark

section
variable {α β : Type} {render : α → String} {close : Char} {items others : List α}
  {rest more : List Char}

theorem following_append_inj (told : α → β) (apart : close ≠ ',')
    (each : ∀ item ∈ items, ∀ other ∈ others, ∀ text behind, Parted close text →
      Parted close behind → (render item).toList ++ text = (render other).toList ++ behind →
      told item = told other ∧ text = behind)
    (same : (items.flatMap fun next => ", ".toList ++ (render next).toList) ++ close :: rest =
      (others.flatMap fun next => ", ".toList ++ (render next).toList) ++ close :: more) :
    items.map told = others.map told ∧ rest = more := by
  have comma : ", ".toList = [',', ' '] := rfl
  have parted : ∀ (list : List α) (text : List Char), Parted close
      ((list.flatMap fun next => [',', ' '] ++ (render next).toList) ++ close :: text) := by
    intro list text
    cases list with
    | nil => exact Or.inr rfl
    | cons item list => exact Or.inl rfl
  simp only [comma] at same
  induction items generalizing others with
  | nil =>
    cases others with
    | nil => exact ⟨rfl, (List.cons.inj same).2⟩
    | cons other others => exact absurd (List.cons.inj same).1 apart
  | cons item items ih =>
    cases others with
    | nil => exact absurd (List.cons.inj same).1.symm apart
    | cons other others =>
      simp only [List.flatMap_cons, List.append_assoc, List.cons_append, List.nil_append,
        List.cons.injEq, true_and] at same
      obtain ⟨first, behind⟩ :=
        each item (by simp) other (by simp) _ _ (parted items rest) (parted others more) same
      obtain ⟨tails, rests⟩ := ih
        (fun next member another memberToo =>
          each next (by simp [member]) another (by simp [memberToo])) behind
      exact ⟨by rw [List.map_cons, List.map_cons, first, tails], rests⟩

/-- Items with commas between them, up to a closing mark that opens none of them. -/
theorem joined_append_inj (told : α → β) (apart : close ≠ ',')
    (opens : ∀ item ∈ items ++ others, ∃ c tail, (render item).toList = c :: tail ∧ c ≠ close)
    (each : ∀ item ∈ items, ∀ other ∈ others, ∀ text behind, Parted close text →
      Parted close behind → (render item).toList ++ text = (render other).toList ++ behind →
      told item = told other ∧ text = behind)
    (same : (", ".intercalate (items.map render)).toList ++ close :: rest =
      (", ".intercalate (others.map render)).toList ++ close :: more) :
    items.map told = others.map told ∧ rest = more := by
  have nonempty : ∀ item ∈ items ++ others, ∀ text behind,
      (render item).toList ++ text ≠ close :: behind := by
    intro item member text behind equal
    obtain ⟨c, tail, chars, different⟩ := opens item member
    rw [chars] at equal
    exact different (List.cons.inj equal).1
  cases items with
  | nil =>
    cases others with
    | nil => exact ⟨rfl, (List.cons.inj same).2⟩
    | cons other others =>
      rw [List.map_cons, toList_intercalate_cons, List.append_assoc] at same
      exact absurd same.symm (nonempty other (by simp) _ _)
  | cons item items =>
    cases others with
    | nil =>
      rw [List.map_cons, toList_intercalate_cons, List.append_assoc] at same
      exact absurd same (nonempty item (by simp) _ _)
    | cons other others =>
      -- With a comma in front, the first item is like those that follow it.
      have marked := congrArg (", ".toList ++ ·) same
      simp only [List.map_cons, toList_intercalate_cons, List.flatMap_map] at marked
      refine following_append_inj told apart each ?_
      simpa only [List.flatMap_cons, List.append_assoc] using marked

end

end SnakeFront.Text
