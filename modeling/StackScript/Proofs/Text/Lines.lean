import StackScript.Proofs.Text.Blank
import StackScript.Text.Lines

namespace StackScript.Text

/-! Division of texts into pieces and into lines: where in the text the line of a number is, and
what is shown for it. -/

variable {mark : Char} {text front line : List Char} {number : Nat}

/-! Pieces between marks. -/

theorem splitAll_append (without : mark ∉ front) (rest : List Char) :
    splitAll mark (front ++ mark :: rest) = front :: splitAll mark rest := by
  induction front with
  | nil => exact if_pos rfl
  | cons c front induction =>
      have other : c ≠ mark := (List.ne_of_not_mem_cons without).symm
      rw [List.cons_append, splitAll, if_neg other,
        induction (List.not_mem_of_not_mem_cons without)]

theorem splitAll_of_notMem (without : mark ∉ text) : splitAll mark text = [text] := by
  induction text with
  | nil => rfl
  | cons c text induction =>
      have other : c ≠ mark := (List.ne_of_not_mem_cons without).symm
      rw [splitAll, if_neg other, induction (List.not_mem_of_not_mem_cons without)]

/-- Lines, each with a line feed behind it. -/
def unlines (lines : List (List Char)) : List Char :=
  lines.flatMap (· ++ ['\n'])

theorem unlines_cons (line : List Char) (others : List (List Char)) :
    unlines (line :: others) = line ++ '\n' :: unlines others := by
  rw [unlines, List.flatMap_cons, List.append_assoc]
  rfl

theorem splitAll_unlines {all : List (List Char)} (single : ∀ line ∈ all, '\n' ∉ line) :
    splitAll '\n' (unlines all) = all ++ [[]] := by
  induction all with
  | nil => rfl
  | cons line others induction =>
      obtain ⟨first, rest⟩ := List.forall_mem_cons.mp single
      rw [unlines_cons, splitAll_append first, induction rest]
      rfl

/-! Lines. -/

theorem lines_append (single : '\n' ∉ line) (rest : List Char) :
    lines (line ++ '\n' :: rest) = dropReturn line :: lines rest := by
  obtain ⟨first, others, pieces⟩ := List.exists_cons_of_ne_nil (splitAll_ne_nil '\n' rest)
  simp only [lines, splitAll_append single, pieces, List.dropLast_cons_cons, List.map_cons,
    List.getLast?_cons_cons]
  split <;> rfl

theorem lines_of_notMem (single : '\n' ∉ line) : lines line = if line = [] then [] else [line] := by
  simp only [lines, splitAll_of_notMem single]
  cases line <;> rfl

theorem lines_unlines_append {all : List (List Char)} (single : ∀ line ∈ all, '\n' ∉ line)
    (rest : List Char) : lines (unlines all ++ rest) = all.map dropReturn ++ lines rest := by
  induction all with
  | nil => rfl
  | cons line others induction =>
      obtain ⟨first, others⟩ := List.forall_mem_cons.mp single
      rw [unlines_cons, List.append_assoc, List.cons_append, lines_append first, induction others]
      rfl

/-- Where in a text the line of a number is, counted from zero: there are so many lines above, and
the line ends at a line feed or at the end of the text. -/
structure Row (text : List Char) (number : Nat) where
  above : List (List Char)
  content : List Char
  back : List Char
  whole : text = unlines above ++ (content ++ back)
  single : ∀ line ∈ content :: above, '\n' ∉ line
  length_above : above.length = number
  ends : back = [] ∨ ∃ after, back = '\n' :: after

namespace Row

/-- The line as it is shown: a carriage return in front of its line feed is none of it. -/
def shown (row : Row text number) : List Char :=
  if row.back = [] then row.content else dropReturn row.content

/-- The row of the rest of a text, one line further down. -/
def below {rest : List Char} (row : Row rest number) (line : List Char) (single : '\n' ∉ line) :
    Row (line ++ '\n' :: rest) (number + 1) where
  above := line :: row.above
  content := row.content
  back := row.back
  whole := by rw [unlines_cons, List.append_assoc, List.cons_append, ← row.whole]
  single := by
    obtain ⟨here, above⟩ := List.forall_mem_cons.mp row.single
    exact List.forall_mem_cons.mpr ⟨here, List.forall_mem_cons.mpr ⟨single, above⟩⟩
  length_above := congrArg (· + 1) row.length_above
  ends := row.ends

/-- There is a row for each line feed, and one more. -/
theorem exists_of_le (within : number ≤ text.count '\n') : Nonempty (Row text number) := by
  induction number generalizing text with
  | zero =>
      cases split : splitOnce '\n' text with
      | none =>
          have single := splitOnce_eq_none_iff.mp split
          exact ⟨[], text, [], (List.append_nil text).symm, List.forall_mem_singleton.mpr single,
            rfl, .inl rfl⟩
      | some parts =>
          obtain ⟨first, rest⟩ := parts
          have single := notMem_of_splitOnce split
          exact ⟨[], first, '\n' :: rest, eq_of_splitOnce split,
            List.forall_mem_singleton.mpr single, rfl, .inr ⟨rest, rfl⟩⟩
  | succ number induction =>
      cases split : splitOnce '\n' text with
      | none =>
          rw [List.count_eq_zero_of_not_mem (splitOnce_eq_none_iff.mp split)] at within
          cases within
      | some parts =>
          obtain ⟨first, rest⟩ := parts
          obtain rfl := eq_of_splitOnce split
          have single := notMem_of_splitOnce split
          rw [List.count_append, List.count_eq_zero_of_not_mem single, List.count_cons_self,
            Nat.zero_add] at within
          obtain ⟨row⟩ := induction (Nat.le_of_succ_le_succ within)
          exact ⟨row.below first single⟩

theorem lines_eq (row : Row text number) :
    lines text = row.above.map dropReturn ++ lines (row.content ++ row.back) :=
  (congrArg lines row.whole).trans
    (lines_unlines_append (List.forall_mem_cons.mp row.single).2 _)

/-- Every row is a line that is shown, but for an empty one at the end of the text. -/
theorem getElem?_lines (row : Row text number) :
    (lines text)[number]? =
      if row.back = [] ∧ row.content = [] then none else some row.shown := by
  have single := (List.forall_mem_cons.mp row.single).1
  have first : (lines text)[number]? = (lines (row.content ++ row.back))[0]? := by
    rw [row.lines_eq, List.getElem?_append_right (by rw [List.length_map, row.length_above]),
      List.length_map, row.length_above, Nat.sub_self]
  rw [first, shown]
  rcases row.ends with last | ⟨after, behind⟩
  · rw [last, List.append_nil, lines_of_notMem single]
    by_cases none : row.content = [] <;> simp [none]
  · rw [behind, lines_append single]
    simp

end Row

end StackScript.Text
