import StackScript.Proofs.Text.Blank
import StackScript.Proofs.Text.Utf8
import StackScript.Ty.Descriptor

namespace StackScript.Ty

/-! Type descriptors denote the types that they are written for. A descriptor lists at least one
type for an array, so it cannot denote an array without index types. -/

/-- Whether every array in a type has an index. -/
def isIndexed : Ty → Bool
  | .scalar _ => true
  | .array index element => !index.isEmpty && element.isIndexed

theorem isIndexed_array {index : List Scalar} {element : Ty} :
    (array index element).isIndexed = true ↔ index ≠ [] ∧ element.isIndexed = true := by
  rw [isIndexed, Bool.and_eq_true, Bool.not_eq_true', List.isEmpty_eq_false_iff]

/-! What is written. -/

theorem isBlank_letter (s : Scalar) : Text.isBlank s.letter = false := by
  cases s <;> decide

theorem descriptorChars_solid (ty : Ty) : Text.Solid ty.descriptorChars := by
  induction ty with
  | scalar s =>
      exact Text.solid_of_all (List.cons_ne_nil _ _)
        (List.forall_mem_singleton.mpr (isBlank_letter s))
  | array index element induction =>
      have opened : Text.Solid ['a', ' ', '['] := by decide
      have written := opened.append (joinLetters ',' index ++ [']', ' ']) induction
      rw [← List.append_assoc] at written
      exact written

theorem mem_joinLetters {mark c : Char} {index : List Scalar}
    (member : c ∈ joinLetters mark index) : c = mark ∨ ∃ s : Scalar, c = s.letter := by
  induction index with
  | nil => cases member
  | cons s index induction =>
      cases index with
      | nil => exact .inr ⟨s, List.mem_singleton.mp member⟩
      | cons t index =>
          rcases List.mem_cons.mp member with rfl | member
          · exact .inr ⟨s, rfl⟩
          · rcases List.mem_cons.mp member with rfl | member
            · exact .inl rfl
            · exact induction member

theorem length_joinLetters {index : List Scalar} (some : index ≠ []) :
    (joinLetters ',' index).length + 1 = 2 * index.length := by
  induction index with
  | nil => exact absurd rfl some
  | cons s index induction =>
      cases index with
      | nil => rfl
      | cons t index =>
          have others := induction (List.cons_ne_nil t index)
          rw [joinLetters, List.length_cons, List.length_cons, List.length_cons]
          · omega
          · exact List.cons_ne_nil t index

/-- A descriptor has one byte for each character. -/
theorem length_encode_descriptor (ty : Ty) :
    (Text.Utf8.encode ty.descriptor.toList).length = ty.descriptorChars.length := by
  rw [descriptor, String.toList_ofList]
  have letter (s : Scalar) : s.letter.utf8Size = 1 := by cases s <;> decide
  apply Text.Utf8.length_encode_of_ascii
  induction ty with
  | scalar s => exact List.forall_mem_singleton.mpr (letter s)
  | array index element induction =>
      have inside : ∀ c ∈ joinLetters ',' index, c.utf8Size = 1 := by
        intro c member
        rcases mem_joinLetters member with rfl | ⟨s, rfl⟩
        · decide
        · exact letter s
      simp only [descriptorChars, List.forall_mem_append, List.forall_mem_cons]
      exact ⟨⟨⟨⟨rfl, rfl, rfl, List.forall_mem_nil _⟩, inside⟩, rfl, rfl, List.forall_mem_nil _⟩,
        induction⟩

/-! Reading what was written. -/

theorem splitAll_joinLetters {index : List Scalar} (some : index ≠ []) :
    Text.splitAll ',' (joinLetters ',' index) = index.map fun s => [s.letter] := by
  have letter (s : Scalar) : s.letter ≠ ',' := by cases s <;> decide
  induction index with
  | nil => exact absurd rfl some
  | cons s index induction =>
      cases index with
      | nil => rw [joinLetters, Text.splitAll, if_neg (letter s)]; rfl
      | cons t index =>
          have others := induction (List.cons_ne_nil t index)
          have written : joinLetters ',' (s :: t :: index) =
              s.letter :: ',' :: joinLetters ',' (t :: index) := rfl
          rw [written, Text.splitAll, if_neg (letter s), Text.splitAll, if_pos rfl, others]
          rfl

theorem readIndexPart_letter (s : Scalar) : readIndexPart [s.letter] = .ok s := by
  cases s <;> rfl

theorem mapM_readIndexPart (index : List Scalar) :
    (index.map fun s => [s.letter]).mapM readIndexPart = .ok index := by
  induction index with
  | nil => rfl
  | cons s index induction =>
      rw [List.map_cons, List.mapM_cons, readIndexPart_letter, induction]
      rfl

theorem readDescriptor_descriptorChars {ty : Ty} (indexed : ty.isIndexed = true) {fuel : Nat}
    (enough : ty.descriptorChars.length ≤ fuel) (rest : List Char) :
    readDescriptor fuel (ty.descriptorChars ++ rest) = .ok (ty, rest) := by
  induction ty generalizing fuel with
  | scalar s =>
      cases fuel with
      | zero => cases enough
      | succ fuel =>
          rw [descriptorChars, List.singleton_append, readDescriptor]
          simp only [Scalar.ofLetter?_letter]
  | array index element induction =>
      obtain ⟨nonempty, deeper⟩ := isIndexed_array.mp indexed
      obtain ⟨c, tail, first⟩ := List.exists_cons_of_ne_nil element.descriptorChars_solid.nonempty
      have solid := element.descriptorChars_solid.start c (by rw [first]; rfl)
      have closing : ']' ∉ joinLetters ',' index := by
        intro member
        rcases mem_joinLetters member with comma | ⟨s, letter⟩
        · exact absurd comma (by decide)
        · cases s <;> exact absurd letter (by decide)
      have written : descriptorChars (.array index element) ++ rest =
          'a' :: ' ' :: '[' :: (joinLetters ',' index ++ ']' :: ' ' ::
            (element.descriptorChars ++ rest)) := by
        simp only [descriptorChars, List.append_assoc, List.cons_append, List.nil_append]
      have opened (more : List Char) : Text.trimStart (' ' :: '[' :: more) = '[' :: more := rfl
      have behind : Text.trimStart (' ' :: (element.descriptorChars ++ rest)) =
          element.descriptorChars ++ rest := by
        have solid' := Text.trimStart_cons solid (tail ++ rest)
        rw [first]
        exact solid'
      cases fuel with
      | zero => cases enough
      | succ fuel =>
          have shorter : element.descriptorChars.length ≤ fuel := by
            rw [descriptorChars] at enough
            simp only [List.length_append, List.length_cons] at enough
            omega
          rw [written, readDescriptor]
          simp only [show Scalar.ofLetter? 'a' = none from rfl, opened,
            Text.splitOnce_append closing, splitAll_joinLetters nonempty, mapM_readIndexPart,
            if_true, behind]
          have inner := induction deeper shorter
          show (readDescriptor fuel (element.descriptorChars ++ rest) >>= fun found =>
            pure (Ty.array index found.1, found.2)) = _
          rw [inner]
          rfl

theorem ofDescriptor_descriptor {ty : Ty} (indexed : ty.isIndexed = true) :
    ofDescriptor ty.descriptor = .ok ty := by
  have read := readDescriptor_descriptorChars indexed (Nat.le_succ _) []
  rw [List.append_nil] at read
  rw [ofDescriptor, descriptor, String.toList_ofList, (descriptorChars_solid _).trim, read]
  rfl

/-! What descriptors can denote. -/

theorem ne_nil_of_readIndexPart {part : List Char} {s : Scalar}
    (read : readIndexPart part = .ok s) : part ≠ [] := by
  rintro rfl
  cases read

theorem length_of_mapM {parts : List (List Char)} {index : List Scalar}
    (read : parts.mapM readIndexPart = .ok index) :
    index.length = parts.length ∧
      2 * parts.length ≤ (parts.map fun part => part.length + 1).sum := by
  induction parts generalizing index with
  | nil =>
      cases read
      exact ⟨rfl, Nat.le_refl _⟩
  | cons part parts induction =>
      rw [List.mapM_cons] at read
      cases first : readIndexPart part with
      | error cause =>
          rw [first] at read
          cases read
      | ok s =>
          cases others : parts.mapM readIndexPart with
          | error cause =>
              rw [first, others] at read
              cases read
          | ok index' =>
              rw [first, others] at read
              cases read
              obtain ⟨length, size⟩ := induction others
              have nonempty := List.length_pos_iff.mpr (ne_nil_of_readIndexPart first)
              rw [List.length_cons, List.length_cons, List.map_cons, List.sum_cons]
              omega

theorem array_ok {behind list inside after rest : List Char} {index : List Scalar} {element : Ty}
    (opened : Text.trimStart behind = '[' :: list)
    (split : Text.splitOnce ']' list = some (inside, after))
    (parts : (Text.splitAll ',' inside).mapM readIndexPart = .ok index)
    (inner : element.isIndexed = true ∧
      2 * element.descriptorChars.length + 3 * rest.length ≤ 3 * (Text.trimStart after).length) :
    (array index element).isIndexed = true ∧
      2 * (array index element).descriptorChars.length + 3 * rest.length ≤
        3 * (behind.length + 1) := by
  obtain ⟨count, pieces⟩ := length_of_mapM parts
  have some : 0 < (Text.splitAll ',' inside).length :=
    List.length_pos_iff.mpr (Text.splitAll_ne_nil ',' inside)
  have nonempty : index ≠ [] := List.length_pos_iff.mp (by omega)
  have written := length_joinLetters nonempty
  have blanks := Text.length_trimStart_le behind
  have blanks' := Text.length_trimStart_le after
  rw [Text.sum_splitAll] at pieces
  rw [opened, Text.eq_of_splitOnce split] at blanks
  simp only [List.length_cons, List.length_append] at blanks
  refine ⟨isIndexed_array.mpr ⟨nonempty, inner.1⟩, ?_⟩
  simp only [descriptorChars, List.length_cons, List.length_append, List.length_nil]
  omega

/-- The type at the front of a text has indexes, and is written in at most half as many characters
again as it was read from. -/
theorem readDescriptor_ok {fuel : Nat} {text rest : List Char} {ty : Ty}
    (read : readDescriptor fuel text = .ok (ty, rest)) :
    ty.isIndexed = true ∧ 2 * ty.descriptorChars.length + 3 * rest.length ≤ 3 * text.length := by
  induction fuel generalizing text ty rest with
  | zero => cases read
  | succ fuel induction =>
      cases text with
      | nil => cases read
      | cons c behind =>
          rw [readDescriptor] at read
          cases letter : Scalar.ofLetter? c with
          | some s =>
              simp only [letter] at read
              cases read
              refine ⟨rfl, ?_⟩
              simp only [descriptorChars, List.length_cons, List.length_nil]
              omega
          | none =>
              simp only [letter] at read
              split at read
              · split at read
                · rename_i list opened
                  split at read
                  · cases read
                  · rename_i inside after split
                    cases parts : (Text.splitAll ',' inside).mapM readIndexPart with
                    | error cause =>
                        rw [parts] at read
                        cases read
                    | ok index =>
                        rw [parts] at read
                        cases inner : readDescriptor fuel (Text.trimStart after) with
                        | error cause =>
                            simp only [inner] at read
                            cases read
                        | ok found =>
                            simp only [inner] at read
                            cases read
                            exact array_ok opened split parts (induction inner)
                · cases read
              · cases read

theorem ofDescriptor_ok {text : String} {ty : Ty} (read : ofDescriptor text = .ok ty) :
    ty.isIndexed = true ∧ 2 * ty.descriptorChars.length ≤ 3 * text.toList.length := by
  rw [ofDescriptor] at read
  cases first : readDescriptor (text.toList.length + 1) (Text.trim text.toList) with
  | error cause =>
      simp only [first] at read
      cases read
  | ok found =>
      simp only [first] at read
      change (if (Text.trim found.2).isEmpty then pure found.1
        else Except.error (DescriptorError.trailing text)) = Except.ok ty at read
      split at read
      · cases read
        obtain ⟨indexed, size⟩ := readDescriptor_ok first
        have shorter := Text.length_trim_le text.toList
        exact ⟨indexed, by omega⟩
      · cases read

end StackScript.Ty
