import StackScript.Proofs.Ty.Descriptor

namespace StackScript

/-! An index position of an array is written as a type of its own, and could as well be read as one.
It makes no difference: an index list ends at its first closing bracket, so a descriptor of an array
is never complete inside of one. -/

/-- Types whose index positions may be of any type. -/
inductive FreeTy where
  | scalar (s : Scalar)
  | array (index : List FreeTy) (element : FreeTy)

namespace FreeTy

open Ty

def ofTy : Ty → FreeTy
  | .scalar s => .scalar s
  | .array index element => .array (index.map .scalar) (ofTy element)

/-- What a reader of descriptors at the front of a text makes of the whole text. -/
def whole (front : List Char → Except DescriptorError (FreeTy × List Char)) (text : List Char) :
    Except DescriptorError FreeTy := do
  let (ty, rest) ← front (Text.trim text)
  if (Text.trim rest).isEmpty then pure ty else .error (.trailing (String.ofList text))

/-- A type at the front of a text and what follows it, where each index position is read as a whole
descriptor. -/
def readDescriptor : (fuel : Nat) → List Char → Except DescriptorError (FreeTy × List Char)
  | 0, text => .error (.unknown (String.ofList text))
  | fuel + 1, text =>
      match text with
      | [] => .error (.unknown "")
      | c :: rest =>
          match Scalar.ofLetter? c with
          | some s => .ok (.scalar s, rest)
          | none =>
              if c = 'a' then
                match Text.trimStart rest with
                | '[' :: list =>
                    match Text.splitOnce ']' list with
                    | none => .error (.missingBracket (String.ofList text))
                    | some (inside, after) => do
                        let index ← (Text.splitAll ',' inside).mapM fun part =>
                          whole (readDescriptor fuel) (Text.trim part)
                        let (element, rest) ← readDescriptor fuel (Text.trimStart after)
                        pure (.array index element, rest)
                | _ => .error (.expectedBracket (String.ofList text))
              else .error (.unknown (String.ofList text))

def ofDescriptor (text : String) : Except DescriptorError FreeTy :=
  whole (readDescriptor (text.toList.length + 1)) text.toList

/-- A part of an index list has no closing bracket, so it is read as a scalar or not at all. -/
theorem whole_part {part : List Char} (unclosed : ']' ∉ part) (fuel : Nat) :
    whole (readDescriptor (fuel + 1)) (Text.trim part) = (readIndexPart part).map .scalar := by
  rw [whole, Text.trim_trim, readIndexPart]
  have inside : ']' ∉ Text.trim part := fun member => unclosed (Text.mem_of_mem_trim member)
  cases trimmed : Text.trim part with
  | nil => rfl
  | cons c rest =>
      rw [trimmed] at inside
      rw [readDescriptor]
      cases letter : Scalar.ofLetter? c with
      | some s =>
          simp only [letter]
          change (if (Text.trim rest).isEmpty then pure (scalar s)
            else Except.error (DescriptorError.trailing (String.ofList (c :: rest)))) = _
          split <;> rfl
      | none =>
          simp only [letter]
          split
          · rcases Classical.em (∃ list, Text.trimStart rest = '[' :: list) with
              ⟨list, opened⟩ | unopened
            · have missing : Text.splitOnce ']' list = none := by
                refine Text.splitOnce_eq_none_iff.mpr fun member => inside ?_
                refine List.mem_cons_of_mem c (Text.mem_of_mem_trimStart ?_)
                rw [opened]
                exact List.mem_cons_of_mem '[' member
              simp only [missing, opened]
              rfl
            · -- `other` rules out the bracket in both readers.
              have other := not_exists.mp unopened
              simp only
              rfl
          · rfl

theorem mapM_parts {parts : List (List Char)} (unclosed : ∀ part ∈ parts, ']' ∉ part) (fuel : Nat) :
    (parts.mapM fun part => whole (readDescriptor (fuel + 1)) (Text.trim part)) =
      (parts.mapM readIndexPart).map (List.map scalar) := by
  induction parts with
  | nil => rfl
  | cons part parts induction =>
      obtain ⟨first, others⟩ := List.forall_mem_cons.mp unclosed
      rw [List.mapM_cons, List.mapM_cons, whole_part first, induction others]
      cases readIndexPart part with
      | error cause => rfl
      | ok s => cases parts.mapM readIndexPart <;> rfl

/-- The two readers agree on an array if they agree on its elements. -/
theorem list_eq {fuel : Nat} {inside after : List Char} (unclosed : ']' ∉ inside)
    (element : readDescriptor (fuel + 1) after =
      (Ty.readDescriptor (fuel + 1) after).map fun found => (ofTy found.1, found.2)) :
    (do
      let index ← (Text.splitAll ',' inside).mapM fun part =>
        whole (readDescriptor (fuel + 1)) (Text.trim part)
      let (element, rest) ← readDescriptor (fuel + 1) after
      pure (array index element, rest)) =
    Except.map (fun found => (ofTy found.1, found.2)) (do
      let index ← (Text.splitAll ',' inside).mapM readIndexPart
      let (element, rest) ← Ty.readDescriptor (fuel + 1) after
      pure (Ty.array index element, rest)) := by
  have parts : ∀ part ∈ Text.splitAll ',' inside, ']' ∉ part :=
    fun part member closing => unclosed (Text.mem_of_mem_splitAll member closing)
  rw [mapM_parts parts, element]
  cases (Text.splitAll ',' inside).mapM readIndexPart with
  | error cause => rfl
  | ok index => cases Ty.readDescriptor (fuel + 1) after <;> rfl

/-- The two readers agree, on what they refuse as well. -/
theorem readDescriptor_eq {fuel : Nat} {text : List Char} (enough : text.length ≤ fuel) :
    readDescriptor fuel text =
      (Ty.readDescriptor fuel text).map fun found => (ofTy found.1, found.2) := by
  induction fuel generalizing text with
  | zero => rfl
  | succ fuel induction =>
      cases text with
      | nil => rfl
      | cons c rest =>
          rw [readDescriptor, Ty.readDescriptor]
          rw [List.length_cons] at enough
          cases letter : Scalar.ofLetter? c with
          | some s => rfl
          | none =>
              simp only
              split
              · rcases Classical.em (∃ list, Text.trimStart rest = '[' :: list) with
                  ⟨list, opened⟩ | unopened
                · simp only [opened]
                  cases cut : Text.splitOnce ']' list with
                  | none => rfl
                  | some found =>
                      obtain ⟨inside, after⟩ := found
                      have blanks := Text.length_trimStart_le rest
                      have shorter := Text.length_trimStart_le after
                      rw [opened, Text.eq_of_splitOnce cut] at blanks
                      simp only [List.length_cons, List.length_append] at blanks
                      obtain ⟨more, rfl⟩ : ∃ more, fuel = more + 1 := ⟨fuel - 1, by omega⟩
                      exact list_eq (Text.notMem_of_splitOnce cut) (induction (by omega))
                · have other := not_exists.mp unopened
                  simp only
                  rfl
              · rfl

theorem ofDescriptor_eq (text : String) : ofDescriptor text = (Ty.ofDescriptor text).map ofTy := by
  have agree := readDescriptor_eq (Nat.le_succ_of_le (Text.length_trim_le text.toList))
  rw [ofDescriptor, whole, Ty.ofDescriptor, agree, String.ofList_toList]
  cases Ty.readDescriptor (text.toList.length + 1) (Text.trim text.toList) with
  | error cause => rfl
  | ok found =>
      change (if (Text.trim found.2).isEmpty then pure (ofTy found.1)
        else Except.error (DescriptorError.trailing text)) =
          Except.map ofTy (if (Text.trim found.2).isEmpty then pure found.1
            else Except.error (DescriptorError.trailing text))
      split <;> rfl

end FreeTy

namespace Ty

/-- A descriptor denotes a type in which every array has an index, also if index positions may be of
any type: such a reader finds scalars there and nothing else. Every type with indexes is denoted by
its own descriptor, so no two of them have the same one. -/
theorem descriptors_faithful :
    (∀ text ty, ofDescriptor text = .ok ty → ty.isIndexed = true) ∧
    (∀ text, FreeTy.ofDescriptor text = (ofDescriptor text).map FreeTy.ofTy) ∧
    (∀ ty : Ty, ty.isIndexed = true → ofDescriptor ty.descriptor = .ok ty) ∧
    ∀ first second : Ty, first.isIndexed = true → second.isIndexed = true →
      first.descriptor = second.descriptor → first = second := by
  refine ⟨fun _ _ read => (ofDescriptor_ok read).1, FreeTy.ofDescriptor_eq,
    fun _ indexed => ofDescriptor_descriptor indexed, fun first second indexed indexed' same => ?_⟩
  have read := ofDescriptor_descriptor indexed
  rw [same, ofDescriptor_descriptor indexed'] at read
  exact (Except.ok.inj read).symm

/-- A table of tables, denoted by its descriptor and by one with blanks. -/
theorem nested_table_denoted :
    ∃ ty : Ty, ty = .array [.int, .str] (.array [.bool] .float) ∧ ty.isIndexed = true ∧
      ty.descriptor = "a [i,s] a [b] f" ∧ ofDescriptor ty.descriptor = .ok ty ∧
      (∀ other : Ty, other.isIndexed = true → other.descriptor = ty.descriptor → other = ty) ∧
      ∃ text free, text = " a[ i ,s]a [b ]  f " ∧ FreeTy.ofDescriptor text = .ok free ∧
        free = FreeTy.ofTy ty := by
  obtain ⟨-, agree, denoted, distinct⟩ := descriptors_faithful
  have indexed : (array [.int, .str] (.array [.bool] .float)).isIndexed = true := rfl
  have blanks : ofDescriptor " a[ i ,s]a [b ]  f " =
      .ok (.array [.int, .str] (.array [.bool] .float)) := by decide
  refine ⟨_, rfl, indexed, rfl, denoted _ indexed,
    fun other shaped same => distinct other _ shaped indexed same, _, _, rfl, ?_, rfl⟩
  rw [agree, blanks]
  rfl

end Ty

end StackScript
