import StackScript.Proofs.Code.Places

namespace StackScript

/-! Instructions that are encoded one after the other are decoded again, and decoded code is encoded
again as it was, but for the bytes that decoding does not tell apart. -/

open Instruction

namespace CodeUnit

/-- Appends instructions one after the other, and lists the offsets where they are put. -/
def pushAll : CodeUnit → List Instruction → CodeUnit × List Nat
  | unit, [] => (unit, [])
  | unit, i :: rest =>
      let whole := pushAll (unit.push i) rest
      (whole.1, unit.size :: whole.2)

theorem length_pushAll (unit : CodeUnit) (is : List Instruction) :
    (unit.pushAll is).2.length = is.length := by
  induction is generalizing unit with
  | nil => rfl
  | cons i rest induction => exact congrArg (· + 1) (induction (unit.push i))

theorem pushAll_code (unit : CodeUnit) (is : List Instruction) :
    (unit.pushAll is).1.code = unit.code ++ is.flatMap encode := by
  induction is generalizing unit with
  | nil => exact (List.append_nil _).symm
  | cons i rest induction =>
      rw [pushAll, induction (unit.push i), List.flatMap_cons, ← List.append_assoc]
      rfl

/-- The operand of a truth value is a zero or a one, and the bytes behind a float are zeros. -/
def Tidy (code : List UInt8) (place : Nat × Instruction) : Prop :=
  match place.2 with
  | .putBoolean _ => code[place.1 + 1]? = some 0 ∨ code[place.1 + 1]? = some 1
  | .putFloat _ => (code.drop (place.1 + 9)).take 4 = [0, 0, 0, 0]
  | _ => True

end CodeUnit

open CodeUnit

namespace Chunked

variable {offset : Nat} {code : List UInt8} {places : List (Nat × Instruction)} {unit : CodeUnit}

/-! Encoding, then decoding. -/

theorem push {i : Instruction} (chunked : Chunked 0 unit.code places) (clean : i.NulFree) :
    Chunked 0 (unit.push i).code (places ++ [(unit.size, i)]) := by
  have longer := chunked.concat (isChunk_encode clean)
  rwa [Nat.zero_add] at longer

theorem pushAll {is : List Instruction} (chunked : Chunked 0 unit.code places)
    (clean : ∀ i ∈ is, i.NulFree) :
    Chunked 0 (unit.pushAll is).1.code (places ++ (unit.pushAll is).2.zip is) := by
  induction is generalizing unit places with
  | nil => exact (List.append_nil places).symm ▸ chunked
  | cons i rest induction =>
      obtain ⟨first, others⟩ := List.forall_mem_cons.mp clean
      have longer := induction (chunked.push first) others
      rwa [List.append_assoc, List.singleton_append] at longer

/-! Decoding, then encoding. -/

theorem nulFree (chunked : Chunked offset code places) : ∀ i ∈ places.map Prod.snd, i.NulFree := by
  induction chunked with
  | nil => exact List.forall_mem_nil _
  | cons reads _ induction => exact List.forall_mem_cons.mpr ⟨reads.nulFree, induction⟩

/-- Each instruction is encoded in as many bytes as it was decoded from. -/
theorem encoded (chunked : Chunked offset code places) :
    Chunked offset ((places.map Prod.snd).flatMap Instruction.encode) places := by
  induction chunked with
  | nil offset => exact .nil offset
  | cons reads _ induction =>
      rw [reads.length_eq] at induction
      exact .cons (isChunk_encode reads.nulFree) induction

theorem length_encoded (chunked : Chunked offset code places) :
    ((places.map Prod.snd).flatMap Instruction.encode).length = code.length := by
  induction chunked with
  | nil => rfl
  | cons reads _ induction =>
      rw [List.map_cons, List.flatMap_cons, List.length_append, List.length_append, induction,
        reads.length_eq]
      rfl

end Chunked

theorem Instruction.IsChunk.tidy_iff {chunk : List UInt8} {i : Instruction}
    (reads : IsChunk chunk i) (front back : List UInt8) :
    Tidy (front ++ (chunk ++ back)) (front.length, i) ↔ i.encode = chunk := by
  obtain ⟨operands, rfl, -, spelled⟩ := reads.exists_operands
  cases i with
  | putBoolean value =>
      obtain ⟨byte, rfl, rfl⟩ := spelled
      have found : (front ++ ((opcode (.putBoolean (byte != 0))).toByte :: [byte] ++ back))[
          front.length + 1]? = some byte := by
        simp
      simp only [Tidy, found, Option.some.injEq, encode, operands, List.cons.injEq, true_and,
        and_true]
      by_cases zero : byte = 0
      · simp [zero]
      · simp only [zero, false_or, bne_iff_ne, ne_eq, not_false_eq_true, if_true]
        exact eq_comm
  | putFloat bits =>
      obtain ⟨padding, rfl, four⟩ := spelled
      have behind : (front ++ ((opcode (.putFloat bits)).toByte ::
          (Bytes.ofNat 8 bits.toNat ++ padding) ++ back)).drop (front.length + 9) =
            padding ++ back := by
        simp [List.drop_append, List.drop_eq_nil_of_le]
      have found : (padding ++ back).take 4 = padding := by
        rw [← four, List.take_left]
      simp only [Tidy, behind, found, encode, operands, List.cons.injEq, true_and,
        List.append_cancel_left_eq]
      exact eq_comm
  | _ =>
      simp only [Tidy, encode, true_iff]
      exact congrArg _ spelled.symm

namespace Chunked

variable {offset : Nat} {code : List UInt8} {places : List (Nat × Instruction)}

/-- The bytes in front of the code only shift the places. -/
theorem encoded_eq_iff (chunked : Chunked offset code places) (front : List UInt8)
    (start : front.length = offset) :
    (places.map Prod.snd).flatMap Instruction.encode = code ↔
      ∀ place ∈ places, Tidy (front ++ code) place := by
  induction chunked generalizing front with
  | nil => exact iff_of_true rfl (List.forall_mem_nil _)
  | @cons offset chunk code i places reads rest induction =>
      have others := induction (front ++ chunk) (by rw [List.length_append, start])
      have here : Tidy (front ++ (chunk ++ code)) (offset, i) ↔ i.encode = chunk :=
        start ▸ reads.tidy_iff front code
      rw [List.append_assoc] at others
      rw [List.forall_mem_cons, here, ← others, List.map_cons, List.flatMap_cons]
      constructor
      · intro same
        exact List.append_inj same reads.length_eq.symm
      · rintro ⟨first, more⟩
        rw [first, more]

end Chunked

namespace CodeUnit

/-- Instructions whose texts have no NUL are found again at the offsets where they were put. The
instructions that are found in any code, put into an empty unit, fill as many bytes and are found
there at the same offsets; the bytes are the same exactly if those are zero or one that tell a
truth value, and those are zero that fill up a float. -/
theorem codec :
    (∀ is : List Instruction, (∀ i ∈ is, i.NulFree) →
      (empty.pushAll is).2.length = is.length ∧
        (empty.pushAll is).1.instructions? = some ((empty.pushAll is).2.zip is)) ∧
    ∀ (unit : CodeUnit) (places : List (Nat × Instruction)), unit.instructions? = some places →
      (empty.pushAll (places.map Prod.snd)).1.size = unit.size ∧
        (empty.pushAll (places.map Prod.snd)).1.instructions? = some places ∧
        ((empty.pushAll (places.map Prod.snd)).1.code = unit.code ↔
          ∀ place ∈ places, Tidy unit.code place) := by
  refine ⟨fun is clean => ⟨length_pushAll empty is, ?_⟩, fun unit places linear => ?_⟩
  · have start : Chunked 0 empty.code [] := .nil 0
    exact instructions?_eq_some_iff.mpr (start.pushAll clean)
  · have chunked := instructions?_eq_some_iff.mp linear
    have code : (empty.pushAll (places.map Prod.snd)).1.code =
        (places.map Prod.snd).flatMap Instruction.encode := pushAll_code empty _
    rw [size, instructions?_eq_some_iff, code]
    exact ⟨chunked.length_encoded, chunked.encoded, chunked.encoded_eq_iff [] rfl⟩

/-- A quoted text and a call of the system behind each other; then code with a truth value of seven
and with something behind a float, which comes out with other bytes of the same number. -/
theorem loose_bytes_encoded :
    ∃ (is : List Instruction) (unit : CodeUnit) (places : List (Nat × Instruction)),
      is = [.putString "a\"b\\", .jump 5, .syscall 3 "print"] ∧ (∀ i ∈ is, i.NulFree) ∧
      (empty.pushAll is).2 = [0, 6, 11] ∧
      (empty.pushAll is).1.instructions? = some ((empty.pushAll is).2.zip is) ∧
      unit.code = [8, 7, 6, 0, 0, 0, 0, 0, 0, 240, 63, 1, 2, 3, 4, 27] ∧
      unit.instructions? = some places ∧
      places = [(0, .putBoolean true), (2, .putFloat 0x3ff0000000000000), (15, .stop)] ∧
      (empty.pushAll (places.map Prod.snd)).1.size = unit.size ∧
      (empty.pushAll (places.map Prod.snd)).1.instructions? = some places ∧
      (empty.pushAll (places.map Prod.snd)).1.code ≠ unit.code := by
  let is : List Instruction := [.putString "a\"b\\", .jump 5, .syscall 3 "print"]
  let unit : CodeUnit :=
    { table := []
      code := [8, 7, 6, 0, 0, 0, 0, 0, 0, 240, 63, 1, 2, 3, 4, 27]
      jumps := []
      functions := [] }
  let places : List (Nat × Instruction) :=
    [(0, .putBoolean true), (2, .putFloat 0x3ff0000000000000), (15, .stop)]
  have clean : ∀ i ∈ is, i.NulFree := by simp [is, NulFree]
  have linear : unit.instructions? = some places := by decide
  obtain ⟨encoding, decoding⟩ := codec
  obtain ⟨size, again, same⟩ := decoding unit places linear
  refine ⟨is, unit, places, rfl, clean, by decide, (encoding is clean).2, rfl, linear, rfl,
    size, again, ?_⟩
  intro equal
  rcases same.mp equal (0, .putBoolean true) List.mem_cons_self with zero | one
  · exact absurd zero (by decide)
  · exact absurd one (by decide)

end CodeUnit

end StackScript
