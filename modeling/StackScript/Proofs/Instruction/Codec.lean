import Mathlib.Data.List.TakeWhile
import StackScript.Instruction.Codec
import StackScript.Proofs.Text.Utf8

namespace StackScript

/-! The bytes of instructions. What is decoded is an operation code and bytes that spell operands,
and from these the instruction is decoded, whatever follows them. -/

namespace Bytes

theorem toNat_lt {width : Nat} {bytes : List UInt8} (length : bytes.length = width) :
    toNat bytes < Nat.pow 256 width := by
  subst length
  induction bytes with
  | nil => exact Nat.one_pos
  | cons byte rest induction =>
      have small := byte.toNat_lt
      have step : Nat.pow 256 (rest.length + 1) = 256 * Nat.pow 256 rest.length :=
        Nat.mul_comm _ 256
      rw [toNat, List.length_cons, step]
      omega

theorem ofNat_toNat {width : Nat} {bytes : List UInt8} (length : bytes.length = width) :
    ofNat width (toNat bytes) = bytes := by
  subst length
  induction bytes with
  | nil => rfl
  | cons byte rest induction =>
      have small := byte.toNat_lt
      have low : UInt8.ofNat (byte.toNat + 256 * toNat rest) = byte := by
        apply UInt8.toNat_inj.mp
        rw [UInt8.toNat_ofNat']
        omega
      have high : (byte.toNat + 256 * toNat rest) / 256 = toNat rest := by omega
      rw [List.length_cons, toNat, ofNat, low, high, induction]

theorem ofWord_toWord {front : List UInt8} (length : front.length = 4) :
    ofWord (toWord front) = front := by
  rw [ofWord, toWord, UInt32.toNat_ofNat_of_lt' (toNat_lt length), ofNat_toNat length]

theorem read?_ofNat_append {width value : Nat} (fits : value < Nat.pow 256 width)
    (rest : List UInt8) : read? width (ofNat width value ++ rest) = some (value, rest) := by
  rw [read?, split?_front (length_ofNat width value), Option.map_some, toNat_ofNat_of_lt fits]

end Bytes

namespace Instruction

/-- The texts of an instruction have no NUL character, which would end them early. -/
def NulFree : Instruction → Prop
  | .putString text => '\x00' ∉ text.toList
  | .syscall _ name => '\x00' ∉ name.toList
  | _ => True

/-- The bytes stand for the operands. Every byte but zero stands for `true`, and behind a float
there are four bytes that nothing reads. -/
def SpelledBy (operands : List UInt8) : Instruction → Prop
  | .putBoolean value => ∃ byte : UInt8, operands = [byte] ∧ value = (byte != 0)
  | .putFloat bits =>
      ∃ padding, operands = Bytes.ofNat 8 bits.toNat ++ padding ∧ padding.length = 4
  | i => operands = i.operands

theorem spelledBy_operands (i : Instruction) : i.SpelledBy i.operands := by
  cases i with
  | putBoolean value => exact ⟨_, rfl, by cases value <;> rfl⟩
  | putFloat bits => exact ⟨_, rfl, rfl⟩
  | _ => rfl

def width (instruction : Instruction) : Nat :=
  instruction.encode.length

theorem width_eq (instruction : Instruction) :
    instruction.width = instruction.operands.length + 1 := by
  simp [width, encode]

theorem SpelledBy.length {operands : List UInt8} {i : Instruction}
    (spelled : i.SpelledBy operands) : operands.length + 1 = i.width := by
  rw [width_eq]
  cases i with
  | putBoolean value =>
      obtain ⟨byte, rfl, -⟩ := spelled
      rfl
  | putFloat bits =>
      obtain ⟨padding, rfl, length⟩ := spelled
      simp [operands, length]
  | _ => exact congrArg (·.length + 1) spelled

/-! From bytes to instructions. -/

theorem decodeText?_encodeText_append {text : String} (clean : '\x00' ∉ text.toList)
    (rest : List UInt8) :
    decodeText? (encodeText text ++ rest) = some (text, (encodeText text).length) := by
  have inside : ∀ byte ∈ Text.Utf8.encode text.toList, (byte != 0) = true := by
    intro byte member
    have zero := Text.Utf8.zero_notMem_encode clean
    simp only [bne_iff_ne, ne_eq]
    rintro rfl
    exact zero member
  have front : (encodeText text ++ rest).takeWhile (· != 0) = Text.Utf8.encode text.toList := by
    rw [encodeText, List.append_assoc, List.takeWhile_append_of_pos inside]
    simp
  have back : (encodeText text ++ rest).dropWhile (· != 0) = 0 :: rest := by
    rw [encodeText, List.append_assoc, List.dropWhile_append_of_pos inside]
    simp
  simp only [decodeText?, front, back, Text.Utf8.decode_encode]
  simp [encodeText]

theorem decodeOperands?_append {operands : List UInt8} {i : Instruction}
    (spelled : i.SpelledBy operands) (clean : i.NulFree) (rest : List UInt8) :
    decodeOperands? i.opcode (operands ++ rest) = some (i, operands.length) := by
  cases i with
  | putBoolean value =>
      obtain ⟨byte, rfl, rfl⟩ := spelled
      rfl
  | putFloat bits =>
      obtain ⟨padding, rfl, length⟩ := spelled
      have twelve : (Bytes.ofNat 8 bits.toNat ++ padding).length = 12 := by simp [length]
      have front : (Bytes.ofNat 8 bits.toNat ++ padding).take 8 = Bytes.ofNat 8 bits.toNat := by
        simp
      have number : Bytes.toNat (Bytes.ofNat 8 bits.toNat) = bits.toNat :=
        Bytes.toNat_ofNat_of_lt bits.toNat_lt
      simp only [decodeOperands?, opcode, plain?, ofWord?, Bytes.split?_front twelve, twelve]
      simp [front, number]
  | nop | neg | stop =>
      obtain rfl : operands = [] := spelled
      rfl
  | assign update =>
      obtain rfl : operands = [] := spelled
      cases update <;> rfl
  | compare relation =>
      obtain rfl : operands = [] := spelled
      cases relation <;> rfl
  | arith operation =>
      obtain rfl : operands = [] := spelled
      cases operation <;> rfl
  | putAddr word | putDAddr word | putMemberAddr word | call word | ret word | initVar word
  | allocVar word | allocVars word | jump word | jumpIfFalse word =>
      obtain rfl : operands = Bytes.ofWord word := spelled
      simp [decodeOperands?, opcode, plain?, ofWord?, Bytes.readWord?_ofWord_append]
  | putIndAddr count =>
      obtain rfl : operands = [count] := spelled
      rfl
  | putInt value =>
      obtain rfl : operands = Bytes.ofNat 8 value.toUInt64.toNat := spelled
      have number : value.toUInt64.toNat < Nat.pow 256 8 := value.toUInt64.toNat_lt
      have same : Int64.ofNat value.toUInt64.toNat = value := by
        rw [← UInt64.toInt64_ofNat', UInt64.ofNat_toNat, Int64.toInt64_toUInt64]
      simp [decodeOperands?, opcode, plain?, ofWord?, Bytes.read?_ofNat_append number, same]
  | putString text =>
      obtain rfl : operands = encodeText text := spelled
      simp [decodeOperands?, opcode, plain?, ofWord?, decodeText?_encodeText_append clean]
  | syscall word name =>
      obtain rfl : operands = Bytes.ofWord word ++ encodeText name := spelled
      simp [decodeOperands?, opcode, plain?, ofWord?, List.append_assoc,
        Bytes.readWord?_ofWord_append, decodeText?_encodeText_append clean]

theorem decode?_append {operands : List UInt8} {i : Instruction} (spelled : i.SpelledBy operands)
    (clean : i.NulFree) (rest : List UInt8) :
    decode? (i.opcode.toByte :: operands ++ rest) = some (i, i.width) := by
  simp [decode?, decodeOperands?_append spelled clean, spelled.length]

theorem decode?_encode_append {instruction : Instruction} (clean : instruction.NulFree)
    (rest : List UInt8) :
    decode? (instruction.encode ++ rest) = some (instruction, instruction.width) :=
  decode?_append (spelledBy_operands instruction) clean rest

/-! From instructions to bytes. -/

theorem exists_encodeText {bytes : List UInt8} {text : String} {width : Nat}
    (decoded : decodeText? bytes = some (text, width)) :
    ∃ rest, bytes = encodeText text ++ rest ∧ width = (encodeText text).length ∧
      '\x00' ∉ text.toList := by
  simp only [decodeText?] at decoded
  split at decoded
  · rename_i zero behind chars ends body
    cases decoded
    have stop : zero = 0 := by
      have head := List.head?_dropWhile_not (p := (· != 0)) (l := bytes)
      rw [ends] at head
      simpa using head
    subst stop
    have bodyEncoded := Text.Utf8.encode_of_decode body
    refine ⟨behind, ?_, ?_, ?_⟩
    · rw [encodeText, String.toList_ofList, bodyEncoded, List.append_assoc, List.singleton_append,
        ← ends, List.takeWhile_append_dropWhile]
    · rw [encodeText, String.toList_ofList, bodyEncoded, List.length_append, List.length_singleton]
    · rw [String.toList_ofList]
      intro member
      have zero := Text.Utf8.zero_mem_encode member
      rw [bodyEncoded] at zero
      have other := List.mem_takeWhile_imp (p := (· != 0)) zero
      cases other
  · cases decoded

theorem exists_word {bytes rest : List UInt8} {word : UInt32}
    (read : Bytes.readWord? bytes = some (word, rest)) : bytes = Bytes.ofWord word ++ rest := by
  obtain ⟨front, rfl, length, rfl⟩ := Bytes.readWord?_eq_some read
  rw [Bytes.ofWord_toWord length]

theorem plain?_eq_some {op : Opcode} {i : Instruction} (plain : plain? op = some i) :
    op = i.opcode ∧ i.NulFree ∧ i.SpelledBy [] := by
  cases op <;> cases plain <;> exact ⟨rfl, trivial, rfl⟩

theorem ofWord?_eq_some {op : Opcode} {build : UInt32 → Instruction}
    (built : ofWord? op = some build) (word : UInt32) :
    op = (build word).opcode ∧ (build word).NulFree ∧
      (build word).SpelledBy (Bytes.ofWord word) := by
  cases op <;> cases built <;> exact ⟨rfl, trivial, rfl⟩

/-- The bytes start with as many as the width says, which spell the operands of an instruction of
that operation. -/
def StartsWith (op : Opcode) (bytes : List UInt8) (i : Instruction) (width : Nat) : Prop :=
  ∃ operands rest, bytes = operands ++ rest ∧ operands.length = width ∧ op = i.opcode ∧
    i.NulFree ∧ i.SpelledBy operands

variable {bytes : List UInt8} {i : Instruction} {width : Nat}

theorem startsWith_putInt (decoded : decodeOperands? .putInt bytes = some (i, width)) :
    StartsWith .putInt bytes i width := by
  simp only [decodeOperands?, plain?, ofWord?, Bytes.read?, Option.bind_eq_bind,
    Option.bind_eq_some_iff, Option.map_eq_some_iff] at decoded
  obtain ⟨_, ⟨⟨front, rest⟩, split, rfl⟩, equal⟩ := decoded
  cases equal
  obtain ⟨rfl, length⟩ := Bytes.split?_eq_some split
  have same : Bytes.ofNat 8 (UInt64.ofNat (Bytes.toNat front)).toNat = front := by
    rw [UInt64.toNat_ofNat_of_lt' (Bytes.toNat_lt length), Bytes.ofNat_toNat length]
  exact ⟨front, rest, rfl, length, rfl, trivial, same.symm⟩

theorem startsWith_putFloat (decoded : decodeOperands? .putFloat bytes = some (i, width)) :
    StartsWith .putFloat bytes i width := by
  simp only [decodeOperands?, plain?, ofWord?, Option.bind_eq_bind,
    Option.bind_eq_some_iff] at decoded
  obtain ⟨⟨front, rest⟩, split, equal⟩ := decoded
  cases equal
  obtain ⟨rfl, length⟩ := Bytes.split?_eq_some split
  have eight : (front.take 8).length = 8 := by simp [length]
  have same : Bytes.ofNat 8 (UInt64.ofNat (Bytes.toNat (front.take 8))).toNat =
      front.take 8 := by
    rw [UInt64.toNat_ofNat_of_lt' (Bytes.toNat_lt eight), Bytes.ofNat_toNat eight]
  refine ⟨front, rest, rfl, length, rfl, trivial, front.drop 8, ?_, ?_⟩
  · rw [same, List.take_append_drop]
  · rw [List.length_drop, length]

theorem startsWith_putString (decoded : decodeOperands? .putString bytes = some (i, width)) :
    StartsWith .putString bytes i width := by
  simp only [decodeOperands?, plain?, ofWord?, Option.bind_eq_bind,
    Option.bind_eq_some_iff] at decoded
  obtain ⟨⟨text, length⟩, read, equal⟩ := decoded
  cases equal
  obtain ⟨rest, rfl, rfl, clean⟩ := exists_encodeText read
  exact ⟨_, rest, rfl, rfl, rfl, clean, rfl⟩

theorem startsWith_syscall (decoded : decodeOperands? .syscall bytes = some (i, width)) :
    StartsWith .syscall bytes i width := by
  simp only [decodeOperands?, plain?, ofWord?, Option.bind_eq_bind,
    Option.bind_eq_some_iff] at decoded
  obtain ⟨⟨word, behind⟩, number, ⟨name, length⟩, read, equal⟩ := decoded
  cases equal
  obtain rfl := exists_word number
  obtain ⟨rest, rfl, rfl, clean⟩ := exists_encodeText read
  refine ⟨Bytes.ofWord word ++ encodeText name, rest, ?_, ?_, rfl, clean, rfl⟩
  · rw [List.append_assoc]
  · rw [List.length_append, Bytes.length_ofWord]

theorem startsWith_of_decodeOperands? {op : Opcode}
    (decoded : decodeOperands? op bytes = some (i, width)) : StartsWith op bytes i width := by
  cases plain : plain? op with
  | some j =>
      simp only [decodeOperands?, plain] at decoded
      cases decoded
      obtain ⟨same, clean, spelled⟩ := plain?_eq_some plain
      exact ⟨[], bytes, rfl, rfl, same, clean, spelled⟩
  | none =>
      cases built : ofWord? op with
      | some build =>
          simp only [decodeOperands?, plain, built, Option.bind_eq_bind,
            Option.bind_eq_some_iff] at decoded
          obtain ⟨⟨word, rest⟩, read, equal⟩ := decoded
          cases equal
          obtain ⟨same, clean, spelled⟩ := ofWord?_eq_some built word
          exact ⟨_, rest, exists_word read, rfl, same, clean, spelled⟩
      | none =>
          cases op with
          | putIndAddr =>
              cases bytes with
              | nil => cases decoded
              | cons count rest =>
                  cases decoded
                  exact ⟨[count], rest, rfl, rfl, rfl, trivial, rfl⟩
          | putBoolean =>
              cases bytes with
              | nil => cases decoded
              | cons byte rest =>
                  cases decoded
                  exact ⟨[byte], rest, rfl, rfl, rfl, trivial, byte, rfl, rfl⟩
          | putInt => exact startsWith_putInt decoded
          | putFloat => exact startsWith_putFloat decoded
          | putString => exact startsWith_putString decoded
          | syscall => exact startsWith_syscall decoded
          | data | ddata | function => cases decoded
          | _ => contradiction

theorem toByte_of_ofByte? {byte : UInt8} {op : Opcode} (known : Opcode.ofByte? byte = some op) :
    op.toByte = byte := by
  have again : Opcode.ofByte? op.toByte = some op := Opcode.ofByte?_toByte op
  have inside := (List.getElem?_eq_some_iff.mp known).1
  have distinct : Opcode.all.Nodup := by decide
  have same := (List.getElem?_inj inside distinct).mp (known.trans again.symm)
  exact (UInt8.toNat_inj.mp same).symm

/-- What is decoded starts with an operation code and bytes that spell its operands. -/
theorem exists_spelling (decoded : decode? bytes = some (i, width)) :
    ∃ operands rest, bytes = i.opcode.toByte :: operands ++ rest ∧ width = i.width ∧ i.NulFree ∧
      i.SpelledBy operands := by
  cases bytes with
  | nil => cases decoded
  | cons byte bytes =>
      simp only [decode?, Option.bind_eq_bind, Option.bind_eq_some_iff] at decoded
      obtain ⟨op, known, ⟨i, width⟩, taken, equal⟩ := decoded
      cases equal
      obtain ⟨operands, rest, rfl, rfl, rfl, clean, spelled⟩ := startsWith_of_decodeOperands? taken
      exact ⟨operands, rest, by rw [toByte_of_ofByte? known]; rfl, spelled.length, clean, spelled⟩

end Instruction

end StackScript
