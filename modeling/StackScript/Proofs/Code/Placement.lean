import StackScript.CodeUnit.Basic
import StackScript.Proofs.Instruction.Codec

namespace StackScript

/-! Code that does not depend on its place: lists of instructions whose jumps count from themselves.
A unit holds such a list, and joining units appends the lists. -/

namespace Instruction

/-- Moves the target of a jump. -/
def shift (base : Nat) : Instruction → Instruction
  | .jump target => .jump (target + UInt32.ofNat base)
  | .jumpIfFalse target => .jumpIfFalse (target + UInt32.ofNat base)
  | instruction => instruction

@[simp] theorem width_shift (base : Nat) (i : Instruction) : (i.shift base).width = i.width := by
  cases i <;> simp [shift, width_eq, operands]

@[simp] theorem shift_zero (i : Instruction) : i.shift 0 = i := by
  cases i <;> simp [shift]

/-- Only jumps depend on their place. -/
theorem shift_eq_self {i : Instruction} (plain : i.target? = none) (base : Nat) :
    i.shift base = i := by
  cases i with
  | jump target => cases plain
  | jumpIfFalse target => cases plain
  | _ => rfl

theorem shift_shift (first second : Nat) (i : Instruction) :
    (i.shift first).shift second = i.shift (first + second) := by
  cases i <;> simp [shift, UInt32.ofNat_add, UInt32.add_assoc]

theorem NulFree.shift {i : Instruction} (clean : i.NulFree) (base : Nat) :
    (i.shift base).NulFree := by
  cases i <;> exact clean

end Instruction

/-- Instructions one after the other; a jump goes to its target counted from itself. -/
abbrev Listing := List Instruction

namespace Listing

/-- Number of bytes. -/
def width : Listing → Nat
  | [] => 0
  | i :: rest => i.width + width rest

@[simp] theorem width_nil : width [] = 0 := rfl

@[simp] theorem width_cons (i : Instruction) (rest : Listing) :
    width (i :: rest) = i.width + width rest := rfl

@[simp] theorem width_append (front back : Listing) :
    width (front ++ back) = width front + width back := by
  induction front with
  | nil => simp
  | cons i front induction => simp [induction, Nat.add_assoc]

/-- The instructions as they stand from an offset on: jumps go to their targets in the whole. -/
def placed : (offset : Nat) → Listing → List Instruction
  | _, [] => []
  | offset, i :: rest => i.shift offset :: placed (offset + i.width) rest

/-- The bytes of the instructions from an offset on. -/
def bytes (offset : Nat) (listing : Listing) : List UInt8 :=
  (placed offset listing).flatMap Instruction.encode

@[simp] theorem bytes_nil (offset : Nat) : bytes offset [] = [] := rfl

@[simp] theorem bytes_cons (offset : Nat) (i : Instruction) (rest : Listing) :
    bytes offset (i :: rest) = (i.shift offset).encode ++ bytes (offset + i.width) rest := rfl

theorem bytes_append (offset : Nat) (front back : Listing) :
    bytes offset (front ++ back) = bytes offset front ++ bytes (offset + width front) back := by
  induction front generalizing offset with
  | nil => simp
  | cons i front induction => simp [induction, Nat.add_assoc]

@[simp] theorem length_bytes (offset : Nat) (listing : Listing) :
    (bytes offset listing).length = width listing := by
  induction listing generalizing offset with
  | nil => rfl
  | cons i rest induction =>
      have first : (i.shift offset).encode.length = i.width := Instruction.width_shift offset i
      simp [induction, first]

theorem jumpsFrom_append (offset : Nat) (front back : Listing) :
    CodeUnit.jumpsFrom offset (front ++ back) =
      CodeUnit.jumpsFrom offset front ++ CodeUnit.jumpsFrom (offset + width front) back := by
  induction front generalizing offset with
  | nil => simp [CodeUnit.jumpsFrom]
  | cons i front induction =>
      simp [CodeUnit.jumpsFrom, induction, Instruction.width, Nat.add_assoc]

theorem jumpsFrom_add (base offset : Nat) (listing : Listing) :
    CodeUnit.jumpsFrom (offset + base) listing =
      (CodeUnit.jumpsFrom offset listing).map (· + base) := by
  induction listing generalizing offset with
  | nil => rfl
  | cons i rest induction =>
      simp only [CodeUnit.jumpsFrom, List.map_append, List.map_map]
      rw [Nat.add_right_comm, induction]
      congr 1
      apply List.map_congr_left
      intro o _
      simp [Nat.add_assoc]

end Listing

/-! Relocation adds to the words at the recorded offsets, and changes nothing else. -/

theorem overwrite_append (front old new back : List UInt8) (same : new.length = old.length) :
    CodeUnit.overwrite front.length new (front ++ (old ++ back)).toArray =
      (front ++ (new ++ back)).toArray := by
  induction new generalizing front old with
  | nil =>
      have none : old = [] := List.length_eq_zero_iff.mp same.symm
      simp [CodeUnit.overwrite, none]
  | cons byte new induction =>
      cases old with
      | nil => simp at same
      | cons first old =>
          have step := induction (front ++ [byte]) old (by simpa using same)
          simp only [List.length_append, List.length_singleton, List.append_assoc,
            List.singleton_append] at step
          simpa [CodeUnit.overwrite] using step

theorem toWord_ofWord (word : UInt32) : Bytes.toWord (Bytes.ofWord word) = word := by
  rw [Bytes.toWord, Bytes.ofWord, Bytes.toNat_ofNat_of_lt word.toNat_lt, UInt32.ofNat_toNat]

theorem ofWord_eq (word : UInt32) :
    ∃ a b c d, Bytes.ofWord word = [a, b, c, d] ∧ Bytes.toWord [a, b, c, d] = word :=
  ⟨_, _, _, _, rfl, toWord_ofWord word⟩

theorem shiftWord_append (base word : UInt32) (front back : List UInt8) :
    CodeUnit.shiftWord base (front ++ (Bytes.ofWord word ++ back)).toArray front.length =
      (front ++ (Bytes.ofWord (word + base) ++ back)).toArray := by
  obtain ⟨a, b, c, d, bytes, read⟩ := ofWord_eq word
  have whole := overwrite_append front (Bytes.ofWord word) (Bytes.ofWord (word + base)) back (by simp)
  rw [bytes] at whole ⊢
  simp only [CodeUnit.shiftWord, List.getElem?_toArray]
  simpa [List.getElem?_append_right, read] using whole

theorem shiftWord_jump (base : Nat) {i : Instruction} (jump : i.target?.isSome)
    (front back : List UInt8) :
    CodeUnit.shiftWord (UInt32.ofNat base) (front ++ (i.encode ++ back)).toArray
        (1 + front.length) =
      (front ++ ((i.shift base).encode ++ back)).toArray := by
  cases i with
  | jump target =>
      have moved := shiftWord_append (UInt32.ofNat base) target
        (front ++ [Opcode.toByte .jump]) back
      simpa [Instruction.encode, Instruction.operands, Instruction.shift, Instruction.opcode,
        Nat.add_comm] using moved
  | jumpIfFalse target =>
      have moved := shiftWord_append (UInt32.ofNat base) target
        (front ++ [Opcode.toByte .jumpIfFalse]) back
      simpa [Instruction.encode, Instruction.operands, Instruction.shift, Instruction.opcode,
        Nat.add_comm] using moved
  | _ => simp [Instruction.target?] at jump

/-- Relocating the code of a list places the list elsewhere. -/
theorem relocate_fold (base offset : Nat) (listing : Listing) (front back : List UInt8) :
    (CodeUnit.jumpsFrom front.length listing).foldl (CodeUnit.shiftWord (UInt32.ofNat base))
        (front ++ (Listing.bytes offset listing ++ back)).toArray =
      (front ++ (Listing.bytes (offset + base) listing ++ back)).toArray := by
  induction listing generalizing front offset with
  | nil => rfl
  | cons i rest induction =>
      have step : ((CodeUnit.jumpOffsets i).map (· + front.length)).foldl
            (CodeUnit.shiftWord (UInt32.ofNat base))
            (front ++ ((i.shift offset).encode ++
              (Listing.bytes (offset + i.width) rest ++ back))).toArray =
          (front ++ ((i.shift (offset + base)).encode ++
            (Listing.bytes (offset + i.width) rest ++ back))).toArray := by
        rw [← Instruction.shift_shift]
        by_cases jump : i.target?.isSome
        · have moved := shiftWord_jump base (i := i.shift offset)
            (by cases i <;> simp_all [Instruction.target?, Instruction.shift]) front
            (Listing.bytes (offset + i.width) rest ++ back)
          simpa [CodeUnit.jumpOffsets, jump] using moved
        · have plain : (i.shift offset).target? = none := by
            cases i <;> simp_all [Instruction.target?, Instruction.shift]
          simp [CodeUnit.jumpOffsets, jump, Instruction.shift_eq_self plain]
      have others := induction (offset + i.width) (front ++ (i.shift (offset + base)).encode)
      have size : (front ++ (i.shift (offset + base)).encode).length =
          front.length + i.encode.length := by
        rw [List.length_append]
        exact congrArg _ (Instruction.width_shift (offset + base) i)
      rw [size] at others
      simp only [CodeUnit.jumpsFrom, List.foldl_append, Listing.bytes_cons, List.append_assoc]
      rw [step]
      simpa [List.append_assoc, Nat.add_right_comm] using others

namespace CodeUnit

/-- The unit consists of the instructions, and records where their code addresses are. -/
structure Holds (unit : CodeUnit) (listing : Listing) : Prop where
  code : unit.code = listing.bytes 0
  jumps : unit.jumps = jumpsFrom 0 listing

theorem Holds.size {unit : CodeUnit} {listing : Listing} (holds : unit.Holds listing) :
    unit.size = listing.width := by
  rw [CodeUnit.size, holds.code, Listing.length_bytes]

theorem holds_empty : Holds empty [] where
  code := rfl
  jumps := rfl

theorem holds_single (i : Instruction) : Holds (single i) [i] where
  code := by simp [single, push, empty]
  jumps := by simp [single, push, empty, size, jumpsFrom]

theorem append_code (left right : CodeUnit) :
    (left ++ right).code = left.code ++ relocate left.size right.code right.jumps := rfl

theorem append_jumps (left right : CodeUnit) :
    (left ++ right).jumps = left.jumps ++ right.jumps.map (· + left.size) := rfl

theorem append_functions (left right : CodeUnit) :
    (left ++ right).functions = left.functions ++
      right.functions.map fun f => { f with offset := f.offset + left.size } := rfl

theorem Holds.append {left right : CodeUnit} {front back : Listing} (first : left.Holds front)
    (second : right.Holds back) : (left ++ right).Holds (front ++ back) where
  code := by
    have moved := relocate_fold left.size 0 back [] []
    simp only [List.length_nil, List.nil_append, List.append_nil, Nat.zero_add] at moved
    rw [append_code, relocate, second.code, second.jumps, moved, first.code, first.size,
      Listing.bytes_append, Nat.zero_add]
  jumps := by
    rw [append_jumps, first.jumps, second.jumps, first.size, Listing.jumpsFrom_append,
      ← Listing.jumpsFrom_add]

theorem holds_ofInstructions {listing : Listing} (plain : ∀ i ∈ listing, i.target? = none) :
    (ofInstructions listing).Holds listing where
  code := by
    have still : ∀ offset, listing.placed offset = listing := by
      induction listing with
      | nil => exact fun _ => rfl
      | cons i rest induction =>
          intro offset
          rw [Listing.placed, Instruction.shift_eq_self (plain i List.mem_cons_self) offset,
            induction (fun j member => plain j (List.mem_cons_of_mem i member))]
    simp [ofInstructions, Listing.bytes, still]
  jumps := rfl

theorem Holds.addFunction {unit : CodeUnit} {listing : Listing} (holds : unit.Holds listing)
    (symbol offset : Nat) : (unit.addFunction symbol offset).Holds listing :=
  ⟨holds.code, holds.jumps⟩

end CodeUnit

/-! Where a list stands in some code. -/

/-- From an offset on, the code consists of the instructions, with something behind them. -/
def Stands (code : List UInt8) (offset : Nat) (listing : Listing) : Prop :=
  ∃ front back, code = front ++ (listing.bytes offset ++ back) ∧ front.length = offset

namespace Stands

variable {code : List UInt8} {offset : Nat} {front back : Listing}

theorem append_left (stands : Stands code offset (front ++ back)) : Stands code offset front := by
  obtain ⟨before, after, rfl, rfl⟩ := stands
  exact ⟨before, back.bytes (before.length + front.width) ++ after,
    by rw [Listing.bytes_append, List.append_assoc], rfl⟩

theorem append_right (stands : Stands code offset (front ++ back)) :
    Stands code (offset + front.width) back := by
  obtain ⟨before, after, rfl, rfl⟩ := stands
  exact ⟨before ++ front.bytes before.length, after,
    by rw [Listing.bytes_append, List.append_assoc, List.append_assoc], by simp⟩

theorem behind_both {middle : Listing} (stands : Stands code offset (front ++ middle ++ back)) :
    Stands code (offset + front.width + middle.width) back := by
  have last := stands.append_right
  rwa [Listing.width_append, ← Nat.add_assoc] at last

theorem tail {i : Instruction} (stands : Stands code offset (i :: back)) :
    Stands code (offset + i.width) back := by
  have whole : Stands code offset ([i] ++ back) := stands
  simpa using whole.append_right

theorem le_length (stands : Stands code offset front) : offset + front.width ≤ code.length := by
  obtain ⟨before, after, rfl, rfl⟩ := stands
  simp only [List.length_append, Listing.length_bytes]
  omega

theorem decode {i : Instruction} (stands : Stands code offset (i :: back)) (clean : i.NulFree) :
    Instruction.decode? (code.drop offset) = some (i.shift offset, i.width) := by
  obtain ⟨before, after, rfl, rfl⟩ := stands
  rw [List.drop_left, Listing.bytes_cons, List.append_assoc,
    Instruction.decode?_encode_append (clean.shift _), Instruction.width_shift]

end Stands

theorem CodeUnit.Holds.stands {unit : CodeUnit} {listing : Listing} (holds : unit.Holds listing) :
    Stands unit.code 0 listing :=
  ⟨[], [], by simp [holds.code], rfl⟩

end StackScript
