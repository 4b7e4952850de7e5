import Mathlib.Algebra.Group.Nat.Defs
import StackScript.Proofs.Code.Places

namespace StackScript

/-! Joining units appends their instructions, and it does not matter which of them are joined first.
The units may come from anywhere, and may list their jumps in any order. -/

open Instruction

/-! Relocation may take the offsets in any order, as long as their words do not overlap. -/

/-- What stands at a place after writing depends on what stood there before, and on nothing else. -/
theorem overwrite_congr {p : Nat} {code code' : Array UInt8} (same : code[p]? = code'[p]?)
    (offset : Nat) (bytes : List UInt8) :
    (CodeUnit.overwrite offset bytes code)[p]? = (CodeUnit.overwrite offset bytes code')[p]? := by
  induction bytes generalizing offset code code' with
  | nil => exact same
  | cons byte bytes induction =>
      apply induction
      rw [Array.getElem?_setIfInBounds, Array.getElem?_setIfInBounds, same]
      split
      · rename_i here
        subst here
        have inside : offset < code.size ↔ offset < code'.size := by
          rw [← Nat.not_le, ← Nat.not_le, ← Array.getElem?_eq_none_iff, same,
            Array.getElem?_eq_none_iff]
        simp only [inside]
      · rfl

/-- The shifted word depends on the word before, and on nothing else. -/
theorem shiftWord_congr {offset p : Nat} {code code' : Array UInt8} (base : UInt32)
    (same : ∀ q, offset ≤ q → q < offset + 4 → code[q]? = code'[q]?) (behind : offset ≤ p)
    (inside : p < offset + 4) :
    (CodeUnit.shiftWord base code offset)[p]? = (CodeUnit.shiftWord base code' offset)[p]? := by
  have here := same p behind inside
  simp only [CodeUnit.shiftWord, same offset (by omega) (by omega),
    same (offset + 1) (by omega) (by omega), same (offset + 2) (by omega) (by omega),
    same (offset + 3) (by omega) (by omega)]
  split
  · exact overwrite_congr here _ _
  · exact here

theorem shiftWord_comm {first second : Nat} (base : UInt32) (code : Array UInt8)
    (apart : first = second ∨ first + 4 ≤ second ∨ second + 4 ≤ first) :
    CodeUnit.shiftWord base (CodeUnit.shiftWord base code first) second =
      CodeUnit.shiftWord base (CodeUnit.shiftWord base code second) first := by
  rcases apart with rfl | apart
  · rfl
  apply Array.ext_getElem?
  intro p
  by_cases inFirst : first ≤ p ∧ p < first + 4
  · rw [shiftWord_getElem? (by omega)]
    refine shiftWord_congr base (fun q behind inside => ?_) inFirst.1 inFirst.2
    exact (shiftWord_getElem? (by omega) base code).symm
  by_cases inSecond : second ≤ p ∧ p < second + 4
  · have outside : p < first ∨ first + 4 ≤ p := by omega
    rw [shiftWord_getElem? outside]
    refine shiftWord_congr base (fun q behind inside => ?_) inSecond.1 inSecond.2
    exact shiftWord_getElem? (by omega) base code
  · rw [shiftWord_getElem? (by omega), shiftWord_getElem? (by omega),
      shiftWord_getElem? (by omega), shiftWord_getElem? (by omega)]

/-! Code as a row of chunks. -/

/-- The bytes that are read as an instruction, whoever has written them. -/
structure Chunk where
  bytes : List UInt8
  instruction : Instruction
  reads : IsChunk bytes instruction

namespace Chunk

theorem bytes_of_jump {chunk : Chunk} (jumps : chunk.instruction.target?.isSome) :
    chunk.bytes = chunk.instruction.encode := by
  obtain ⟨bytes, i, reads⟩ := chunk
  obtain ⟨target, jumps⟩ := Option.isSome_iff_exists.mp jumps
  refine (reads.jump jumps).trans ?_
  cases i <;> cases jumps <;> rfl

/-- Code that was written by hand may differ from what an encoder gives, so what is no jump stays
as it is. A jump holds nothing but its target. -/
def shift (base : Nat) (chunk : Chunk) : Chunk where
  bytes :=
    if chunk.instruction.target?.isSome then (chunk.instruction.shift base).encode else chunk.bytes
  instruction := chunk.instruction.shift base
  reads := by
    split
    · rename_i jumps
      have clean : (chunk.instruction.shift base).NulFree := by
        cases i : chunk.instruction <;> rw [i] at jumps <;> trivial
      exact isChunk_encode clean
    · rename_i plain
      rw [shift_eq_self (Option.not_isSome_iff_eq_none.mp plain)]
      exact chunk.reads

@[ext] theorem ext {first second : Chunk} (bytes : first.bytes = second.bytes)
    (instruction : first.instruction = second.instruction) : first = second := by
  cases first
  cases second
  cases bytes
  cases instruction
  rfl

theorem bytes_shift_of_jump {chunk : Chunk} (base : Nat)
    (jumps : chunk.instruction.target?.isSome) :
    (chunk.shift base).bytes = (chunk.instruction.shift base).encode :=
  if_pos jumps

theorem shift_of_plain {chunk : Chunk} (base : Nat) (plain : chunk.instruction.target? = none) :
    chunk.shift base = chunk := by
  apply ext
  · exact if_neg (by rw [plain]; exact Bool.false_ne_true)
  · exact shift_eq_self plain base

@[simp] theorem length_shift (base : Nat) (chunk : Chunk) :
    (chunk.shift base).bytes.length = chunk.bytes.length := by
  by_cases jumps : chunk.instruction.target?.isSome
  · rw [bytes_shift_of_jump base jumps, bytes_of_jump jumps]
    exact width_shift base chunk.instruction
  · rw [shift_of_plain base (Option.not_isSome_iff_eq_none.mp jumps)]

theorem shift_shift (first second : Nat) (chunk : Chunk) :
    (chunk.shift first).shift second = chunk.shift (first + second) := by
  by_cases jumps : chunk.instruction.target?.isSome
  · have still : (chunk.shift first).instruction.target?.isSome := by
      rw [shift, target?_shift, Option.isSome_map]
      exact jumps
    apply ext
    · rw [bytes_shift_of_jump _ still, bytes_shift_of_jump _ jumps, shift,
        Instruction.shift_shift]
    · exact Instruction.shift_shift first second chunk.instruction
  · have plain := Option.not_isSome_iff_eq_none.mp jumps
    rw [shift_of_plain first plain, shift_of_plain second plain, shift_of_plain _ plain]

theorem shift_zero (chunk : Chunk) : chunk.shift 0 = chunk := by
  by_cases jumps : chunk.instruction.target?.isSome
  · apply ext
    · rw [bytes_shift_of_jump 0 jumps, Instruction.shift_zero, bytes_of_jump jumps]
    · exact Instruction.shift_zero chunk.instruction
  · exact shift_of_plain 0 (Option.not_isSome_iff_eq_none.mp jumps)

end Chunk

/-- Where an instruction stands, and what it is, a number of bytes further on. -/
def movedPlace (base : Nat) (place : Nat × Instruction) : Nat × Instruction :=
  (place.1 + base, place.2.shift base)

/-- Chunks one after the other. -/
abbrev Row := List Chunk

namespace Row

def code (row : Row) : List UInt8 :=
  row.flatMap Chunk.bytes

/-- The instructions, each with its place if the first one stands at an offset. -/
def places : (offset : Nat) → Row → List (Nat × Instruction)
  | _, [] => []
  | offset, chunk :: rest =>
      (offset, chunk.instruction) :: places (offset + chunk.bytes.length) rest

def shift (base : Nat) (row : Row) : Row :=
  row.map (Chunk.shift base)

@[simp] theorem code_nil : code [] = [] := rfl

@[simp] theorem code_cons (chunk : Chunk) (rest : Row) :
    code (chunk :: rest) = chunk.bytes ++ code rest := rfl

@[simp] theorem code_append (front back : Row) :
    code (front ++ back) = code front ++ code back := by
  simp [code]

@[simp] theorem shift_cons (base : Nat) (chunk : Chunk) (rest : Row) :
    shift base (chunk :: rest) = chunk.shift base :: shift base rest := rfl

@[simp] theorem shift_append (base : Nat) (front back : Row) :
    shift base (front ++ back) = shift base front ++ shift base back :=
  List.map_append

theorem shift_shift (first second : Nat) (row : Row) :
    shift second (shift first row) = shift (first + second) row := by
  rw [shift, shift, shift, List.map_map]
  exact List.map_congr_left fun chunk _ => chunk.shift_shift first second

theorem shift_zero (row : Row) : shift 0 row = row :=
  List.map_id'' Chunk.shift_zero row

theorem places_append (offset : Nat) (front back : Row) :
    places offset (front ++ back) =
      places offset front ++ places (offset + front.code.length) back := by
  induction front generalizing offset with
  | nil => rfl
  | cons chunk front induction => simp [places, induction, Nat.add_assoc]

theorem places_shift (base offset : Nat) (row : Row) :
    places (offset + base) (shift base row) = (places offset row).map (movedPlace base) := by
  induction row generalizing offset with
  | nil => rfl
  | cons chunk rest induction =>
      rw [shift_cons, places, places, List.map_cons, Chunk.length_shift, Nat.add_right_comm,
        induction]
      rfl

theorem chunked (offset : Nat) (row : Row) : Chunked offset row.code (row.places offset) := by
  induction row generalizing offset with
  | nil => exact .nil offset
  | cons chunk rest induction => exact .cons chunk.reads (induction _)

end Row

theorem Chunked.exists_row {offset : Nat} {code : List UInt8} {places : List (Nat × Instruction)}
    (chunked : Chunked offset code places) :
    ∃ row : Row, row.code = code ∧ row.places offset = places := by
  induction chunked with
  | nil => exact ⟨[], rfl, rfl⟩
  | @cons _ chunk _ i _ reads _ induction =>
      obtain ⟨row, rfl, rfl⟩ := induction
      exact ⟨⟨chunk, i, reads⟩ :: row, rfl, rfl⟩

namespace Chunked

variable {offset first second : Nat} {code : List UInt8} {i j : Instruction}
variable {places : List (Nat × Instruction)}

/-- Between two jumps lies at least the operand of one of them. -/
theorem apart (chunked : Chunked offset code places) (here : (first, i) ∈ places)
    (jumps : i.target?.isSome) (there : (second, j) ∈ places) (jumps' : j.target?.isSome) :
    first = second ∨ first + 4 ≤ second ∨ second + 4 ≤ first := by
  obtain ⟨before, after, rfl⟩ := List.append_of_mem here
  obtain ⟨front, chunk, back, rfl, ahead, rfl, reads, behind⟩ := chunked.split
  rcases List.mem_append.mp there with earlier | later
  · have bound := ahead.jump_le earlier jumps'
    omega
  rcases List.mem_cons.mp later with same | later
  · cases same
    exact .inl rfl
  · obtain ⟨target, jumps⟩ := Option.isSome_iff_exists.mp jumps
    have five : chunk.length = 5 := by simp [reads.jump jumps]
    have bound := behind.le later
    omega

end Chunked

namespace Row

/-- Where the jumps are listed in the order of their places. -/
theorem foldl_shiftWord (base : Nat) (row : Row) (front back : List UInt8) :
    (operandOffsets (row.places front.length)).foldl (CodeUnit.shiftWord (UInt32.ofNat base))
        (front ++ (row.code ++ back)).toArray =
      (front ++ ((row.shift base).code ++ back)).toArray := by
  induction row generalizing front with
  | nil => rfl
  | cons chunk rest induction =>
      have step : ((CodeUnit.jumpOffsets chunk.instruction).map (· + front.length)).foldl
            (CodeUnit.shiftWord (UInt32.ofNat base))
            (front ++ (chunk.bytes ++ (code rest ++ back))).toArray =
          (front ++ ((chunk.shift base).bytes ++ (code rest ++ back))).toArray := by
        by_cases jumps : chunk.instruction.target?.isSome
        · have moved := shiftWord_jump base jumps front (code rest ++ back)
          rw [Chunk.bytes_shift_of_jump base jumps, Chunk.bytes_of_jump jumps]
          simpa [CodeUnit.jumpOffsets, jumps] using moved
        · rw [Chunk.shift_of_plain base (Option.not_isSome_iff_eq_none.mp jumps)]
          simp [CodeUnit.jumpOffsets, jumps]
      have others := induction (front ++ (chunk.shift base).bytes)
      rw [List.length_append, Chunk.length_shift] at others
      simp only [operandOffsets, places, List.flatMap_cons, List.foldl_append, code_cons,
        shift_cons, List.append_assoc] at others ⊢
      rw [step, others]

/-- In whatever order the jumps are listed, relocation moves each of them once. -/
theorem relocate {row : Row} {jumps : List Nat}
    (listed : jumps.Perm (operandOffsets (row.places 0))) (base : Nat) :
    CodeUnit.relocate base row.code jumps = (row.shift base).code := by
  have ordered := foldl_shiftWord base row [] []
  simp only [List.length_nil, List.nil_append, List.append_nil] at ordered
  rw [CodeUnit.relocate, listed.foldl_eq' fun first here second there code => ?_, ordered]
  obtain ⟨p, i, member, jumps, rfl⟩ := mem_operandOffsets.mp (listed.mem_iff.mp here)
  obtain ⟨q, j, member', jumps', rfl⟩ := mem_operandOffsets.mp (listed.mem_iff.mp there)
  have apart := (row.chunked 0).apart member jumps member' jumps'
  exact shiftWord_comm _ code (by omega)

end Row

theorem operandOffsets_append (front back : List (Nat × Instruction)) :
    operandOffsets (front ++ back) = operandOffsets front ++ operandOffsets back :=
  List.flatMap_append

/-- Moved instructions have their operands as much further on. -/
theorem operandOffsets_moved (base : Nat) (places : List (Nat × Instruction)) :
    operandOffsets (places.map (movedPlace base)) = (operandOffsets places).map (· + base) := by
  rw [operandOffsets, operandOffsets, List.flatMap_map, List.map_flatMap]
  refine List.flatMap_congr fun place _ => ?_
  simp only [movedPlace, jumpOffsets_shift, List.map_map]
  exact List.map_congr_left fun offset _ => (Nat.add_assoc offset place.1 base).symm

namespace CodeUnit

/-- The unit is a row of chunks, of which it lists the jumps. -/
structure Consists (unit : CodeUnit) (row : Row) : Prop where
  code : unit.code = row.code
  jumps : unit.jumps.Perm (operandOffsets (row.places 0))

/-- The code decodes from one end to the other, and the operand of each jump is listed once, and
nothing else is. -/
structure Linear (unit : CodeUnit) (places : List (Nat × Instruction)) : Prop where
  decodes : unit.instructions? = some places
  jumps : unit.jumps.Perm (operandOffsets places)

variable {a b c unit : CodeUnit} {front back last row : Row}
variable {places atFirst atSecond atThird : List (Nat × Instruction)}

theorem Linear.exists_row (linear : unit.Linear places) :
    ∃ row : Row, unit.Consists row ∧ row.places 0 = places := by
  obtain ⟨row, code, rfl⟩ := (instructions?_eq_some_iff.mp linear.decodes).exists_row
  exact ⟨row, ⟨code.symm, linear.jumps⟩, rfl⟩

theorem Consists.linear (consists : unit.Consists row) : unit.Linear (row.places 0) where
  decodes := by
    rw [instructions?_eq_some_iff, consists.code]
    exact row.chunked 0
  jumps := consists.jumps

theorem size_append (a b : CodeUnit) : (a ++ b).size = a.size + b.size := by
  rw [size, append_code, List.length_append, length_relocate]
  rfl

/-- Behind a unit, another row has its places as much further on. -/
theorem Consists.places_append (consists : a.Consists front) (back : Row) :
    Row.places 0 (front ++ back.shift a.size) =
      front.places 0 ++ (back.places 0).map (movedPlace a.size) := by
  rw [Row.places_append, ← consists.code, ← Row.places_shift]
  rfl

theorem Consists.append (first : a.Consists front) (second : b.Consists back) :
    (a ++ b).Consists (front ++ back.shift a.size) where
  code := by
    rw [append_code, first.code, second.code, Row.relocate second.jumps, Row.code_append]
  jumps := by
    rw [append_jumps, first.places_append, operandOffsets_append, operandOffsets_moved]
    exact first.jumps.append (second.jumps.map _)

theorem Linear.append (first : a.Linear atFirst) (second : b.Linear atSecond) :
    (a ++ b).Linear (atFirst ++ atSecond.map (movedPlace a.size)) := by
  obtain ⟨front, consists, rfl⟩ := first.exists_row
  obtain ⟨back, consists', rfl⟩ := second.exists_row
  rw [← consists.places_append]
  exact (consists.append consists').linear

theorem append_empty (a : CodeUnit) : a ++ empty = a := by
  obtain ⟨table, code, jumps, functions⟩ := a
  change append _ empty = _
  simp [append, empty, relocate]

theorem Linear.empty_append (linear : a.Linear places) :
    (empty ++ a).code = a.code ∧ (empty ++ a).jumps = a.jumps ∧
      (empty ++ a).functions = a.functions := by
  obtain ⟨row, consists, -⟩ := linear.exists_row
  refine ⟨?_, List.map_id' _, List.map_id' _⟩
  rw [append_code, consists.code, Row.relocate consists.jumps]
  exact congrArg Row.code (Row.shift_zero row)

/-- Apart from the code, joining is associative for units of any sort. -/
theorem append_assoc_of_code (code : (a ++ b ++ c).code = (a ++ (b ++ c)).code) :
    a ++ b ++ c = a ++ (b ++ c) := by
  have moved (place : Nat) : place + (a.size + b.size) = place + b.size + a.size := by
    rw [Nat.add_assoc, Nat.add_comm b.size]
  have jumps : (a ++ b ++ c).jumps = (a ++ (b ++ c)).jumps := by
    simp only [append_jumps, size_append, moved, List.map_append, List.map_map,
      List.append_assoc, Function.comp_def]
  have functions : (a ++ b ++ c).functions = (a ++ (b ++ c)).functions := by
    simp only [append_functions, size_append, moved, List.map_append, List.map_map,
      List.append_assoc, Function.comp_def]
  change CodeUnit.mk a.table (a ++ b ++ c).code (a ++ b ++ c).jumps (a ++ b ++ c).functions = _
  rw [code, jumps, functions]
  rfl

theorem Linear.append_assoc (first : a.Linear atFirst) (second : b.Linear atSecond)
    (third : c.Linear atThird) : a ++ b ++ c = a ++ (b ++ c) := by
  obtain ⟨front, consists, -⟩ := first.exists_row
  obtain ⟨back, consists', -⟩ := second.exists_row
  obtain ⟨last, consists'', -⟩ := third.exists_row
  apply append_assoc_of_code
  rw [((consists.append consists').append consists'').code,
    (consists.append (consists'.append consists'')).code, Row.shift_append, Row.shift_shift,
    size_append, List.append_assoc, Nat.add_comm b.size]

/-- A target that stays below the size of a word grows by the number of bytes. -/
theorem toNat_moved_target {base : Nat} {place : Nat × Instruction} {target : UInt32}
    (jumps : place.2.target? = some target) (fits : base + target.toNat < 2 ^ 32) :
    (movedPlace base place).2.target?.map UInt32.toNat = some (target.toNat + base) := by
  rw [movedPlace, target?_shift, jumps, Option.map_some, Option.map_some, UInt32.toNat_add,
    UInt32.toNat_ofNat', Nat.mod_eq_of_lt (a := base) (by omega), Nat.mod_eq_of_lt (by omega)]

/-- What joining two units gives. -/
structure Joins (a b : CodeUnit) (atFirst atSecond : List (Nat × Instruction)) : Prop where
  /-- The instructions of the second unit stand behind those of the first one. -/
  linear : (a ++ b).Linear (atFirst ++ atSecond.map (movedPlace a.size))
  /-- Their jumps go as much further as they are moved. -/
  targets : ∀ {place : Nat × Instruction} {target : UInt32}, place ∈ atSecond →
    place.2.target? = some target → a.size + target.toNat < 2 ^ 32 →
      (movedPlace a.size place).2.target?.map UInt32.toNat = some (target.toNat + a.size)
  functions : (a ++ b).functions =
    a.functions ++ b.functions.map fun f => { f with offset := f.offset + a.size }

/-- Linear units are closed under joining, and joining them is associative with the empty unit as
neutral element. Only the variable table is that of the unit in front. -/
theorem linear_monoid (first : a.Linear atFirst) (second : b.Linear atSecond)
    (third : c.Linear atThird) :
    Joins a b atFirst atSecond ∧ a ++ empty = a ∧
      ((empty ++ a).code = a.code ∧ (empty ++ a).jumps = a.jumps ∧
        (empty ++ a).functions = a.functions) ∧
      a ++ b ++ c = a ++ (b ++ c) := by
  refine ⟨?_, append_empty a, first.empty_append, first.append_assoc second third⟩
  exact {
    linear := first.append second
    targets := fun _ jumps fits => toNat_moved_target jumps fits
    functions := append_functions a b }

/-- The jumps of the first unit are listed from the last to the first, and its truth value is no
byte that an encoder writes. -/
theorem backward_jump_joined :
    ∃ a b c : CodeUnit, ∃ atFirst atSecond atThird,
      a.code = [8, 7, 20, 12, 0, 0, 0, 21, 2, 0, 0, 0] ∧ a.jumps = [8, 3] ∧
      b.code = [21, 5, 0, 0, 0, 27] ∧ b.functions = [{ symbol := 6, offset := 5 }] ∧
      a.Linear atFirst ∧ b.Linear atSecond ∧ c.Linear atThird ∧
      atFirst = [(0, .putBoolean true), (2, .jumpIfFalse 12), (7, .jump 2)] ∧
      Joins a b atFirst atSecond ∧ a ++ empty = a ∧
      ((empty ++ a).code = a.code ∧ (empty ++ a).jumps = a.jumps ∧
        (empty ++ a).functions = a.functions) ∧
      a ++ b ++ c = a ++ (b ++ c) := by
  let a : CodeUnit :=
    { table := []
      code := [8, 7, 20, 12, 0, 0, 0, 21, 2, 0, 0, 0]
      jumps := [8, 3]
      functions := [] }
  let b : CodeUnit :=
    { table := []
      code := [21, 5, 0, 0, 0, 27]
      jumps := [1]
      functions := [{ symbol := 6, offset := 5 }] }
  have first : a.Linear [(0, .putBoolean true), (2, .jumpIfFalse 12), (7, .jump 2)] :=
    ⟨by decide, by decide⟩
  have second : b.Linear [(0, .jump 5), (5, .stop)] := ⟨by decide, by decide⟩
  have third : (ofInstructions [.jump 0]).Linear [(0, .jump 0)] :=
    ⟨by decide, by decide⟩
  exact ⟨a, b, _, _, _, _, rfl, rfl, rfl, rfl, first, second, third, rfl,
    linear_monoid first second third⟩

end CodeUnit

end StackScript
