import Mathlib.Data.List.Perm.Basic
import StackScript.Proofs.Code.Placement

namespace StackScript

/-! Code as a row of chunks, one for each instruction. The code may come from anywhere: a byte for
`true` need not be one, and the padding of a float may hold anything. -/

namespace Instruction

/-- The bytes are read as the instruction, whatever follows them. -/
def IsChunk (chunk : List UInt8) (i : Instruction) : Prop :=
  ∀ rest, decode? (chunk ++ rest) = some (i, chunk.length)

theorem SpelledBy.isChunk {operands : List UInt8} {i : Instruction}
    (spelled : i.SpelledBy operands) (clean : i.NulFree) :
    IsChunk (i.opcode.toByte :: operands) i := by
  intro rest
  rw [decode?_append spelled clean, List.length_cons, spelled.length]

theorem isChunk_encode {i : Instruction} (clean : i.NulFree) : IsChunk i.encode i :=
  (spelledBy_operands i).isChunk clean

theorem exists_chunk {bytes : List UInt8} {i : Instruction} {width : Nat}
    (decoded : decode? bytes = some (i, width)) :
    ∃ chunk rest, bytes = chunk ++ rest ∧ chunk.length = width ∧ IsChunk chunk i := by
  obtain ⟨operands, rest, rfl, rfl, clean, spelled⟩ := exists_spelling decoded
  exact ⟨_, rest, rfl, spelled.length, spelled.isChunk clean⟩

namespace IsChunk

variable {chunk : List UInt8} {i : Instruction}

theorem exists_operands (reads : IsChunk chunk i) :
    ∃ operands, chunk = i.opcode.toByte :: operands ∧ i.NulFree ∧ i.SpelledBy operands := by
  have decoded := reads []
  rw [List.append_nil] at decoded
  obtain ⟨operands, rest, rfl, width, clean, spelled⟩ := exists_spelling decoded
  have none : rest = [] := by
    apply List.length_eq_zero_iff.mp
    rw [← spelled.length, List.length_append, List.length_cons] at width
    omega
  exact ⟨operands, by rw [none, List.append_nil], clean, spelled⟩

theorem length_eq (reads : IsChunk chunk i) : chunk.length = i.width := by
  obtain ⟨operands, rfl, -, spelled⟩ := reads.exists_operands
  exact spelled.length

theorem nulFree (reads : IsChunk chunk i) : i.NulFree := by
  obtain ⟨-, -, clean, -⟩ := reads.exists_operands
  exact clean

theorem length_pos (reads : IsChunk chunk i) : 0 < chunk.length := by
  obtain ⟨operands, rfl, -⟩ := reads.exists_operands
  exact Nat.succ_pos _

/-- The chunk of a jump is its operation code and the target. -/
theorem jump {target : UInt32} (reads : IsChunk chunk i) (jumps : i.target? = some target) :
    chunk = i.opcode.toByte :: Bytes.ofWord target := by
  obtain ⟨operands, rfl, -, spelled⟩ := reads.exists_operands
  cases i <;> cases jumps <;> exact congrArg _ spelled

end IsChunk

end Instruction

open Instruction

/-- The code is a row of chunks of the instructions at their places. -/
inductive Chunked : (offset : Nat) → List UInt8 → List (Nat × Instruction) → Prop
  | nil (offset : Nat) : Chunked offset [] []
  | cons {offset : Nat} {chunk code : List UInt8} {i : Instruction}
      {places : List (Nat × Instruction)} (reads : IsChunk chunk i)
      (rest : Chunked (offset + chunk.length) code places) :
      Chunked offset (chunk ++ code) ((offset, i) :: places)

namespace Chunked

variable {offset place : Nat} {code : List UInt8} {i : Instruction}
variable {places before after : List (Nat × Instruction)}

theorem of_sites {fuel : Nat} (enough : code.length ≤ fuel)
    (linear : (CodeUnit.sitesFrom fuel offset code).mapM (fun
      | (offset, .instruction instruction) => some (offset, instruction)
      | (_, .invalid _) => none) = some places) : Chunked offset code places := by
  induction fuel generalizing offset code places with
  | zero =>
      obtain rfl := List.length_eq_zero_iff.mp (Nat.le_zero.mp enough)
      cases linear
      exact .nil offset
  | succ fuel induction =>
      cases code with
      | nil =>
          cases linear
          exact .nil offset
      | cons byte rest =>
          simp only [CodeUnit.sitesFrom] at linear
          cases decoded : decode? (byte :: rest) with
          | none => simp [decoded] at linear
          | some found =>
              obtain ⟨i, width⟩ := found
              obtain ⟨chunk, back, whole, rfl, reads⟩ := exists_chunk decoded
              have positive := reads.length_pos
              simp only [decoded, List.mapM_cons, Option.bind_eq_bind, Option.bind_some,
                Option.bind_eq_some_iff] at linear
              obtain ⟨others, linear, equal⟩ := linear
              cases equal
              rw [whole, List.drop_left] at linear
              rw [whole]
              refine .cons reads (induction ?_ linear)
              have size := congrArg List.length whole
              rw [List.length_append, List.length_cons] at size
              rw [List.length_cons] at enough
              omega

/-- A linear scan of a row of chunks comes by all of its places. -/
theorem sites {fuel : Nat} (chunked : Chunked offset code places) (enough : code.length ≤ fuel) :
    CodeUnit.sitesFrom fuel offset code =
      places.map fun place => (place.1, .instruction place.2) := by
  induction chunked generalizing fuel with
  | nil => cases fuel <;> rfl
  | @cons offset chunk code i places reads rest induction =>
      have positive := reads.length_pos
      rw [List.length_append] at enough
      cases chunk with
      | nil => cases positive
      | cons byte operands =>
          cases fuel with
          | zero => simp at enough
          | succ fuel =>
              have decoded := reads code
              rw [List.cons_append] at decoded ⊢
              have dropped :
                  (byte :: (operands ++ code)).drop (byte :: operands).length = code := by
                rw [← List.cons_append, List.drop_left]
              simp only [CodeUnit.sitesFrom, decoded, dropped]
              rw [induction (by rw [List.length_cons] at enough; omega)]
              rfl

theorem split (chunked : Chunked offset code (before ++ (place, i) :: after)) :
    ∃ front chunk back, code = front ++ (chunk ++ back) ∧ Chunked offset front before ∧
      place = offset + front.length ∧ IsChunk chunk i ∧
      Chunked (place + chunk.length) back after := by
  induction before generalizing offset code with
  | nil =>
      cases chunked with
      | @cons _ chunk back _ _ reads rest =>
          exact ⟨[], chunk, back, rfl, .nil _, rfl, reads, rest⟩
  | cons first before induction =>
      cases chunked with
      | @cons _ first code _ _ reads rest =>
          obtain ⟨front, chunk, back, rfl, chunked, rfl, reads', rest'⟩ := induction rest
          refine ⟨first ++ front, chunk, back, (List.append_assoc _ _ _).symm,
            .cons reads chunked, ?_, reads', rest'⟩
          rw [List.length_append, Nat.add_assoc]

theorem le (chunked : Chunked offset code places) (member : (place, i) ∈ places) :
    offset ≤ place := by
  obtain ⟨before, after, rfl⟩ := List.append_of_mem member
  obtain ⟨front, _, _, _, _, rfl, _⟩ := chunked.split
  exact Nat.le_add_right offset front.length

theorem jump_le (chunked : Chunked offset code places) (member : (place, i) ∈ places)
    (jumps : i.target?.isSome) : place + 5 ≤ offset + code.length := by
  obtain ⟨before, after, rfl⟩ := List.append_of_mem member
  obtain ⟨front, chunk, back, rfl, -, rfl, reads, -⟩ := chunked.split
  obtain ⟨target, jumps⟩ := Option.isSome_iff_exists.mp jumps
  have five : chunk.length = 5 := by simp [reads.jump jumps]
  simp only [List.length_append]
  omega

theorem concat {chunk : List UInt8} (chunked : Chunked offset code places)
    (reads : IsChunk chunk i) :
    Chunked offset (code ++ chunk) (places ++ [(offset + code.length, i)]) := by
  induction chunked with
  | nil offset =>
      have single : Chunked offset (chunk ++ []) [(offset, i)] := .cons reads (.nil _)
      rwa [List.append_nil] at single
  | @cons offset first code j places reads' _ induction =>
      rw [List.length_append, ← Nat.add_assoc, List.append_assoc]
      exact .cons reads' induction

/-- Code starts with an instruction, or is empty. -/
theorem start (chunked : Chunked offset code places) :
    offset ∈ places.map Prod.fst ∨ code = [] := by
  cases chunked with
  | nil => exact .inr rfl
  | cons reads rest => exact .inl List.mem_cons_self

end Chunked

/-! Relocation where the jumps are listed in any order. -/

/-- Where the code addresses of some instructions stand. -/
def operandOffsets (places : List (Nat × Instruction)) : List Nat :=
  places.flatMap fun place => (CodeUnit.jumpOffsets place.2).map (· + place.1)

theorem mem_operandOffsets {places : List (Nat × Instruction)} {offset : Nat} :
    offset ∈ operandOffsets places ↔
      ∃ place i, (place, i) ∈ places ∧ i.target?.isSome ∧ offset = 1 + place := by
  constructor
  · intro member
    obtain ⟨⟨place, i⟩, member, listed⟩ := List.mem_flatMap.mp member
    by_cases jumps : i.target?.isSome
    · simp only [CodeUnit.jumpOffsets, jumps, if_true, List.map_cons, List.map_nil,
        List.mem_singleton] at listed
      exact ⟨place, i, member, jumps, listed⟩
    · simp [CodeUnit.jumpOffsets, jumps] at listed
  · rintro ⟨place, i, member, jumps, rfl⟩
    exact List.mem_flatMap.mpr ⟨(place, i), member, by simp [CodeUnit.jumpOffsets, jumps]⟩

theorem overwrite_size (offset : Nat) (bytes : List UInt8) (code : Array UInt8) :
    (CodeUnit.overwrite offset bytes code).size = code.size := by
  induction bytes generalizing offset code with
  | nil => rfl
  | cons byte bytes induction => simp [CodeUnit.overwrite, induction]

theorem overwrite_getElem? {offset p : Nat} {bytes : List UInt8}
    (apart : p < offset ∨ offset + bytes.length ≤ p) (code : Array UInt8) :
    (CodeUnit.overwrite offset bytes code)[p]? = code[p]? := by
  induction bytes generalizing offset code with
  | nil => rfl
  | cons byte bytes induction =>
      rw [List.length_cons] at apart
      rw [CodeUnit.overwrite, induction (by omega)]
      exact Array.getElem?_setIfInBounds_ne (by omega)

theorem shiftWord_size (base : UInt32) (code : Array UInt8) (offset : Nat) :
    (CodeUnit.shiftWord base code offset).size = code.size := by
  rw [CodeUnit.shiftWord]
  split
  · exact overwrite_size _ _ _
  · rfl

theorem shiftWord_getElem? {offset p : Nat} (apart : p < offset ∨ offset + 4 ≤ p) (base : UInt32)
    (code : Array UInt8) : (CodeUnit.shiftWord base code offset)[p]? = code[p]? := by
  rw [CodeUnit.shiftWord]
  split
  · exact overwrite_getElem? (by rwa [Bytes.length_ofWord]) _
  · rfl

/-- A shift of a word somewhere else leaves a piece of code where it is. -/
theorem shiftWord_elsewhere (base : UInt32) {offset : Nat} {front middle back : List UInt8}
    (apart : offset + 4 ≤ front.length ∨ front.length + middle.length ≤ offset) :
    ∃ front' back', CodeUnit.shiftWord base (front ++ (middle ++ back)).toArray offset =
      (front' ++ (middle ++ back')).toArray ∧ front'.length = front.length := by
  generalize shifted : CodeUnit.shiftWord base (front ++ (middle ++ back)).toArray offset = code
  have size : code.toList.length = front.length + (middle.length + back.length) := by
    rw [← shifted, Array.length_toList, shiftWord_size]
    simp
  have kept : (code.toList.drop front.length).take middle.length = middle := by
    apply List.ext_getElem?
    intro p
    by_cases inside : p < middle.length
    · rw [List.getElem?_take_of_lt inside, List.getElem?_drop, Array.getElem?_toList, ← shifted,
        shiftWord_getElem? (by omega)]
      simp [List.getElem?_append_right, List.getElem?_append_left inside]
    · rw [List.getElem?_eq_none (by simp; omega), List.getElem?_eq_none (by omega)]
  refine ⟨code.toList.take front.length, code.toList.drop (front.length + middle.length), ?_, ?_⟩
  · have rest := List.take_append_drop middle.length (code.toList.drop front.length)
    rw [kept, List.drop_drop] at rest
    rw [rest, List.take_append_drop]
  · rw [List.length_take, size]
    omega

theorem foldl_elsewhere (base : UInt32) {offsets : List Nat} {front middle back : List UInt8}
    (apart : ∀ offset ∈ offsets,
      offset + 4 ≤ front.length ∨ front.length + middle.length ≤ offset) :
    ∃ front' back', offsets.foldl (CodeUnit.shiftWord base) (front ++ (middle ++ back)).toArray =
      (front' ++ (middle ++ back')).toArray ∧ front'.length = front.length := by
  induction offsets generalizing front back with
  | nil => exact ⟨front, back, rfl, rfl⟩
  | cons offset offsets induction =>
      obtain ⟨front₁, back₁, first, length₁⟩ :=
        @shiftWord_elsewhere base offset front middle back (apart offset List.mem_cons_self)
      obtain ⟨front₂, back₂, others, length₂⟩ := @induction front₁ back₁
        fun o member => length₁ ▸ apart o (List.mem_cons_of_mem offset member)
      exact ⟨front₂, back₂, by rw [List.foldl_cons, first, others], length₂.trans length₁⟩

theorem foldl_shiftWord_size (base : UInt32) (offsets : List Nat) (code : Array UInt8) :
    (offsets.foldl (CodeUnit.shiftWord base) code).size = code.size := by
  induction offsets generalizing code with
  | nil => rfl
  | cons offset offsets induction => rw [List.foldl_cons, induction, shiftWord_size]

@[simp] theorem length_relocate (base : Nat) (code : List UInt8) (offsets : List Nat) :
    (CodeUnit.relocate base code offsets).length = code.length := by
  rw [CodeUnit.relocate, Array.length_toList, foldl_shiftWord_size, List.size_toArray]

/-- The chunk of an instruction that is no jump stays, and the chunk of a jump is shifted once. -/
theorem foldl_chunk {offsets : List Nat} {front chunk back : List UInt8} {i : Instruction}
    (base : Nat) (reads : IsChunk chunk i)
    (listed : ∃ others, offsets.Perm ((CodeUnit.jumpOffsets i).map (· + front.length) ++ others) ∧
      ∀ offset ∈ others, offset + 4 ≤ front.length ∨ front.length + chunk.length ≤ offset) :
    ∃ front' chunk' back',
      offsets.foldl (CodeUnit.shiftWord (UInt32.ofNat base)) (front ++ (chunk ++ back)).toArray =
        (front' ++ (chunk' ++ back')).toArray ∧
      front'.length = front.length ∧ chunk'.length = chunk.length ∧
      IsChunk chunk' (i.shift base) := by
  obtain ⟨others, perm, apart⟩ := listed
  cases jumps : i.target? with
  | none =>
      simp only [CodeUnit.jumpOffsets, jumps, Option.isSome_none, Bool.false_eq_true, if_false,
        List.map_nil, List.nil_append] at perm
      obtain ⟨front', back', folded, length⟩ := @foldl_elsewhere (UInt32.ofNat base)
        offsets front chunk back fun o member => apart o (perm.mem_iff.mp member)
      rw [shift_eq_self jumps]
      exact ⟨front', chunk, back', folded, length, rfl, reads⟩
  | some target =>
      have encoded : chunk = i.encode := by
        rw [reads.jump jumps]
        cases i <;> cases jumps <;> rfl
      have clean : (i.shift base).NulFree := by
        cases i <;> cases jumps <;> trivial
      have width : (i.shift base).encode.length = i.encode.length := width_shift base i
      simp only [CodeUnit.jumpOffsets, jumps, Option.isSome_some, if_true, List.map_cons,
        List.map_nil, List.singleton_append] at perm
      obtain ⟨first, last, rfl⟩ :=
        List.append_of_mem (perm.mem_iff.mpr List.mem_cons_self)
      have rest : (first ++ last).Perm others :=
        (List.perm_cons (1 + front.length)).mp (List.perm_middle.symm.trans perm)
      subst encoded
      obtain ⟨front₁, back₁, folded₁, length₁⟩ := @foldl_elsewhere (UInt32.ofNat base)
        first front i.encode back
        fun o member => apart o (rest.mem_iff.mp (List.mem_append_left last member))
      obtain ⟨front₂, back₂, folded₂, length₂⟩ := @foldl_elsewhere (UInt32.ofNat base)
        last front₁ (i.shift base).encode back₁ fun o member => by
          rw [length₁, width]
          exact apart o (rest.mem_iff.mp (List.mem_append_right first member))
      refine ⟨front₂, (i.shift base).encode, back₂, ?_, length₂.trans length₁, width, ?_⟩
      · rw [List.foldl_append, folded₁, List.foldl_cons, ← length₁,
          shiftWord_jump base (by rw [jumps]; rfl), folded₂]
      · exact isChunk_encode clean

/-- Where the jumps are listed in any order, each once and nothing else, relocation turns the
instruction at each place into the moved one and keeps its width. -/
theorem Chunked.relocate {code : List UInt8} {places : List (Nat × Instruction)} {place : Nat}
    {i : Instruction} {jumps : List Nat} (chunked : Chunked 0 code places)
    (listed : jumps.Perm (operandOffsets places)) (member : (place, i) ∈ places) (base : Nat) :
    ∃ width, decode? (code.drop place) = some (i, width) ∧
      decode? ((CodeUnit.relocate base code jumps).drop place) = some (i.shift base, width) ∧
      (place + width ∈ places.map Prod.fst ∨ place + width = code.length) := by
  obtain ⟨before, after, rfl⟩ := List.append_of_mem member
  obtain ⟨front, chunk, back, rfl, ahead, rfl, reads, behind⟩ := chunked.split
  rw [Nat.zero_add] at behind listed ⊢
  have others : ∃ others,
      jumps.Perm ((CodeUnit.jumpOffsets i).map (· + front.length) ++ others) ∧
        ∀ o ∈ others, o + 4 ≤ front.length ∨ front.length + chunk.length ≤ o := by
    refine ⟨operandOffsets before ++ operandOffsets after, listed.trans ?_, ?_⟩
    · simp only [operandOffsets, List.flatMap_append, List.flatMap_cons]
      exact List.perm_append_comm_assoc _ _ _
    · intro o member
      rcases List.mem_append.mp member with member | member
      · obtain ⟨p, j, listed, jumps, rfl⟩ := mem_operandOffsets.mp member
        have bound := ahead.jump_le listed jumps
        omega
      · obtain ⟨p, j, listed, jumps, rfl⟩ := mem_operandOffsets.mp member
        have bound := behind.le listed
        omega
  obtain ⟨front', chunk', back', folded, length, width, reads'⟩ := foldl_chunk base reads others
  refine ⟨chunk.length, ?_, ?_, ?_⟩
  · rw [List.drop_left]
    exact reads back
  · rw [CodeUnit.relocate, folded, ← length, List.drop_left, ← width]
    exact reads' back'
  · rcases behind.start with next | none
    · exact .inl (by simp [next])
    · exact .inr (by simp [none])

end StackScript
