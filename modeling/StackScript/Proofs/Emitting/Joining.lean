import StackScript.Proofs.Code.Concatenation
import StackScript.Proofs.Tree.Listing

namespace StackScript

/-! Code that is written in place, instruction by instruction, is the code that joined units give. A
jump that gets its target later is the jump that had it from the start. -/

namespace Listing

/-- Relocating the unit of a listing places the listing elsewhere. -/
theorem relocate {unit : CodeUnit} {listing : Listing} (holds : unit.Holds listing) (base : Nat) :
    CodeUnit.relocate base unit.code unit.jumps = listing.bytes base := by
  have moved := relocate_fold base 0 listing [] []
  simp only [List.length_nil, List.nil_append, List.append_nil, Nat.zero_add] at moved
  rw [CodeUnit.relocate, holds.code, holds.jumps, moved]

end Listing

namespace CodeUnit

variable {a b c : CodeUnit} {middle back : Listing} {offset : Nat} {i : Instruction}

/-- The code in front may be any, jumps that have no target yet included. -/
theorem Holds.append_assoc (second : b.Holds middle) (third : c.Holds back) (a : CodeUnit) :
    a ++ b ++ c = a ++ (b ++ c) := by
  apply append_assoc_of_code
  rw [append_code, append_code, append_code, size_append, Listing.relocate second,
    Listing.relocate third, Listing.relocate (second.append third), Listing.bytes_append,
    second.size, List.append_assoc]

theorem Holds.append_empty_append (holds : b.Holds middle) (a : CodeUnit) :
    a ++ (empty ++ b) = a ++ b := by
  rw [← holds_empty.append_assoc holds, append_empty]

/-- A unit is what it holds, if it is not a table and has no functions. -/
theorem Holds.eq (first : a.Holds middle) (second : b.Holds middle) (tables : a.table = b.table)
    (functions : a.functions = b.functions) : a = b := by
  cases a
  cases b
  simp only [mk.injEq]
  exact ⟨tables, first.code.trans second.code.symm, first.jumps.trans second.jumps.symm, functions⟩

theorem single_append_ofInstructions {rest : List Instruction}
    (plain : ∀ j ∈ i :: rest, j.target? = none) :
    single i ++ ofInstructions rest = ofInstructions (i :: rest) := by
  have others : (ofInstructions rest).Holds rest :=
    holds_ofInstructions fun j member => plain j (List.mem_cons_of_mem i member)
  exact Holds.eq ((holds_single i).append others) (holds_ofInstructions plain) rfl rfl

/-- Joining a single instruction moves its target, where writing it in place does not. -/
theorem append_single (a : CodeUnit) (i : Instruction) :
    a ++ single i = a.push (i.shift a.size) := by
  have code : (a ++ single i).code = (a.push (i.shift a.size)).code := by
    rw [append_code, Listing.relocate (holds_single i)]
    simp [push, Listing.bytes, Listing.placed]
  have jumps : (a ++ single i).jumps = (a.push (i.shift a.size)).jumps := by
    simp [append_jumps, single, push, empty, size, Instruction.jumpOffsets_shift]
  have functions : (a ++ single i).functions = (a.push (i.shift a.size)).functions :=
    List.append_nil _
  change
    CodeUnit.mk a.table (a ++ single i).code (a ++ single i).jumps (a ++ single i).functions = _
  rw [code, jumps, functions]
  rfl

theorem push_eq (plain : i.target? = none) (a : CodeUnit) : a.push i = a ++ single i := by
  rw [append_single, Instruction.shift_eq_self plain]

theorem size_push (a : CodeUnit) (i : Instruction) : (a.push i).size = a.size + i.width :=
  List.length_append

/-! Targets that are set later. -/

theorem setWord?_middle (front : List UInt8) {old : List UInt8} (four : old.length = 4)
    (back : List UInt8) (value : UInt32) :
    setWord? (front ++ (old ++ back)) front.length value =
      some (front ++ (Bytes.ofWord value ++ back)) := by
  simp [setWord?, Bytes.readWord?_front four]

theorem setWord?_eq_some {code code' : List UInt8} {value : UInt32}
    (set : setWord? code offset value = some code') :
    ∃ front old back, code = front ++ (old ++ back) ∧ front.length = offset ∧ old.length = 4 ∧
      code' = front ++ (Bytes.ofWord value ++ back) := by
  obtain ⟨⟨word, back⟩, found, rfl⟩ := Option.map_eq_some_iff.mp set
  obtain ⟨old, split, four, -⟩ := Bytes.readWord?_eq_some found
  refine ⟨code.take offset, old, back, ?_, ?_, four, List.append_assoc ..⟩
  · rw [← split, List.take_append_drop]
  · have long : 4 ≤ (code.drop offset).length := by
      rw [split, List.length_append]
      omega
    rw [List.length_drop] at long
    rw [List.length_take]
    omega

/-- Joining depends on how long the code in front is, and not on what it is. -/
theorem withCode_append {code : List UInt8} (same : code.length = a.size) (b : CodeUnit) :
    ({ a with code } : CodeUnit) ++ b =
      { a ++ b with code := code ++ relocate a.size b.code b.jumps } := by
  have size_eq : ({ a with code } : CodeUnit).size = a.size := same
  change append _ _ = CodeUnit.mk _ _ _ _
  rw [append, size_eq]
  rfl

theorem withCode_push {code : List UInt8} (same : code.length = a.size) (i : Instruction) :
    ({ a with code } : CodeUnit).push i = { a.push i with code := code ++ i.encode } := by
  have size_eq : ({ a with code } : CodeUnit).size = a.size := same
  rw [push, size_eq]
  rfl

section Later

variable {a' : CodeUnit} {value : UInt32}

/-- What is written behind a target does not keep it from being set, nor does it depend on it. -/
theorem setAddress?_append (set : a.setAddress? offset value = some a') (b : CodeUnit) :
    (a ++ b).setAddress? offset value = some (a' ++ b) := by
  obtain ⟨code', found, rfl⟩ := Option.map_eq_some_iff.mp set
  obtain ⟨front, old, rest, split, rfl, four, rfl⟩ := setWord?_eq_some found
  have code : (a ++ b).code = front ++ (old ++ (rest ++ relocate a.size b.code b.jumps)) := by
    simp [append_code, split]
  have same : (front ++ (Bytes.ofWord value ++ rest)).length = a.size := by
    simp [size, split, four]
  rw [setAddress?, code, setWord?_middle front four, withCode_append same b]
  simp

theorem setAddress?_push (set : a.setAddress? offset value = some a') (i : Instruction) :
    (a.push i).setAddress? offset value = some (a'.push i) := by
  obtain ⟨code', found, rfl⟩ := Option.map_eq_some_iff.mp set
  obtain ⟨front, old, rest, split, rfl, four, rfl⟩ := setWord?_eq_some found
  have code : (a.push i).code = front ++ (old ++ (rest ++ i.encode)) := by
    simp [push, split]
  have same : (front ++ (Bytes.ofWord value ++ rest)).length = a.size := by
    simp [size, split, four]
  rw [setAddress?, code, setWord?_middle front four, withCode_push same i]
  simp

/-- A jump that went nowhere yet gets its target. -/
theorem setAddress?_jump (nowhere : i.target? = some 0) (a : CodeUnit) (target : Nat) :
    (a.push i).setAddress? (a.size + 1) (UInt32.ofNat target) = some (a.push (i.shift target)) := by
  have set (opcode : UInt8) (value : UInt32) :
      setWord? (a.code ++ opcode :: Bytes.ofWord 0) (a.size + 1) value =
        some (a.code ++ opcode :: Bytes.ofWord value) := by
    have middle := setWord?_middle (a.code ++ [opcode]) (Bytes.length_ofWord 0) [] value
    simpa [size] using middle
  cases i with
  | jump old =>
      obtain rfl := Option.some.inj nowhere
      simp [setAddress?, push, Instruction.encode, Instruction.operands, Instruction.shift, set,
        jumpOffsets, Instruction.target?, Instruction.opcode]
  | jumpIfFalse old =>
      obtain rfl := Option.some.inj nowhere
      simp [setAddress?, push, Instruction.encode, Instruction.operands, Instruction.shift, set,
        jumpOffsets, Instruction.target?, Instruction.opcode]
  | _ => cases nowhere

end Later

/-- The branch that is taken if a condition holds: both jumps are written without a target, and the
one in front gets it behind the other. -/
theorem landed_branch (a whenTrue : CodeUnit) {written : CodeUnit}
    (writes : written = (a.push (.jumpIfFalse 0) ++ whenTrue).push (.jump 0)) :
    written.setAddress? (a.size + 1) (UInt32.ofNat written.size) =
      some ((a ++ single (.jumpIfFalse (UInt32.ofNat (jumpSize + whenTrue.size + jumpSize))) ++
        whenTrue).push (.jump 0)) := by
  have size : written.size = jumpSize + whenTrue.size + jumpSize + a.size := by
    rw [writes, size_push, size_append, size_push]
    change a.size + 5 + whenTrue.size + 5 = 5 + whenTrue.size + 5 + a.size
    omega
  have set := setAddress?_jump (i := .jumpIfFalse 0) rfl a written.size
  have shifted : Instruction.shift written.size (.jumpIfFalse 0) =
      .shift a.size (.jumpIfFalse (UInt32.ofNat (jumpSize + whenTrue.size + jumpSize))) := by
    simp [Instruction.shift, size, UInt32.ofNat_add]
  rw [shifted, ← append_single] at set
  rw [← setAddress?_push (setAddress?_append set whenTrue) (.jump 0), ← writes]

/-- The second jump has its place whether or not the first one has its target. -/
theorem size_branch (a whenTrue : CodeUnit) (target : UInt32) :
    (a.push (.jumpIfFalse 0) ++ whenTrue).size =
      (a ++ single (.jumpIfFalse target) ++ whenTrue).size := by
  rw [size_append, size_append, append_single, size_push, size_push]
  rfl

/-- The other branch: the jump over it gets its target behind it. -/
theorem landed_leave (a whenFalse : CodeUnit) {written : CodeUnit}
    (writes : written = a.push (.jump 0) ++ whenFalse) :
    written.setAddress? (a.size + 1) (UInt32.ofNat written.size) =
      some (a ++ single (.jump (UInt32.ofNat (jumpSize + whenFalse.size))) ++ whenFalse) := by
  have size : written.size = jumpSize + whenFalse.size + a.size := by
    rw [writes, size_append, size_push]
    change a.size + 5 + whenFalse.size = 5 + whenFalse.size + a.size
    omega
  have set := setAddress?_jump (i := .jump 0) rfl a written.size
  have shifted : Instruction.shift written.size (.jump 0) =
      .shift a.size (.jump (UInt32.ofNat (jumpSize + whenFalse.size))) := by
    simp [Instruction.shift, size, UInt32.ofNat_add]
  rw [shifted, ← append_single] at set
  rw [← setAddress?_append set whenFalse, ← writes]

end CodeUnit

end StackScript
