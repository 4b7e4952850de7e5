import StackScript.Instruction.Text
import StackScript.Proofs.Decimal.Layout

namespace StackScript

/-! The line that is written for an instruction reads back as the instruction. -/

theorem Opcode.isBlank_of_mem_name (op : Opcode) :
    ∀ c ∈ op.name.toList, Text.isBlank c = false :=
  Text.isBlank_of_all (by cases op <;> decide)

theorem Opcode.name_solid (op : Opcode) : Text.Solid op.name.toList :=
  Text.solid_of_all (by cases op <;> decide) op.isBlank_of_mem_name

theorem Opcode.space_notMem_name (op : Opcode) : ' ' ∉ op.name.toList :=
  fun member => absurd (op.isBlank_of_mem_name ' ' member) (by decide)

namespace Instruction

/-! ### Quoted text -/

theorem unescape_cons {c : Char} (backslash : c ≠ '\\') (rest : List Char) :
    unescape (c :: rest) = (unescape rest).map (c :: ·) := by
  rw [unescape]
  · exact fun same _ => backslash same
  · exact fun _ _ same _ => backslash same

theorem unescape_escape (text : List Char) : unescape (escape text) = .ok text := by
  fun_induction escape text with
  | case1 => rfl
  | case2 rest induction | case3 rest induction | case4 rest induction =>
      rw [unescape, induction]
      rfl
  | case5 rest c backslash newline back induction =>
      rw [unescape_cons backslash, induction]
      rfl

theorem mem_escape {text : List Char} {c : Char} (member : c ∈ escape text) :
    c ≠ '\n' ∧ c ≠ '\r' := by
  fun_induction escape text with
  | case1 => cases member
  | case2 rest induction | case3 rest induction | case4 rest induction =>
      rcases List.mem_cons.mp member with rfl | member
      · decide
      · rcases List.mem_cons.mp member with rfl | member
        · decide
        · exact induction member
  | case5 rest d backslash newline back induction =>
      rcases List.mem_cons.mp member with rfl | member
      · exact ⟨newline, back⟩
      · exact induction member

theorem unquote?_quoted (inner : List Char) : unquote? ('"' :: (inner ++ ['"'])) = some inner := by
  rw [unquote?, List.getLast?_concat, List.dropLast_concat]
  rfl

/-! ### The operand in a line -/

/-- What stands behind the name of the operation. -/
def operandText? : Instruction → Option (List Char)
  | .putAddr word | .putDAddr word | .putMemberAddr word | .call word | .ret word | .initVar word
  | .allocVar word | .allocVars word | .jump word | .jumpIfFalse word =>
      some (Nat.toDigits 10 word.toNat)
  | .putIndAddr count => some (Nat.toDigits 10 count.toNat)
  | .putInt value => some (toString value.toInt).toList
  | .putFloat bits => some (floatText.render bits).toList
  | .putString text => some ('"' :: (escape text.toList ++ ['"']))
  | .putBoolean value => some (if value then ['1'] else ['0'])
  | .syscall word function => some (Nat.toDigits 10 word.toNat ++ ' ' :: function.toList)
  | .nop | .assign _ | .compare _ | .arith _ | .neg | .stop => none

theorem toList_line (name text : String) :
    (toString name ++ toString " " ++ toString text).toList =
      name.toList ++ ' ' :: text.toList := by
  rw [String.toList_append, String.toList_append, List.append_assoc]
  rfl

theorem toList_number (name : String) (n : Nat) :
    (toString name ++ toString " " ++ toString n).toList =
      name.toList ++ ' ' :: Nat.toDigits 10 n := by
  rw [← Nat.toList_repr]
  exact toList_line name n.repr

theorem toList_render (i : Instruction) :
    i.render.toList = match i.operandText? with
      | some text => i.opcode.name.toList ++ ' ' :: text
      | none => i.opcode.name.toList := by
  cases i with
  | putAddr word | putDAddr word | putMemberAddr word | call word | ret word | initVar word
  | allocVar word | allocVars word | jump word | jumpIfFalse word => exact toList_number _ _
  | putIndAddr count => exact toList_number _ _
  | putInt value => exact toList_line _ (toString value.toInt)
  | putFloat bits => exact toList_line _ _
  | putString text =>
      simp only [render, operandText?, String.toList_append, String.toList_ofList,
        List.append_assoc]
      rfl
  | putBoolean value => cases value <;> rfl
  | syscall word function =>
      have line := toList_line (toString "SYSCALL" ++ toString " " ++ toString word.toNat) function
      rw [toList_number, List.append_assoc] at line
      exact line
  | nop | assign _ | compare _ | arith _ | neg | stop => rfl

/-- The instructions that their line determines: a float is a number, and a name has no blanks that
would be trimmed. -/
def Listable : Instruction → Prop
  | .putFloat bits => Decimal.Binary64.ofBits bits ≠ .nan
  | .syscall _ function => Text.Solid function.toList
  | _ => True

instance : DecidablePred Listable
  | .putFloat bits => inferInstanceAs (Decidable (Decimal.Binary64.ofBits bits ≠ .nan))
  | .syscall _ function => inferInstanceAs (Decidable (Text.Solid function.toList))
  | .putAddr _ | .putDAddr _ | .putMemberAddr _ | .call _ | .ret _ | .initVar _ | .allocVar _
  | .allocVars _ | .jump _ | .jumpIfFalse _ | .putIndAddr _ | .putInt _ | .putString _
  | .putBoolean _ | .nop | .assign _ | .compare _ | .arith _ | .neg | .stop => .isTrue trivial

theorem solid_digits (n : Nat) : Text.Solid (Nat.toDigits 10 n) :=
  Text.solid_of_all Nat.toDigits_ne_nil
    fun _ member => Text.isBlank_of_isDigit (Decimal.isDigit_of_mem member)

theorem blank_notMem_integer (value : Int) :
    ∀ c ∈ (toString value).toList, Text.isBlank c = false := by
  have digits (n : Nat) : ∀ c ∈ n.repr.toList, Text.isBlank c = false := by
    rw [Nat.toList_repr]
    exact fun _ member => Text.isBlank_of_isDigit (Decimal.isDigit_of_mem member)
  rw [Int.toString_eq_repr, Int.repr_eq_if]
  split
  · exact digits _
  · rw [String.toList_append]
    exact List.forall_mem_cons.mpr ⟨rfl, digits _⟩

theorem blank_notMem_float (bits : UInt64) :
    ∀ c ∈ (floatText.render bits).toList, Text.isBlank c = false :=
  Decimal.render_solid (Text.isBlank_of_all (by decide)) (Text.isBlank_of_all (by decide))
    (Text.isBlank_of_all (by decide)) bits

theorem readFloat_text {bits : UInt64} (listable : (putFloat bits).Listable) :
    Decimal.readFloat (floatText.render bits).toList = .ok bits :=
  Decimal.readFloat_render rfl rfl listable

theorem operandText_solid {i : Instruction} {text : List Char} (listable : i.Listable)
    (behind : i.operandText? = some text) : Text.Solid text := by
  cases i with
  | putAddr word | putDAddr word | putMemberAddr word | call word | ret word | initVar word
  | allocVar word | allocVars word | jump word | jumpIfFalse word =>
      cases behind
      exact solid_digits _
  | putIndAddr count =>
      cases behind
      exact solid_digits _
  | putInt value =>
      cases behind
      refine Text.solid_of_all (fun none => ?_) (blank_notMem_integer _)
      have read := Decimal.readInteger_toString value
      rw [none] at read
      cases read
  | putFloat bits =>
      cases behind
      refine Text.solid_of_all (fun none => ?_) (blank_notMem_float _)
      have read := readFloat_text listable
      rw [none] at read
      cases read
  | putString text =>
      cases behind
      exact (by decide : Text.Solid ['"']).append (escape text.toList)
        (by decide : Text.Solid ['"'])
  | putBoolean value =>
      cases behind
      cases value <;> decide
  | syscall word function =>
      cases behind
      have := Text.Solid.append (solid_digits word.toNat) [' '] listable
      rw [List.append_assoc] at this
      exact this
  | nop | assign _ | compare _ | arith _ | neg | stop => cases behind

/-! ### Reading a line -/

theorem read_line {op : Opcode} {line : String} {text : List Char} (solid : Text.Solid text)
    (spelled : line.toList = op.name.toList ++ ' ' :: text) : read line = readOperands op text := by
  have trimmed : Text.trim line.toList = line.toList := by
    have whole := (op.name_solid.append [' '] solid).trim
    rw [List.append_assoc] at whole
    rw [spelled]
    exact whole
  have parts := Text.splitOnce_append op.space_notMem_name text
  rw [read, trimmed, spelled, parts]
  simp only [solid.trim, String.ofList_toList, Opcode.ofName?_name]

theorem read_name (op : Opcode) : read op.name = readOperands op [] := by
  have whole := Text.splitOnce_eq_none_iff.mpr op.space_notMem_name
  rw [read, op.name_solid.trim, whole]
  simp only [String.ofList_toList, Opcode.ofName?_name]

theorem readOperands_word {op : Opcode} {build : UInt32 → Instruction} (plain : plain? op = none)
    (ofWord : ofWord? op = some build) (word : UInt32) :
    readOperands op (Nat.toDigits 10 word.toNat) = .ok (build word) := by
  unfold readOperands
  simp only [plain, ofWord, readWordOperand, Decimal.readWord_toDigits]
  rfl

theorem readOperands_operandText {i : Instruction} {text : List Char} (listable : i.Listable)
    (behind : i.operandText? = some text) : readOperands i.opcode text = .ok i := by
  cases i with
  | putAddr word | putDAddr word | putMemberAddr word | call word | ret word | initVar word
  | allocVar word | allocVars word | jump word | jumpIfFalse word =>
      cases behind
      exact readOperands_word rfl rfl word
  | putIndAddr count =>
      cases behind
      simp only [opcode, readOperands, plain?, ofWord?, Decimal.readByte_toDigits]
      rfl
  | putInt value =>
      cases behind
      simp only [opcode, readOperands, plain?, ofWord?, Decimal.readInteger_toString]
      rfl
  | putFloat bits =>
      cases behind
      simp only [opcode, readOperands, plain?, ofWord?, readFloat_text listable]
      rfl
  | putString text =>
      cases behind
      simp only [opcode, readOperands, plain?, ofWord?, unquote?_quoted, unescape_escape,
        Except.map, String.ofList_toList]
  | putBoolean value =>
      cases behind
      cases value <;> rfl
  | syscall word function =>
      cases behind
      have noSpace : ' ' ∉ Nat.toDigits 10 word.toNat := fun member =>
        absurd (Decimal.isDigit_of_mem member) (by decide)
      simp only [opcode, readOperands, plain?, ofWord?, Text.splitOnce_append noSpace,
        readWordOperand, Decimal.readWord_toDigits, Text.Solid.trim listable,
        String.ofList_toList]
      rfl
  | nop | assign _ | compare _ | arith _ | neg | stop => cases behind

theorem readOperands_bare {i : Instruction} (bare : i.operandText? = none) :
    readOperands i.opcode [] = .ok i := by
  cases i with
  | nop | neg | stop => rfl
  | assign update => cases update <;> rfl
  | compare relation => cases relation <;> rfl
  | arith operation => cases operation <;> rfl
  | putAddr _ | putDAddr _ | putMemberAddr _ | call _ | ret _ | initVar _ | allocVar _ | allocVars _
  | jump _ | jumpIfFalse _ | putIndAddr _ | putInt _ | putFloat _ | putString _ | putBoolean _
  | syscall _ _ => cases bare

theorem read_render {i : Instruction} (listable : i.Listable) : read i.render = .ok i := by
  have line := i.toList_render
  cases behind : i.operandText? with
  | some text =>
      rw [behind] at line
      rw [read_line (operandText_solid listable behind) line]
      exact readOperands_operandText listable behind
  | none =>
      rw [behind] at line
      rw [String.toList_injective line, read_name]
      exact readOperands_bare behind

/-! ### One line -/

theorem newline_of_mem_operandText {i : Instruction} {text : List Char} {c : Char}
    (behind : i.operandText? = some text) (member : c ∈ text) (newline : c = '\n' ∨ c = '\r') :
    ∃ word function, i = .syscall word function ∧ c ∈ function.toList := by
  have notBlank : Text.isBlank c ≠ false := by rcases newline with rfl | rfl <;> decide
  have notDigit (n : Nat) : c ∉ Nat.toDigits 10 n := fun digit =>
    notBlank (Text.isBlank_of_isDigit (Decimal.isDigit_of_mem digit))
  cases i with
  | putAddr word | putDAddr word | putMemberAddr word | call word | ret word | initVar word
  | allocVar word | allocVars word | jump word | jumpIfFalse word =>
      cases behind
      exact absurd member (notDigit _)
  | putIndAddr count =>
      cases behind
      exact absurd member (notDigit _)
  | putInt value =>
      cases behind
      exact absurd (blank_notMem_integer _ c member) notBlank
  | putFloat bits =>
      cases behind
      exact absurd (blank_notMem_float _ c member) notBlank
  | putString text =>
      cases behind
      rcases List.mem_cons.mp member with rfl | member
      · exact absurd rfl notBlank
      · rcases List.mem_append.mp member with inside | quote
        · have kept := mem_escape inside
          exact (newline.elim kept.1 kept.2).elim
        · rw [List.mem_singleton.mp quote] at notBlank
          exact absurd rfl notBlank
  | putBoolean value =>
      cases behind
      cases value <;> (rw [List.mem_singleton.mp member] at notBlank; exact absurd rfl notBlank)
  | syscall word function =>
      cases behind
      rcases List.mem_append.mp member with digit | member
      · exact absurd digit (notDigit _)
      · rcases List.mem_cons.mp member with rfl | inside
        · rcases newline with same | same <;> cases same
        · exact ⟨word, function, rfl, inside⟩
  | nop | assign _ | compare _ | arith _ | neg | stop => cases behind

theorem newline_of_mem_render {i : Instruction} {c : Char} (member : c ∈ i.render.toList)
    (newline : c = '\n' ∨ c = '\r') :
    ∃ word function, i = .syscall word function ∧ c ∈ function.toList := by
  have inName : c ∉ i.opcode.name.toList := by
    intro member
    have solid := i.opcode.isBlank_of_mem_name c member
    rcases newline with rfl | rfl <;> cases solid
  rw [toList_render] at member
  cases behind : i.operandText? with
  | none =>
      rw [behind] at member
      exact absurd member inName
  | some text =>
      rw [behind] at member
      rcases List.mem_append.mp member with name | member
      · exact absurd name inName
      · rcases List.mem_cons.mp member with rfl | inside
        · rcases newline with same | same <;> cases same
        · exact newline_of_mem_operandText behind inside newline

/-- The line of an instruction reads back as the instruction, and it is one line but for the
newlines of a name. -/
theorem text_round_trip (i : Instruction) :
    (i.Listable → read i.render = .ok i) ∧
      ∀ c ∈ i.render.toList, c = '\n' ∨ c = '\r' →
        ∃ word function, i = .syscall word function ∧ c ∈ function.toList :=
  ⟨read_render, fun _ => newline_of_mem_render⟩

theorem listed_lines_read_back :
    read (putString " \"c:\\n\"\r\n").render = .ok (.putString " \"c:\\n\"\r\n") ∧
      read (putFloat 0x3fb999999999999a).render = .ok (.putFloat 0x3fb999999999999a) ∧
      read (putInt Int64.minValue).render = .ok (.putInt Int64.minValue) ∧
      read (syscall 7 "two  words").render = .ok (.syscall 7 "two  words") ∧
      ∃ word function, syscall 7 "a\nb" = .syscall word function ∧ '\n' ∈ function.toList :=
  ⟨(text_round_trip _).1 trivial, (text_round_trip _).1 (by decide), (text_round_trip _).1 trivial,
    (text_round_trip _).1 (by decide),
    (text_round_trip (.syscall 7 "a\nb")).2 '\n' (by rw [toList_render]; decide) (.inl rfl)⟩

end Instruction

end StackScript
