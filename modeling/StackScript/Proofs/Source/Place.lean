import StackScript.Proofs.Source.Cursor
import StackScript.Proofs.Text.Utf8

namespace StackScript

/-! Positions are kept along the text. Each one that a cursor has is the place of a byte of the
source, or its end. -/

def newline : UInt8 := 0x0a

namespace Position

/-- The offset is in the text, and line and column are those of that place. -/
structure Marks (bytes : List UInt8) (p : Position) : Prop where
  inside : p.offset ≤ bytes.length
  line : p.line = (bytes.take p.offset).count newline
  column : p.column = ((bytes.take p.offset).reverse.takeWhile (· ≠ newline)).length

/-- The place behind all of the bytes. -/
structure Ends (bytes : List UInt8) (p : Position) : Prop where
  offset : p.offset = bytes.length
  line : p.line = bytes.count newline
  column : p.column = (bytes.reverse.takeWhile (· ≠ newline)).length

variable {bytes front : List UInt8} {p : Position}

theorem ends_start : Ends [] start :=
  ⟨rfl, rfl, rfl⟩

theorem Ends.marks (ends : Ends front p) (back : List UInt8) : Marks (front ++ back) p := by
  have taken : (front ++ back).take p.offset = front := by
    rw [ends.offset, List.take_left]
  refine ⟨?_, ?_, ?_⟩
  · rw [ends.offset, List.length_append]
    exact Nat.le_add_right _ _
  · rw [taken, ends.line]
  · rw [taken, ends.column]

theorem newline_notMem {c : Char} (other : c ≠ '\n') : newline ∉ String.utf8EncodeChar c := by
  refine Text.Utf8.notMem_utf8EncodeChar (by decide) fun same => other ?_
  exact Char.ext (UInt32.toNat_inj.mp same.symm)

theorem Ends.advance (ends : Ends bytes p) (c : Char) :
    Ends (bytes ++ String.utf8EncodeChar c) (p.advance c) := by
  rw [Position.advance]
  split
  · rename_i broken
    subst broken
    have byte : String.utf8EncodeChar '\n' = [newline] := by decide
    rw [byte]
    refine ⟨?_, ?_, ?_⟩
    · rw [List.length_append, ends.offset, List.length_singleton]
    · rw [List.count_append, ends.line, List.count_singleton_self]
    · rw [List.reverse_append]
      rfl
  · rename_i other
    have clean := newline_notMem other
    refine ⟨?_, ?_, ?_⟩
    · rw [List.length_append, ends.offset, String.length_utf8EncodeChar]
    · rw [List.count_append, ends.line, List.count_eq_zero_of_not_mem clean, Nat.add_zero]
    · have all : ∀ byte ∈ (String.utf8EncodeChar c).reverse, decide (byte ≠ newline) = true := by
        intro byte member
        refine decide_eq_true fun same => clean ?_
        rwa [← same, ← List.mem_reverse]
      rw [List.reverse_append, List.takeWhile_append_of_pos all, List.length_append, ends.column,
        List.length_reverse, String.length_utf8EncodeChar, Nat.add_comm]

theorem ends_foldl (ends : Ends bytes p) (text : List Char) :
    Ends (bytes ++ Text.Utf8.encode text) (text.foldl Position.advance p) := by
  induction text generalizing bytes p with
  | nil =>
      rw [Text.Utf8.encode, List.flatMap_nil, List.append_nil]
      exact ends
  | cons c text induction =>
      rw [Text.Utf8.encode, List.flatMap_cons, ← List.append_assoc]
      exact induction (ends.advance c)

theorem offset_le_advance (p : Position) (c : Char) : p.offset ≤ (p.advance c).offset := by
  rw [Position.advance]
  split <;> exact Nat.le_add_right _ _

end Position

namespace Cursor

/-- The cursor has read the front of the source, and at least so many bytes of it. -/
structure Stands (source : List Char) (low : Nat) (c : Cursor) : Prop where
  read : ∃ front, source = front ++ c.rest ∧ c.position = front.foldl Position.advance .start
  low_le : low ≤ c.position.offset

variable {source : List Char} {low low' : Nat} {c c' : Cursor}

theorem stands_ofSource (source : String) : Stands source.toList 0 (ofSource source) :=
  ⟨⟨[], rfl, rfl⟩, Nat.zero_le _⟩

namespace Stands

theorem here (stands : Stands source low c) : Stands source c.position.offset c :=
  ⟨stands.read, Nat.le_refl _⟩

theorem lower (stands : Stands source low c) (le : low' ≤ low) : Stands source low' c :=
  ⟨stands.read, Nat.le_trans le stands.low_le⟩

theorem marks (stands : Stands source low c) : c.position.Marks (Text.Utf8.encode source) := by
  obtain ⟨front, rfl, position⟩ := stands.read
  have ends := Position.ends_foldl Position.ends_start front
  rw [position, Text.Utf8.encode, List.flatMap_append]
  exact ends.marks (Text.Utf8.encode c.rest)

theorem advance (stands : Stands source low c) : Stands source low c.advance := by
  rw [Cursor.advance]
  split
  · exact stands
  · rename_i char rest text
    obtain ⟨front, split, position⟩ := stands.read
    refine ⟨⟨front ++ [char], ?_, ?_⟩, ?_⟩
    · rw [split, text, List.append_assoc]
      rfl
    · rw [List.foldl_append, ← position]
      rfl
    · exact Nat.le_trans stands.low_le (Position.offset_le_advance c.position char)

theorem advanceBy (n : Nat) (stands : Stands source low c) : Stands source low (c.advanceBy n) := by
  induction n generalizing c with
  | zero => exact stands
  | succ n induction => exact induction stands.advance

theorem follow (stands : Stands source low c) (follows : c.Follows c') :
    Stands source low c' := by
  obtain ⟨n, rfl⟩ := follows
  exact stands.advanceBy n

end Stands

end Cursor

end StackScript
