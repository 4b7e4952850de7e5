import StackScript.Proofs.Source.Place

namespace StackScript

/-! Progress through a text: what has been read between two cursors. -/

theorem Position.offset_le_foldl (text : List Char) (p : Position) :
    p.offset ≤ (text.foldl advance p).offset := by
  induction text generalizing p with
  | nil => exact Nat.le_refl _
  | cons char text induction => exact Nat.le_trans (p.offset_le_advance char) (induction _)

theorem Position.offset_lt_advance (p : Position) (char : Char) :
    p.offset < (p.advance char).offset := by
  rw [advance]
  split
  · exact Nat.lt_succ_self _
  · exact Nat.lt_add_of_pos_right char.utf8Size_pos

namespace Cursor

/-- The second cursor stands behind a text that follows the first one, and if it `moved` then that
text is not empty. -/
def Reaches (moved : Bool) (c c' : Cursor) : Prop :=
  ∃ read : List Char, c.rest = read ++ c'.rest ∧
    c'.position = read.foldl Position.advance c.position ∧ (moved = true → read ≠ [])

variable {moved moved' : Bool} {c c' c'' : Cursor}

namespace Reaches

theorem refl (c : Cursor) : Reaches false c c :=
  ⟨[], rfl, rfl, nofun⟩

theorem trans (first : Reaches moved c c') (second : Reaches moved' c' c'') :
    Reaches (moved || moved') c c'' := by
  obtain ⟨front, rest, position, moves⟩ := first
  obtain ⟨back, rest', position', moves'⟩ := second
  refine ⟨front ++ back, ?_, ?_, fun either => ?_⟩
  · rw [rest, rest', List.append_assoc]
  · rw [position', position, List.foldl_append]
  · rcases (Bool.or_eq_true _ _).mp either with one | other
    · exact List.append_ne_nil_of_left_ne_nil (moves one) _
    · exact List.append_ne_nil_of_right_ne_nil _ (moves' other)

theorem forget (reaches : Reaches moved c c') : Reaches false c c' := by
  obtain ⟨read, rest, position, -⟩ := reaches
  exact ⟨read, rest, position, nofun⟩

theorem weaken (moved : Bool) (reaches : Reaches true c c') : Reaches moved c c' := by
  cases moved with
  | false => exact reaches.forget
  | true => exact reaches

theorem onward (first : Reaches true c c') (second : Reaches moved c' c'') : Reaches true c c'' :=
  first.trans second

theorem further (first : Reaches moved c c') (second : Reaches true c' c'') :
    Reaches true c c'' := by
  have both := first.trans second
  rwa [Bool.or_true] at both

theorem length_lt (reaches : Reaches true c c') : c'.rest.length < c.rest.length := by
  obtain ⟨read, rest, -, moves⟩ := reaches
  rw [rest, List.length_append]
  exact Nat.lt_add_of_pos_left (List.length_pos_iff.mpr (moves rfl))

/-- In a source, the offset behind what was read is larger. -/
theorem stands {source : List Char} {low : Nat} (reaches : Reaches true c c')
    (stands : c.Stands source low) : c'.Stands source (c.position.offset + 1) := by
  obtain ⟨read, rest, position, moves⟩ := reaches
  obtain ⟨⟨front, whole, start⟩, -⟩ := stands
  refine ⟨⟨front ++ read, by rw [whole, rest, List.append_assoc], ?_⟩, ?_⟩
  · rw [position, start, List.foldl_append]
  · obtain ⟨char, others, rfl⟩ := List.exists_cons_of_ne_nil (moves rfl)
    rw [position]
    exact Nat.le_trans (c.position.offset_lt_advance char) (Position.offset_le_foldl others _)

end Reaches

theorem position_advanceBy (n : Nat) (c : Cursor) :
    (c.advanceBy n).position = (c.rest.take n).foldl Position.advance c.position := by
  induction n generalizing c with
  | zero => rfl
  | succ n induction =>
      rw [advanceBy, induction, rest_advance, advance]
      split
      · rename_i none
        rw [none, List.tail_nil, List.take_nil, List.take_nil]
      · rename_i char rest some
        rw [some]
        rfl

theorem reaches_advanceBy (n : Nat) (c : Cursor) : Reaches false c (c.advanceBy n) :=
  ⟨c.rest.take n, by rw [rest_advanceBy, List.take_append_drop], position_advanceBy n c, nofun⟩

theorem reaches_advanceBy_of_pos {n : Nat} (ahead : c.rest ≠ []) (positive : 0 < n) :
    Reaches true c (c.advanceBy n) := by
  refine ⟨c.rest.take n, by rw [rest_advanceBy, List.take_append_drop], position_advanceBy n c,
    fun _ none => ?_⟩
  rcases List.take_eq_nil_iff.mp none with zero | none
  · omega
  · exact ahead none

theorem Follows.reaches (follows : c.Follows c') : Reaches false c c' := by
  obtain ⟨n, rfl⟩ := follows
  exact c.reaches_advanceBy n

theorem reaches_skipSpace (c : Cursor) : Reaches false c c.skipSpace :=
  c.follows_skipSpace.reaches

theorem reaches_skipWhile (p : Char → Bool) (c : Cursor) : Reaches false c (c.skipWhile p) :=
  (c.follows_skipWhile p).reaches

/-- Passing over a word moves if there is one. -/
theorem reaches_skipWhile_wordOf (p : Char → Bool) (c : Cursor) :
    Reaches (!(c.wordOf p).isEmpty) c (c.skipWhile p) := by
  cases word : c.wordOf p with
  | nil => exact c.reaches_skipWhile p
  | cons char others =>
      refine reaches_advanceBy_of_pos (fun none => ?_) ?_
      · rw [wordOf, none] at word
        cases word
      · rw [word]
        exact Nat.succ_pos _

theorem rest_ne_nil_of_isAt {char : Char} (there : c.isAt char = true) : c.rest ≠ [] := by
  intro none
  rw [isAt, peek?, none] at there
  cases there

theorem reaches_advance (ahead : c.rest ≠ []) : Reaches true c c.advance :=
  reaches_advanceBy_of_pos ahead Nat.one_pos

theorem reaches_symbol? {char : Char} (read : symbol? char c = some c') : Reaches true c c' := by
  simp only [symbol?] at read
  split at read
  · rename_i there
    obtain rfl := Option.some.inj read
    exact c.reaches_skipSpace.further (reaches_advance (rest_ne_nil_of_isAt there))
  · cases read

theorem reaches_operator? {text : List Char} (letters : text ≠ [])
    (read : operator? text c = some c') : Reaches true c c' := by
  simp only [operator?] at read
  split at read
  · rename_i there
    obtain rfl := Option.some.inj read
    refine c.reaches_skipSpace.further
      (reaches_advanceBy_of_pos (fun none => ?_) (List.length_pos_iff.mpr letters))
    rw [none, List.isPrefixOf_iff_prefix, List.prefix_nil] at there
    exact letters there
  · cases read

theorem reaches_keyword? {word : List Char} (letters : word ≠ [])
    (read : keyword? word c = some c') : Reaches true c c' := by
  simp only [keyword?] at read
  split at read
  · rename_i there
    obtain rfl := Option.some.inj read
    refine c.reaches_skipSpace.further
      (reaches_advanceBy_of_pos (fun none => ?_) (List.length_pos_iff.mpr letters))
    rw [none, List.take_nil] at there
    exact letters (of_decide_eq_true (Bool.and_eq_true_iff.mp there).1).symm
  · cases read

theorem reaches_firstOf? {α : Type} {read : List Char → Cursor → Option Cursor} {a : α}
    {choices : List (List Char × α)}
    (reaches : ∀ text ∈ choices.map Prod.fst, ∀ c', read text c = some c' → Reaches true c c')
    (found : firstOf? read c choices = some (a, c')) : Reaches true c c' := by
  induction choices with
  | nil => cases found
  | cons choice choices induction =>
      obtain ⟨text, result⟩ := choice
      obtain ⟨first, others⟩ := List.forall_mem_cons.mp reaches
      simp only [firstOf?] at found
      split at found
      · rename_i there
        cases found
        exact first c' there
      · exact induction others found

end Cursor

end StackScript
