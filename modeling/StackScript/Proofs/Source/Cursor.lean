import StackScript.Source.Cursor

namespace StackScript.Cursor

/-! What is left of the text. -/

theorem rest_advance (c : Cursor) : c.advance.rest = c.rest.tail := by
  rw [advance]
  split
  · rename_i text
    rw [text]
    rfl
  · rename_i char rest text
    rw [text]
    rfl

theorem rest_advanceBy (n : Nat) (c : Cursor) : (c.advanceBy n).rest = c.rest.drop n := by
  induction n generalizing c with
  | zero => rfl
  | succ n induction => rw [advanceBy, induction, rest_advance, List.drop_tail]

theorem rest_skipWhile (p : Char → Bool) (c : Cursor) :
    (c.skipWhile p).rest = c.rest.dropWhile p := by
  have parts : c.rest.takeWhile p ++ c.rest.dropWhile p = c.rest :=
    List.takeWhile_append_dropWhile
  calc (c.skipWhile p).rest = c.rest.drop (c.rest.takeWhile p).length := rest_advanceBy _ c
    _ = (c.rest.takeWhile p ++ c.rest.dropWhile p).drop (c.rest.takeWhile p).length := by rw [parts]
    _ = c.rest.dropWhile p := List.drop_left

theorem rest_skipSpace (c : Cursor) : c.skipSpace.rest = c.rest.dropWhile isSpace :=
  c.rest_skipWhile isSpace

/-! What is read lies behind where reading started. -/

/-- The second cursor is at the first one or behind it. -/
def Follows (c c' : Cursor) : Prop :=
  ∃ n, c' = c.advanceBy n

theorem advanceBy_advanceBy (m n : Nat) (c : Cursor) :
    (c.advanceBy m).advanceBy n = c.advanceBy (m + n) := by
  induction m generalizing c with
  | zero => rw [Nat.zero_add, advanceBy]
  | succ m induction => rw [Nat.succ_add, advanceBy, induction, advanceBy]

theorem Follows.trans {c c' c'' : Cursor} (first : c.Follows c') (second : c'.Follows c'') :
    c.Follows c'' := by
  obtain ⟨m, rfl⟩ := first
  obtain ⟨n, rfl⟩ := second
  exact ⟨m + n, advanceBy_advanceBy m n c⟩

theorem Follows.notMem {c c' : Cursor} {char : Char} (follows : c.Follows c')
    (clean : char ∉ c.rest) : char ∉ c'.rest := by
  obtain ⟨n, rfl⟩ := follows
  rw [rest_advanceBy]
  exact fun member => clean (List.mem_of_mem_drop member)

theorem follows_advance (c : Cursor) : c.Follows c.advance :=
  ⟨1, rfl⟩

theorem follows_advanceBy (n : Nat) (c : Cursor) : c.Follows (c.advanceBy n) :=
  ⟨n, rfl⟩

theorem follows_skipWhile (p : Char → Bool) (c : Cursor) : c.Follows (c.skipWhile p) :=
  c.follows_advanceBy _

theorem follows_skipSpace (c : Cursor) : c.Follows c.skipSpace :=
  c.follows_skipWhile isSpace

theorem follows_symbol? {char : Char} {c c' : Cursor} (read : symbol? char c = some c') :
    c.Follows c' := by
  simp only [symbol?] at read
  split at read
  · obtain rfl := Option.some.inj read
    exact c.follows_skipSpace.trans (follows_advance _)
  · cases read

theorem follows_operator? {text : List Char} {c c' : Cursor} (read : operator? text c = some c') :
    c.Follows c' := by
  simp only [operator?] at read
  split at read
  · obtain rfl := Option.some.inj read
    exact c.follows_skipSpace.trans (follows_advanceBy _ _)
  · cases read

theorem follows_keyword? {word : List Char} {c c' : Cursor} (read : keyword? word c = some c') :
    c.Follows c' := by
  simp only [keyword?] at read
  split at read
  · obtain rfl := Option.some.inj read
    exact c.follows_skipSpace.trans (follows_advanceBy _ _)
  · cases read

theorem follows_firstOf? {α : Type} {read : List Char → Cursor → Option Cursor}
    (follows : ∀ text c c', read text c = some c' → c.Follows c') {c c' : Cursor} {a : α}
    {choices : List (List Char × α)} (found : firstOf? read c choices = some (a, c')) :
    c.Follows c' := by
  induction choices with
  | nil => cases found
  | cons choice choices induction =>
      obtain ⟨text, result⟩ := choice
      simp only [firstOf?] at found
      split at found
      · rename_i there
        cases found
        exact follows text c c' there
      · exact induction found

end StackScript.Cursor
