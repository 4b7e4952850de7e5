import Mathlib.Algebra.GroupWithZero.Nat
import Mathlib.Data.List.DropRight
import StackScript.Text.Blank

namespace StackScript.Text

/-! Trimming and splitting of texts whose parts are known, and of arbitrary ones. -/

variable {mark : Char} {text front : List Char} {c : Char}

theorem isBlank_of_isDigit (digit : c.isDigit = true) : isBlank c = false := by
  have bounds : 48 ≤ c.toNat ∧ c.toNat ≤ 57 := by
    simpa [Char.isDigit, UInt32.le_iff_toNat_le] using digit
  simp only [isBlank, blankRanges, List.any_cons, List.any_nil, Bool.or_false,
    Bool.or_eq_false_iff, Bool.and_eq_false_imp, decide_eq_true_eq, decide_eq_false_iff_not, not_le]
  omega

theorem trimStart_cons (solid : isBlank c = false) (rest : List Char) :
    trimStart (c :: rest) = c :: rest := by
  rw [trimStart, List.dropWhile_cons_of_neg (by rw [solid]; exact Bool.false_ne_true)]

theorem trimEnd_concat (solid : isBlank c = false) (front : List Char) :
    trimEnd (front ++ [c]) = front ++ [c] := by
  rw [trimEnd, List.reverse_append, List.reverse_singleton, List.singleton_append,
    List.dropWhile_cons_of_neg (by rw [solid]; exact Bool.false_ne_true), List.reverse_cons,
    List.reverse_reverse]

theorem trimEnd_cons (solid : isBlank c = false) (rest : List Char) :
    trimEnd (c :: rest) = c :: trimEnd rest := by
  have kept : [c].dropWhile isBlank = [c] := trimStart_cons solid []
  rw [trimEnd, trimEnd, List.reverse_cons, List.dropWhile_append, kept]
  split
  · rename_i none
    rw [List.isEmpty_iff.mp none]
    rfl
  · rw [List.reverse_append, List.reverse_singleton, List.singleton_append]

/-- A text starts with what is no blank, or has blanks only. -/
theorem trimStart_eq (text : List Char) :
    trimStart text = [] ∨ ∃ c rest, trimStart text = c :: rest ∧ isBlank c = false := by
  cases front : trimStart text with
  | nil => exact .inl rfl
  | cons c rest =>
      have head := List.head?_dropWhile_not (p := isBlank) (l := text)
      rw [← trimStart, front] at head
      exact .inr ⟨c, rest, rfl, by simpa using head⟩

theorem trim_trim (text : List Char) : trim (trim text) = trim text := by
  rcases trimStart_eq text with none | ⟨c, rest, front, solid⟩
  · have empty : trim text = [] := by
      rw [trim, none]
      rfl
    rw [empty]
    rfl
  · have again : trimEnd (trimEnd rest) = trimEnd rest := List.rdropWhile_idempotent isBlank rest
    have kept : trim text = c :: trimEnd rest := by
      rw [trim, front, trimEnd_cons solid]
    rw [kept, trim, trimStart_cons solid, trimEnd_cons solid, again]

theorem mem_of_mem_trimStart (member : c ∈ trimStart text) : c ∈ text :=
  (List.dropWhile_sublist isBlank).mem member

theorem mem_of_mem_trim (member : c ∈ trim text) : c ∈ text :=
  mem_of_mem_trimStart ((List.rdropWhile_prefix isBlank _).mem member)

theorem length_trimStart_le (text : List Char) : (trimStart text).length ≤ text.length :=
  (List.dropWhile_sublist isBlank).length_le

theorem length_trim_le (text : List Char) : (trim text).length ≤ text.length := by
  have ends : (trim text).length ≤ (trimStart text).length :=
    (List.rdropWhile_prefix isBlank _).length_le
  exact Nat.le_trans ends (length_trimStart_le text)

/-- A text that neither starts nor ends with a blank. -/
structure Solid (text : List Char) : Prop where
  nonempty : text ≠ []
  start : ∀ c ∈ text.head?, isBlank c = false
  stop : ∀ c ∈ text.getLast?, isBlank c = false

theorem solid_iff (text : List Char) : Solid text ↔
    text ≠ [] ∧ (text.head?.all fun c => !isBlank c) = true ∧
      (text.getLast?.all fun c => !isBlank c) = true := by
  simp only [Option.all_eq_true, Bool.not_eq_true']
  exact ⟨fun solid => ⟨solid.nonempty, solid.start, solid.stop⟩,
    fun holds => ⟨holds.1, holds.2.1, holds.2.2⟩⟩

instance (text : List Char) : Decidable (Solid text) :=
  decidable_of_iff' _ (solid_iff text)

theorem isBlank_of_all (all : (text.all fun c => !isBlank c) = true) :
    ∀ c ∈ text, isBlank c = false := by
  simpa only [List.all_eq_true, Bool.not_eq_true'] using all

theorem solid_of_all (nonempty : text ≠ []) (all : ∀ c ∈ text, isBlank c = false) : Solid text :=
  ⟨nonempty, fun c first => all c (List.mem_of_mem_head? first),
    fun c last => all c (List.mem_of_mem_getLast? last)⟩

theorem Solid.trim (solid : Solid text) : trim text = text := by
  obtain ⟨first, rest, split⟩ := List.exists_cons_of_ne_nil solid.nonempty
  have start : isBlank first = false := solid.start first (by rw [split]; rfl)
  have stop : isBlank (text.getLast solid.nonempty) = false :=
    solid.stop _ (List.getLast?_eq_some_getLast solid.nonempty)
  rw [Text.trim, split, trimStart_cons start, ← split,
    ← List.dropLast_concat_getLast solid.nonempty, trimEnd_concat stop]

theorem Solid.append (first : Solid front) (middle : List Char) (last : Solid text) :
    Solid (front ++ middle ++ text) where
  nonempty := List.append_ne_nil_of_right_ne_nil _ last.nonempty
  start c member := by
    rw [List.append_assoc, List.head?_append_of_ne_nil _ first.nonempty] at member
    exact first.start c member
  stop c member := by
    rw [List.getLast?_append_of_ne_nil _ last.nonempty] at member
    exact last.stop c member

theorem splitOnce_append (without : mark ∉ front) (rest : List Char) :
    splitOnce mark (front ++ mark :: rest) = some (front, rest) := by
  induction front with
  | nil => exact if_pos rfl
  | cons c front induction =>
      have other : c ≠ mark := (List.ne_of_not_mem_cons without).symm
      have behind := List.not_mem_of_not_mem_cons without
      rw [List.cons_append, splitOnce, if_neg other, induction behind]
      rfl

theorem eq_of_splitOnce {back : List Char} (split : splitOnce mark text = some (front, back)) :
    text = front ++ mark :: back := by
  induction text generalizing front with
  | nil => cases split
  | cons c text induction =>
      rw [splitOnce] at split
      split at split
      · rename_i same
        cases split
        exact congrArg (· :: _) same
      · obtain ⟨⟨first, last⟩, inner, same⟩ := Option.map_eq_some_iff.mp split
        cases same
        exact congrArg (c :: ·) (induction inner)

theorem splitOnce_eq_none_iff : splitOnce mark text = none ↔ mark ∉ text := by
  induction text with
  | nil => exact iff_of_true rfl List.not_mem_nil
  | cons c text induction =>
      rw [splitOnce]
      split
      · rename_i same
        exact iff_of_false (fun none => nomatch none)
          fun absent => absent (same ▸ List.mem_cons_self)
      · rename_i other
        rw [Option.map_eq_none_iff, induction, List.mem_cons, not_or]
        exact (and_iff_right fun same => other same.symm).symm

theorem notMem_of_splitOnce {back : List Char} (split : splitOnce mark text = some (front, back)) :
    mark ∉ front := by
  induction text generalizing front with
  | nil => cases split
  | cons c text induction =>
      rw [splitOnce] at split
      split at split
      · cases split
        exact List.not_mem_nil
      · rename_i other
        obtain ⟨⟨first, last⟩, inner, same⟩ := Option.map_eq_some_iff.mp split
        cases same
        exact List.not_mem_cons_of_ne_of_not_mem (fun same => other same.symm) (induction inner)

theorem mem_of_mem_splitAll {piece : List Char} (member : piece ∈ splitAll mark text)
    (inside : c ∈ piece) : c ∈ text := by
  induction text generalizing piece with
  | nil =>
      obtain rfl := List.mem_singleton.mp member
      cases inside
  | cons d text induction =>
      rw [splitAll] at member
      split at member
      · rcases List.mem_cons.mp member with rfl | later
        · cases inside
        · exact List.mem_cons_of_mem d (induction later inside)
      · split at member
        · rename_i none
          exact absurd none (splitAll_ne_nil mark text)
        · rename_i first pieces pair
          rw [pair] at induction
          rcases List.mem_cons.mp member with rfl | later
          · rcases List.mem_cons.mp inside with rfl | inside
            · exact List.mem_cons_self
            · exact List.mem_cons_of_mem d (induction List.mem_cons_self inside)
          · exact List.mem_cons_of_mem d (induction (List.mem_cons_of_mem first later) inside)

/-- The pieces and the marks between them make up the text. -/
theorem sum_splitAll (mark : Char) (text : List Char) :
    ((splitAll mark text).map fun piece => piece.length + 1).sum = text.length + 1 := by
  induction text with
  | nil => rfl
  | cons c text induction =>
      rw [splitAll]
      split
      · rw [List.map_cons, List.sum_cons, induction, List.length_cons, List.length_nil]
        omega
      · split
        · rename_i none
          exact absurd none (splitAll_ne_nil mark text)
        · rename_i piece pieces pair
          rw [pair, List.map_cons, List.sum_cons] at induction
          rw [List.map_cons, List.sum_cons, List.length_cons, List.length_cons]
          omega

end StackScript.Text
