import StackScript.Proofs.Diagnostic.Program
import StackScript.Proofs.Text.Lines

namespace StackScript

/-! What the report of a refused source shows: the line of the place where it failed, with a caret
below. The place is found by counting line feeds in the bytes of the source, the line by dividing
the text. -/

namespace Text

theorem Utf8.encode_append (front back : List Char) :
    encode (front ++ back) = encode front ++ encode back :=
  List.flatMap_append

theorem Utf8.newline_notMem_encode {text : List Char} (single : '\n' ∉ text) :
    newline ∉ encode text := by
  intro member
  obtain ⟨c, there, byte⟩ := List.mem_flatMap.mp member
  exact Position.newline_notMem (fun same => single (same ▸ there)) byte

theorem Utf8.encode_newline (text : List Char) : encode ('\n' :: text) = newline :: encode text :=
  rfl

theorem Utf8.count_encode (text : List Char) : (encode text).count newline = text.count '\n' := by
  induction text with
  | nil => rfl
  | cons c text induction =>
      by_cases broken : c = '\n'
      · subst broken
        rw [encode_newline, List.count_cons_self, List.count_cons_self, induction]
      · have clean := List.count_eq_zero_of_not_mem (Position.newline_notMem broken)
        rw [encode, List.flatMap_cons, List.count_append, clean, Nat.zero_add,
          List.count_cons_of_ne broken, ← induction, encode]

end Text

namespace Position

variable {p : Position} {above line below : List UInt8}

/-- The bytes in front of a place do not end within the lines above it. -/
theorem Marks.length_above_le (marks : p.Marks (above ++ (line ++ below)))
    (counted : above.count newline = p.line)
    (ended : above = [] ∨ ∃ front, above = front ++ [newline]) : above.length ≤ p.offset := by
  rcases ended with rfl | ⟨front, rfl⟩
  · exact Nat.zero_le _
  by_contra short
  have before : p.offset ≤ front.length := by
    rw [List.length_append, List.length_singleton] at short
    omega
  have taken := marks.line
  rw [List.append_assoc, List.take_append_of_le_length before] at taken
  have fewer := (List.take_sublist p.offset front).count_le newline
  rw [List.count_append, List.count_singleton_self] at counted
  omega

/-- Nor do they reach over the line feed that ends the line. -/
theorem Marks.offset_le (marks : p.Marks (above ++ (line ++ below)))
    (counted : above.count newline = p.line)
    (ends : below = [] ∨ ∃ after, below = newline :: after) :
    p.offset ≤ above.length + line.length := by
  rcases ends with rfl | ⟨after, rfl⟩
  · simpa using marks.inside
  by_contra long
  have beyond : p.offset = (above ++ line ++ [newline]).length +
      (p.offset - (above ++ line ++ [newline]).length) := by
    simp only [List.length_append, List.length_singleton]
    omega
  have taken := marks.line
  rw [beyond, show above ++ (line ++ newline :: after) = above ++ line ++ [newline] ++ after by simp,
    List.take_length_add_append, List.count_append, List.count_append, List.count_append,
    List.count_singleton_self] at taken
  omega

theorem Marks.offset_eq (marks : p.Marks (above ++ (line ++ below)))
    (counted : above.count newline = p.line) (clean : newline ∉ line)
    (ended : above = [] ∨ ∃ front, above = front ++ [newline])
    (ends : below = [] ∨ ∃ after, below = newline :: after) :
    p.offset = above.length + p.column := by
  have low := marks.length_above_le counted ended
  have high := marks.offset_le counted ends
  obtain ⟨read, offset⟩ := Nat.exists_eq_add_of_le low
  have inLine : read ≤ line.length := by omega
  have all : ∀ byte ∈ (line.take read).reverse, decide (byte ≠ newline) = true := by
    intro byte member
    refine decide_eq_true fun same => clean ?_
    rw [← same]
    exact List.mem_of_mem_take (List.mem_reverse.mp member)
  have stops : above.reverse.takeWhile (· ≠ newline) = [] := by
    rcases ended with rfl | ⟨front, rfl⟩
    · rfl
    · rw [List.reverse_concat]
      rfl
  have column := marks.column
  rw [offset, List.take_length_add_append, List.take_append_of_le_length inLine,
    List.reverse_append, List.takeWhile_append_of_pos all, stops, List.append_nil,
    List.length_reverse, List.length_take_of_le inLine] at column
  rw [offset, column]

end Position

namespace Text

theorem count_unlines {all : List (List Char)} (single : ∀ line ∈ all, '\n' ∉ line) :
    (unlines all).count '\n' = all.length := by
  induction all with
  | nil => rfl
  | cons line others induction =>
      obtain ⟨first, others⟩ := List.forall_mem_cons.mp single
      rw [unlines_cons, List.count_append, List.count_eq_zero_of_not_mem first,
        List.count_cons_self, induction others, Nat.zero_add, List.length_cons]

theorem unlines_ends (all : List (List Char)) :
    unlines all = [] ∨ ∃ front, unlines all = front ++ ['\n'] := by
  induction all using List.reverseRecOn with
  | nil => exact .inl rfl
  | append_singleton all line _ =>
      refine .inr ⟨unlines all ++ line, ?_⟩
      rw [unlines, List.flatMap_append, List.flatMap_singleton, ← List.append_assoc, unlines]

namespace Row

variable {text : List Char} {number : Nat} {p : Position}

/-- Where the line starts, in bytes. -/
def offset (row : Row text number) : Nat :=
  (Utf8.encode (unlines row.above)).length

/-- The place is in the line, or right behind it. -/
structure Holds (row : Row text number) (p : Position) : Prop where
  line : p.line = number
  offset : p.offset = row.offset + p.column
  column : p.column ≤ (Utf8.encode row.content).length

theorem holds (row : Row text p.line) (marks : p.Marks (Utf8.encode text)) : row.Holds p := by
  obtain ⟨content, above⟩ := List.forall_mem_cons.mp row.single
  rw [row.whole, Utf8.encode_append, Utf8.encode_append] at marks
  have counted : (Utf8.encode (unlines row.above)).count newline = p.line := by
    rw [Utf8.count_encode, count_unlines above, row.length_above]
  have ended : Utf8.encode (unlines row.above) = [] ∨
      ∃ front, Utf8.encode (unlines row.above) = front ++ [newline] := by
    rcases unlines_ends row.above with none | ⟨front, last⟩
    · exact .inl (by rw [none]; rfl)
    · exact .inr ⟨Utf8.encode front, by rw [last, Utf8.encode_append]; rfl⟩
  have ends : Utf8.encode row.back = [] ∨ ∃ after, Utf8.encode row.back = newline :: after := by
    rcases row.ends with last | ⟨after, behind⟩
    · exact .inl (by rw [last]; rfl)
    · exact .inr ⟨Utf8.encode after, by rw [behind]; rfl⟩
  have offset := marks.offset_eq counted (Utf8.newline_notMem_encode content) ended ends
  have high := marks.offset_le counted ends
  exact ⟨rfl, offset, by omega⟩

theorem exists_of_marks (marks : p.Marks (Utf8.encode text)) :
    ∃ row : Row text p.line, row.Holds p := by
  have within : p.line ≤ text.count '\n' := by
    rw [marks.line, ← Utf8.count_encode]
    exact (List.take_sublist _ _).count_le newline
  obtain ⟨row⟩ := exists_of_le within
  exact ⟨row, row.holds marks⟩

theorem length_encode (row : Row text number) : (Utf8.encode text).length =
    row.offset + ((Utf8.encode row.content).length + (Utf8.encode row.back).length) := by
  have bytes := congrArg (List.length ∘ Utf8.encode) row.whole
  simpa only [Function.comp, Utf8.encode_append, List.length_append, offset] using bytes

end Row

/-- The place behind the line feed that ends a text. No line of the text is there. -/
structure IsBehindLines (text : List Char) (p : Position) : Prop where
  offset : p.offset = (Utf8.encode text).length
  ended : text.getLast? = some '\n'

theorem Row.Holds.isBehindLines_iff {text : List Char} {number : Nat} {p : Position}
    {row : Row text number} (holds : row.Holds p) (some : text ≠ []) :
    IsBehindLines text p ↔ row.back = [] ∧ row.content = [] := by
  have offset := holds.offset
  have column := holds.column
  have size := row.length_encode
  have whole := row.whole
  constructor
  · rintro ⟨last, ended⟩
    have none : (Utf8.encode row.back).length = 0 := by omega
    have back : row.back = [] :=
      List.eq_nil_of_length_eq_zero
        (Nat.le_zero.mp (none ▸ Utf8.length_le_length_encode row.back))
    refine ⟨back, by_contra fun content => (List.forall_mem_cons.mp row.single).1 ?_⟩
    rw [whole, back, List.append_nil, List.getLast?_append_of_ne_nil _ content] at ended
    exact List.mem_of_getLast? ended
  · rintro ⟨back, content⟩
    rw [back, content] at size whole
    rw [content] at column
    refine ⟨by rw [offset, Nat.le_zero.mp column, size]; rfl, ?_⟩
    rw [List.append_nil, List.append_nil] at whole
    rcases unlines_ends row.above with none | ⟨front, last⟩
    · exact absurd (whole.trans none) some
    · rw [whole, last, List.getLast?_concat]

end Text

namespace Report

variable {r : Report} {color : Bool} {content : String}

/-- A source line behind its number, and below it a caret in the column of the report. -/
def marked (r : Report) (color : Bool) (content : String) : String :=
  paint color .errorGutter (Text.padLeft ' ' 4 (toString r.position.line) ++ " |") ++ " " ++
    content ++ "\n" ++ Text.spaces (6 + r.position.column) ++ paint color .caret "^" ++ "\n"

theorem excerptLine_eq_marked (r : Report) (color : Bool) (content : String) :
    r.excerptLine color r.position.line content = r.marked color content :=
  if_pos rfl

theorem excerpt_eq_empty (past : r.source.length < r.position.line) : r.excerpt color = "" := by
  have outside : ¬ r.position.line ≤ r.source.length := Nat.not_le_of_lt past
  simp [excerpt, outside]

theorem mem_join {part : String} {parts : List String} (member : part ∈ parts) :
    ∃ front back, String.join parts = front ++ part ++ back := by
  obtain ⟨front, back, rfl⟩ := List.append_of_mem member
  refine ⟨String.join front, String.join back, ?_⟩
  simp [String.append_assoc]

theorem marked_mem (color : Bool) {start span first k : Nat} (line : first + k = r.position.line)
    (listed : (r.source.drop start)[k]? = some content) (within : k < span) :
    r.marked color content ∈ ((r.source.drop start).take span).mapIdx fun i content =>
      r.excerptLine color (first + i) content := by
  have taken : ((r.source.drop start).take span)[k]? = some content := by
    rw [List.getElem?_take_of_lt within, listed]
  obtain ⟨inside, there⟩ := List.getElem?_eq_some_iff.mp taken
  refine List.mem_mapIdx.mpr ⟨k, inside, ?_⟩
  rw [there, line, excerptLine_eq_marked]

theorem excerpt_shows (color : Bool) {index : Nat} (line : r.position.line = index + 1)
    (listed : r.source[index]? = some content) :
    ∃ front back, r.excerpt color = front ++ r.marked color content ++ back := by
  have inside := (List.getElem?_eq_some_iff.mp listed).1
  have shows : (0 < r.position.line && r.position.line ≤ r.source.length) = true := by
    simpa [line] using Nat.succ_le_of_lt inside
  rw [excerpt, if_pos shows]
  -- there is no line above the first one
  generalize above : (if 1 < r.position.line then r.position.line - 1 else 1) = first
  have low : 1 ≤ first ∧ first ≤ r.position.line := by split at above <;> omega
  obtain ⟨k, sum⟩ := Nat.exists_eq_add_of_le low.2
  have there : (r.source.drop (first - 1))[k]? = some content := by
    rw [List.getElem?_drop, show first - 1 + k = index by omega, listed]
  have within : k < r.position.line + 2 - first := by omega
  obtain ⟨front, back, whole⟩ := mem_join (marked_mem color sum.symm there within)
  refine ⟨"\n" ++ front, back, (congrArg ("\n" ++ ·) whole).trans ?_⟩
  simp only [String.append_assoc]

theorem length_sourceLines {source : String} {number : Nat} (row : Text.Row source.toList number)
    (none : row.back = [] ∧ row.content = []) : (sourceLines source).length = number := by
  rw [sourceLines, List.length_map, row.lines_eq, none.1, none.2, List.length_append,
    List.length_map, row.length_above]
  rfl

theorem getElem?_sourceLines {source : String} {number : Nat}
    (row : Text.Row source.toList number) :
    (sourceLines source)[number]? =
      if row.back = [] ∧ row.content = [] then none else some (String.ofList row.shown) := by
  rw [sourceLines, List.getElem?_map, row.getElem?_lines]
  split <;> rfl

end Report

/-- What a report shows of the place in a source: its line, in which it is, is shown under its
number and with a caret below. A place behind the last line has nothing to show. -/
structure Report.Shows (source : String) (r : Report) {p : Position}
    (row : Text.Row source.toList p.line) : Prop where
  /-- Lines and columns of reports count from one. -/
  position : r.position = { line := p.line + 1, column := p.column + 1, offset := p.offset }
  holds : row.Holds p
  listed : ¬ Text.IsBehindLines source.toList p →
    (sourceLines source)[p.line]? = some (String.ofList row.shown)
  shown : ¬ Text.IsBehindLines source.toList p → ∀ color, ∃ front back,
    r.render color = front ++ r.marked color (String.ofList row.shown) ++ back
  missing : Text.IsBehindLines source.toList p → p.line = (sourceLines source).length ∧
    ∀ color, r.render color = r.header color ++ r.helpLine color

namespace Compilation

theorem failure_of_cause {c : Compilation} (cause : c.diagnostic.cause ≠ .ok) :
    c = .failure c.diagnostic := by
  cases c with
  | success unit => exact absurd rfl cause
  | failure d => rfl

theorem refuses_of_failure {source : String} {d : Diagnostic}
    (failed : compile source = .failure d) : (failure d).Refuses source := by
  have done := Grammar.program_locates 0
    { cursor := .ofSource source, registry := initialRegistry } (Cursor.stands_ofSource source)
  simp only [compile] at failed
  split at failed
  · cases failed
  · rename_i rejection s rejected
    rw [rejected] at done
    cases failed
    exact refuses_of_sound done.2.told done.2.nodes

theorem toList_ne_nil_of_failure {source : String} {d : Diagnostic}
    (failed : compile source = .failure d) : source.toList ≠ [] := by
  intro empty
  obtain rfl : source = "" := String.toList_eq_nil_iff.mp empty
  have accepted : (compile "").diagnostic.cause = .ok := by decide +kernel
  rw [failed] at accepted
  exact Cause.noConfusion (accepted.symm.trans (refuses_of_failure failed).cause)

/-- The report of a refused source shows the line of its place, with a caret below, unless the place
is behind the line feed that ends the source. -/
theorem failure_shows {source : String} {d : Diagnostic} (failed : compile source = .failure d)
    (file : String) :
    ∃ (p : Position) (row : Text.Row source.toList p.line),
      (d.report file source).Shows source row := by
  obtain ⟨p, marks, position⟩ := (refuses_of_failure failed).reported file
  obtain ⟨row, holds⟩ := Text.Row.exists_of_marks marks
  have behind := holds.isBehindLines_iff (toList_ne_nil_of_failure failed)
  have line : (d.report file source).position.line = p.line + 1 := congrArg Position.line position
  have there := Report.getElem?_sourceLines row
  refine ⟨p, row, position, holds, fun inside => ?_, fun inside color => ?_, fun past => ?_⟩
  · rw [there, if_neg (behind.not.mp inside)]
  · rw [if_neg (behind.not.mp inside)] at there
    obtain ⟨front, back, whole⟩ := Report.excerpt_shows color line there
    refine ⟨(d.report file source).header color ++ front,
      back ++ (d.report file source).helpLine color, ?_⟩
    rw [Report.render, whole]
    simp only [String.append_assoc]
  · have lines := Report.length_sourceLines row (behind.mp past)
    refine ⟨lines.symm, fun color => ?_⟩
    have nothing : (d.report file source).excerpt color = "" := by
      refine Report.excerpt_eq_empty ?_
      rw [line]
      exact Nat.lt_succ_of_le (Nat.le_of_eq lines)
    rw [Report.render, nothing, String.append_empty]

/-- The text `int x x =` fails right behind its end, in its only line. -/
theorem missing_value_shown : compile "int x x =" = .failure (compile "int x x =").diagnostic ∧
    ∃ (p : Position) (row : Text.Row "int x x =".toList p.line),
      ((compile "int x x =").diagnostic.report "main.ql" "int x x =").Shows "int x x =" row :=
  have failed : compile "int x x =" = .failure (compile "int x x =").diagnostic :=
    failure_of_cause (by decide +kernel)
  ⟨failed, failure_shows failed "main.ql"⟩

/-- With a line feed at its end, it fails in a second line that it does not have: no line and no
caret is shown. -/
theorem missing_value_hidden :
    compile "int x x =\n" = .failure (compile "int x x =\n").diagnostic ∧
      ((compile "int x x =\n").diagnostic.report "main.ql" "int x x =\n").position =
        { line := 2, column := 1, offset := 10 } ∧
      (Report.sourceLines "int x x =\n").length = 1 ∧
      '^' ∉ (((compile "int x x =\n").diagnostic.report "main.ql" "int x x =\n").render
        false).toList := by
  refine ⟨failure_of_cause (by decide +kernel), by decide +kernel, by decide +kernel, ?_⟩
  decide +kernel

end Compilation

end StackScript
