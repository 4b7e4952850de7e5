import StackScript.Grammar.Word
import StackScript.Proofs.Source.Cursor
import StackScript.Proofs.Triple

namespace StackScript.Grammar

/-! What the smallest rules do in front of a known text. -/

/-- The registry, and the text ahead. -/
structure At (r : Registry) (text : List Char) (s : ParseState) : Prop where
  registry_eq : s.registry = r
  rest_eq : s.cursor.rest = text

variable {ε α : Type} {r : Registry} {text rest : List Char} {fail : ε → ParseState → Prop}

theorem cursor_at :
    Meets (At r text) (cursor : EStateM ε ParseState Cursor)
      (fun c s => c.rest = text ∧ At r text s) fail :=
  fun _ start => ⟨start.rest_eq, start⟩

theorem registry_at :
    Meets (At r text) (registry : EStateM ε ParseState Registry)
      (fun r' s => r' = r ∧ At r text s) fail :=
  fun _ start => ⟨start.registry_eq, start⟩

theorem after_cursor {β : Type} {next : Cursor → EStateM ε ParseState β}
    {last : β → ParseState → Prop}
    (second : ∀ c : Cursor, c.rest = text → Meets (At r text) (next c) last fail) :
    Meets (At r text) (cursor >>= next) last fail :=
  Meets.bind cursor_at fun c => .of_start (fun _ start => start.1) fun same =>
    Meets.mono (second c same) (fun _ start => start.2) (fun _ _ done => done)
      fun _ _ fault => fault

theorem moveTo_at {c : Cursor} (same : c.rest = rest) :
    Meets (At r text) (moveTo c : EStateM ε ParseState Unit) (fun _ => At r rest) fail :=
  fun _ start => ⟨start.registry_eq, same⟩

theorem skipSpace_at (unspaced : text.dropWhile Cursor.isSpace = rest) :
    Meets (At r text) (skipSpace : EStateM ε ParseState Unit) (fun _ => At r rest) fail := by
  refine after_cursor fun c same => moveTo_at ?_
  rw [c.rest_skipSpace, same, unspaced]

theorem remaining_at :
    Meets (At r text) (remaining : EStateM ε ParseState Nat)
      (fun n s => n = text.length ∧ At r text s) fail := by
  refine .bind cursor_at fun c => .pure fun s start => ⟨?_, start.2⟩
  rw [start.1]

theorem after_remaining {β : Type} {next : Nat → EStateM ε ParseState β}
    {last : β → ParseState → Prop} (second : Meets (At r text) (next text.length) last fail) :
    Meets (At r text) (remaining >>= next) last fail := by
  refine .bind remaining_at fun n => .of_start (fun _ start => start.1) ?_
  rintro rfl
  exact Meets.mono second (fun _ start => start.2) (fun _ _ done => done) fun _ _ fault => fault

/-- Reading `text` gives a result and leaves the rest. -/
def Finds (read : Cursor → Option (α × Cursor)) (text : List Char) (a : α) (rest : List Char) :
    Prop :=
  ∀ c : Cursor, c.rest = text → ∃ c', read c = some (a, c') ∧ c'.rest = rest

def Misses (read : Cursor → Option α) (text : List Char) : Prop :=
  ∀ c : Cursor, c.rest = text → read c = none

theorem acceptOne_finds {read : Cursor → Option (α × Cursor)} {a : α}
    (finds : Finds read text a rest) :
    Meets (At r text) (acceptOne read : EStateM ε ParseState (Option α))
      (fun found s => found = some a ∧ At r rest s) fail := by
  intro s start
  obtain ⟨c, found, same⟩ := finds s.cursor start.rest_eq
  simp only [acceptOne, found]
  exact ⟨trivial, start.registry_eq, same⟩

theorem acceptOne_misses {read : Cursor → Option (α × Cursor)} (misses : Misses read text) :
    Meets (At r text) (acceptOne read : EStateM ε ParseState (Option α))
      (fun found s => found = none ∧ At r text s) fail := by
  intro s start
  simp only [acceptOne, misses s.cursor start.rest_eq]
  exact ⟨trivial, start⟩

theorem accept_takes {read : Cursor → Option Cursor}
    (takes : ∀ c : Cursor, c.rest = text → ∃ c', read c = some c' ∧ c'.rest = rest) :
    Meets (At r text) (accept read : EStateM ε ParseState Bool)
      (fun b s => b = true ∧ At r rest s) fail := by
  intro s start
  obtain ⟨c, found, same⟩ := takes s.cursor start.rest_eq
  simp only [accept, found]
  exact ⟨trivial, start.registry_eq, same⟩

theorem accept_misses {read : Cursor → Option Cursor} (misses : Misses read text) :
    Meets (At r text) (accept read : EStateM ε ParseState Bool)
      (fun b s => b = false ∧ At r text s) fail := by
  intro s start
  simp only [accept, misses s.cursor start.rest_eq]
  exact ⟨trivial, start⟩

/-! Symbols, operators and keywords. -/

theorem symbol?_takes {char : Char} (unspaced : text.dropWhile Cursor.isSpace = char :: rest)
    (c : Cursor) (same : c.rest = text) :
    ∃ c', c.symbol? char = some c' ∧ c'.rest = rest := by
  have ahead : c.skipSpace.rest = char :: rest := by rw [c.rest_skipSpace, same, unspaced]
  refine ⟨c.skipSpace.advance, ?_, by rw [Cursor.rest_advance, ahead, List.tail_cons]⟩
  simp [Cursor.symbol?, Cursor.isAt, Cursor.peek?, ahead]

theorem symbol?_misses {char : Char}
    (other : (text.dropWhile Cursor.isSpace).head? ≠ some char) :
    Misses (Cursor.symbol? char) text := by
  intro c same
  simp [Cursor.symbol?, Cursor.isAt, Cursor.peek?, c.rest_skipSpace, same, other]

theorem keyword?_takes {word front : List Char}
    (unspaced : text.dropWhile Cursor.isSpace = front ++ rest)
    (spelled : front.map Char.toLower = word) (ends : Cursor.isTerminal rest = true) (c : Cursor)
    (same : c.rest = text) : ∃ c', c.keyword? word = some c' ∧ c'.rest = rest := by
  have ahead : c.skipSpace.rest = front ++ rest := by rw [c.rest_skipSpace, same, unspaced]
  have length : word.length = front.length := by rw [← spelled, List.length_map]
  refine ⟨c.skipSpace.advanceBy word.length, ?_, ?_⟩
  · simp [Cursor.keyword?, ahead, length, spelled, ends]
  · rw [Cursor.rest_advanceBy, ahead, length, List.drop_left]

theorem keyword?_misses_of_ne {word : List Char}
    (other : ((text.dropWhile Cursor.isSpace).take word.length).map Char.toLower ≠ word) :
    Misses (Cursor.keyword? word) text := by
  intro c same
  rw [Cursor.keyword?, c.rest_skipSpace, same]
  simp only [other, decide_false, Bool.false_and, Bool.false_eq_true, if_false]

theorem keyword?_misses {first : Char} {word : List Char}
    (other : ∀ char, (text.dropWhile Cursor.isSpace).head? = some char → char.toLower ≠ first) :
    Misses (Cursor.keyword? (first :: word)) text := by
  intro c same
  rw [Cursor.keyword?, c.rest_skipSpace, same]
  cases ahead : text.dropWhile Cursor.isSpace with
  | nil => simp
  | cons char more => simp [other char (by rw [ahead]; rfl)]

theorem operator?_misses {first : Char} {word : List Char}
    (other : (text.dropWhile Cursor.isSpace).head? ≠ some first) :
    Misses (Cursor.operator? (first :: word)) text := by
  intro c same
  rw [Cursor.operator?, c.rest_skipSpace, same]
  cases ahead : text.dropWhile Cursor.isSpace with
  | nil => simp
  | cons char more =>
      rw [ahead] at other
      simp only [List.head?_cons, ne_eq, Option.some.injEq] at other
      simp [Ne.symm other]

theorem operator?_takes {word : List Char}
    (unspaced : text.dropWhile Cursor.isSpace = word ++ rest) (c : Cursor)
    (same : c.rest = text) : ∃ c', c.operator? word = some c' ∧ c'.rest = rest := by
  have ahead : c.skipSpace.rest = word ++ rest := by rw [c.rest_skipSpace, same, unspaced]
  refine ⟨c.skipSpace.advanceBy word.length, ?_, ?_⟩
  · simp [Cursor.operator?, ahead]
  · rw [Cursor.rest_advanceBy, ahead, List.drop_left]

theorem firstOf?_misses {read : List Char → Cursor → Option Cursor} {words : List (List Char × α)}
    (none : ∀ entry ∈ words, Misses (read entry.1) text) :
    Misses (fun c : Cursor => c.firstOf? read words) text := by
  intro c same
  induction words with
  | nil => rfl
  | cons entry others induction =>
      obtain ⟨word, a⟩ := entry
      simp only [Cursor.firstOf?, none (word, a) List.mem_cons_self c same]
      exact induction fun entry member => none entry (List.mem_cons_of_mem _ member)

theorem firstOf?_finds {read : List Char → Cursor → Option Cursor} {word : List Char} {a : α}
    {words : List (List Char × α)} (member : (word, a) ∈ words)
    (takes : ∀ c : Cursor, c.rest = text → ∃ c', read word c = some c' ∧ c'.rest = rest)
    (others : ∀ entry ∈ words, entry ≠ (word, a) → Misses (read entry.1) text) :
    Finds (fun c : Cursor => c.firstOf? read words) text a rest := by
  intro c same
  obtain ⟨c', found, behind⟩ := takes c same
  refine ⟨c', ?_, behind⟩
  induction words with
  | nil => cases member
  | cons entry words induction =>
      by_cases here : entry = (word, a)
      · subst here
        simp only [Cursor.firstOf?, found]
      · obtain ⟨word', a'⟩ := entry
        simp only [Cursor.firstOf?, others (word', a') List.mem_cons_self here c same]
        refine induction ?_ fun entry there => others entry (List.mem_cons_of_mem _ there)
        exact (List.mem_cons.mp member).resolve_left fun same => here same.symm

end StackScript.Grammar
