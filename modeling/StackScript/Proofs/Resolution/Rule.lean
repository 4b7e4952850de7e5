import StackScript.Proofs.Grammar.Token
import StackScript.Proofs.Resolution.Text

namespace StackScript.Grammar

/-! Rules that read any text: what a rule that matches has read is a condition on the text in front
of it and the rest, and a rule that leaves room for others has left everything as it was. -/

open Source

variable {ε α β : Type} {r : Registry} {text : List Char}
variable {post : α → Registry → List Char → Prop} {last : β → Registry → List Char → Prop}
variable {fails : ε → ParseState → Prop}

/-- From a text the rule goes on to a rest, with the registry that it leaves. -/
def Takes (r : Registry) (text : List Char) (rule : EStateM ε ParseState α)
    (post : α → Registry → List Char → Prop) (fails : ε → ParseState → Prop) : Prop :=
  Meets (At r text) rule (fun a s => ∃ r' rest, At r' rest s ∧ post a r' rest) fails

/-- A failure inside of a rule may have moved, but not declared anything. -/
def Failure.Keeps (r : Registry) (failure : Failure) (s : ParseState) : Prop :=
  failure.signal = .unmatched → s.registry = r

def Rejection.Restores (r : Registry) (text : List Char) (rejection : Rejection)
    (s : ParseState) : Prop :=
  rejection.signal = .unmatched → At r text s

/-- A rule that may declare nothing. -/
abbrev Scans (r : Registry) (text : List Char) (rule : EStateM ε ParseState α)
    (post : α → List Char → Prop) (fails : ε → ParseState → Prop) : Prop :=
  Takes r text rule (fun a r' rest => r' = r ∧ post a rest) fails

namespace Takes

theorem pure {a : α} (holds : post a r text) :
    Takes r text (Pure.pure a : EStateM ε ParseState α) post fails :=
  Meets.pure fun _ start => ⟨r, text, start, holds⟩

theorem mono {rule : EStateM ε ParseState α} {post' : α → Registry → List Char → Prop}
    (takes : Takes r text rule post fails)
    (weaker : ∀ a r' rest, post a r' rest → post' a r' rest) :
    Takes r text rule post' fails :=
  Meets.mono takes (fun _ start => start)
    (fun a _ ⟨r', rest, there, holds⟩ => ⟨r', rest, there, weaker a r' rest holds⟩)
    (fun _ _ fault => fault)

theorem bind {rule : EStateM ε ParseState α} {next : α → EStateM ε ParseState β}
    (first : Takes r text rule post fails)
    (second : ∀ a r' rest, post a r' rest → Takes r' rest (next a) last fails) :
    Takes r text (rule >>= next) last fails :=
  Meets.bind first fun a s ⟨r', rest, there, holds⟩ => second a r' rest holds s there

theorem scan {rule : EStateM ε ParseState α} {next : α → EStateM ε ParseState β}
    {holds : α → List Char → Prop} (first : Scans r text rule holds fails)
    (second : ∀ a rest, holds a rest → Takes r rest (next a) last fails) :
    Takes r text (rule >>= next) last fails :=
  bind first fun a _ rest ⟨same, fits⟩ => same ▸ second a rest fits

theorem map {rule : EStateM ε ParseState α} {f : α → β} (takes : Takes r text rule post fails)
    (image : ∀ a r' rest, post a r' rest → last (f a) r' rest) :
    Takes r text (f <$> rule) last fails := by
  rw [← bind_pure_comp]
  exact bind takes fun a r' rest holds => pure (image a r' rest holds)

theorem ite {p : Prop} [Decidable p] {yes no : EStateM ε ParseState α}
    (whenTrue : p → Takes r text yes post fails) (whenFalse : ¬ p → Takes r text no post fails) :
    Takes r text (if p then yes else no) post fails := by
  by_cases holds : p
  · rw [if_pos holds]
    exact whenTrue holds
  · rw [if_neg holds]
    exact whenFalse holds

theorem throw {e : ε} (allowed : ∀ s, At r text s → fails e s) :
    Takes r text (MonadExcept.throw e : EStateM ε ParseState α) post fails :=
  Meets.throw allowed

/-! The smallest rules, with what comes behind them. -/

theorem after_cursor {next : Cursor → EStateM ε ParseState β}
    (second : ∀ c : Cursor, c.rest = text → Takes r text (next c) last fails) :
    Takes r text (cursor >>= next) last fails :=
  Grammar.after_cursor second

theorem after_remaining {next : Nat → EStateM ε ParseState β}
    (second : Takes r text (next text.length) last fails) :
    Takes r text (remaining >>= next) last fails :=
  Grammar.after_remaining second

theorem after_registry {next : Registry → EStateM ε ParseState β}
    (second : Takes r text (next r) last fails) :
    Takes r text (registry >>= next) last fails := by
  refine Meets.bind registry_at fun r' => .of_start (fun _ start => start.1) ?_
  rintro rfl
  exact Meets.start second fun _ start => start.2

theorem after_move {next : Unit → EStateM ε ParseState β} {c : Cursor}
    (second : Takes r c.rest (next ()) last fails) :
    Takes r text (moveTo c >>= next) last fails :=
  Meets.bind (moveTo_at rfl) fun _ => second

end Takes

theorem blank_takeWhile (text : List Char) : Blank (text.takeWhile Cursor.isSpace) :=
  List.all_eq_true.mp List.all_takeWhile

theorem exists_gap (text : List Char) :
    ∃ gap, Blank gap ∧ text = gap ++ text.dropWhile Cursor.isSpace :=
  ⟨_, blank_takeWhile text, List.takeWhile_append_dropWhile.symm⟩

theorem symbol?_eq {char : Char} {c c' : Cursor} (read : c.symbol? char = some c') :
    ∃ gap, Blank gap ∧ c.rest = gap ++ char :: c'.rest := by
  obtain ⟨gap, blank, whole⟩ := exists_gap c.rest
  simp only [Cursor.symbol?] at read
  split at read
  · rename_i here
    obtain rfl := Option.some.inj read
    refine ⟨gap, blank, ?_⟩
    rw [Cursor.isAt, Cursor.peek?, Cursor.rest_skipSpace, decide_eq_true_eq,
      List.head?_eq_some_iff] at here
    obtain ⟨rest, ahead⟩ := here
    rw [Cursor.rest_advance, Cursor.rest_skipSpace, ahead, List.tail_cons, ← ahead]
    exact whole
  · cases read

theorem operator?_eq {word : List Char} {c c' : Cursor} (read : c.operator? word = some c') :
    ∃ gap, Blank gap ∧ c.rest = gap ++ (word ++ c'.rest) := by
  obtain ⟨gap, blank, whole⟩ := exists_gap c.rest
  simp only [Cursor.operator?] at read
  split at read
  · rename_i here
    obtain rfl := Option.some.inj read
    refine ⟨gap, blank, ?_⟩
    rw [List.isPrefixOf_iff_prefix, Cursor.rest_skipSpace] at here
    obtain ⟨rest, ahead⟩ := here
    rw [Cursor.rest_advanceBy, Cursor.rest_skipSpace, ← ahead, List.drop_left, ahead]
    exact whole
  · cases read

theorem keyword?_eq {word : List Char} {c c' : Cursor} (read : c.keyword? word = some c') :
    ∃ gap front, Blank gap ∧ c.rest = gap ++ (front ++ c'.rest) ∧
      front.map Char.toLower = word ∧ Cursor.isTerminal c'.rest = true := by
  obtain ⟨gap, blank, whole⟩ := exists_gap c.rest
  simp only [Cursor.keyword?] at read
  split at read
  · rename_i here
    obtain rfl := Option.some.inj read
    rw [Bool.and_eq_true, decide_eq_true_eq, Cursor.rest_skipSpace] at here
    refine ⟨gap, _, blank, ?_, here.1, ?_⟩
    · rw [Cursor.rest_advanceBy, Cursor.rest_skipSpace, List.take_append_drop]
      exact whole
    · rw [Cursor.rest_advanceBy, Cursor.rest_skipSpace]
      exact here.2
  · cases read

theorem firstOf?_eq {read : List Char → Cursor → Option Cursor} {words : List (List Char × α)}
    {c c' : Cursor} {a : α} (found : c.firstOf? read words = some (a, c')) :
    ∃ word, (word, a) ∈ words ∧ read word c = some c' := by
  induction words with
  | nil => cases found
  | cons entry words induction =>
      obtain ⟨word, a'⟩ := entry
      simp only [Cursor.firstOf?] at found
      split at found
      · rename_i there
        cases found
        exact ⟨word, List.mem_cons_self, there⟩
      · obtain ⟨word, member, there⟩ := induction found
        exact ⟨word, List.mem_cons_of_mem _ member, there⟩

namespace Takes

theorem after_skip {next : Unit → EStateM ε ParseState β}
    (second : ∀ gap rest, Blank gap → text = gap ++ rest → Takes r rest (next ()) last fails) :
    Takes r text (skipSpace >>= next) last fails := by
  obtain ⟨gap, blank, whole⟩ := exists_gap text
  exact Meets.bind (skipSpace_at rfl) fun _ => second gap _ blank whole

theorem accept {read : Cursor → Option Cursor} {yes no : EStateM ε ParseState β}
    (taken : ∀ c c', c.rest = text → read c = some c' → Takes r c'.rest yes last fails)
    (other : Takes r text no last fails) :
    Takes r text (Grammar.accept read >>= fun found => if found = true then yes else no) last
      fails := by
  refine Meets.through (fun found s =>
    (found = true ∧ ∃ c c', c.rest = text ∧ read c = some c' ∧ At r c'.rest s) ∨
      found = false ∧ At r text s) (fun s start => ?_) fun found => ?_
  · simp only [Grammar.accept]
    cases there : read s.cursor with
    | none => exact .inr ⟨rfl, start⟩
    | some c => exact .inl ⟨rfl, s.cursor, c, start.rest_eq, there, start.registry_eq, rfl⟩
  · rintro s (⟨rfl, c, c', same, there, start⟩ | ⟨rfl, start⟩)
    · exact taken c c' same there s start
    · exact other s start

theorem symbol {char : Char} {yes no : EStateM ε ParseState β}
    (taken : ∀ gap rest, Blank gap → text = gap ++ char :: rest → Takes r rest yes last fails)
    (other : Takes r text no last fails) :
    Takes r text (acceptSymbol char >>= fun found => if found = true then yes else no) last
      fails := by
  refine accept (fun c c' same there => ?_) other
  obtain ⟨gap, blank, whole⟩ := symbol?_eq there
  exact taken gap _ blank (same.symm.trans whole)

theorem keyword {word : List Char} {yes no : EStateM ε ParseState β}
    (taken : ∀ gap front rest, Blank gap → text = gap ++ (front ++ rest) →
      front.map Char.toLower = word → Cursor.isTerminal rest = true →
        Takes r rest yes last fails)
    (other : Takes r text no last fails) :
    Takes r text (acceptKeyword word >>= fun found => if found = true then yes else no) last
      fails := by
  refine accept (fun c c' same there => ?_) other
  obtain ⟨gap, front, blank, whole, spelled, ends⟩ := keyword?_eq there
  exact taken gap front _ blank (same.symm.trans whole) spelled ends

theorem after_one {read : Cursor → Option (α × Cursor)} {next : Option α → EStateM ε ParseState β}
    (taken : ∀ c a c', c.rest = text → read c = some (a, c') →
      Takes r c'.rest (next (some a)) last fails)
    (other : Takes r text (next none) last fails) :
    Takes r text (acceptOne read >>= next) last fails := by
  refine Meets.through (fun found s =>
    (∃ c a c', found = some a ∧ c.rest = text ∧ read c = some (a, c') ∧ At r c'.rest s) ∨
      found = none ∧ At r text s) (fun s start => ?_) fun found => ?_
  · simp only [acceptOne]
    cases there : read s.cursor with
    | none => exact .inr ⟨rfl, start⟩
    | some pair =>
        obtain ⟨a, c⟩ := pair
        exact .inl ⟨s.cursor, a, c, rfl, start.rest_eq, there, start.registry_eq, rfl⟩
  · rintro s (⟨c, a, c', rfl, same, there, start⟩ | ⟨rfl, start⟩)
    · exact taken c a c' same there s start
    · exact other s start

section Body

variable {base : Registry}

theorem fail {cause : Cause} {children : List Diagnostic} :
    Takes r text (Body.fail cause children : Body α) post (Failure.Keeps base) :=
  throw fun _ _ broken => nomatch broken

theorem pass {cause : Cause} {children : List Diagnostic} :
    Takes r text (Body.pass cause children : Body α) post (Failure.Keeps r) :=
  throw fun _ start _ => start.registry_eq

theorem orPass {rule : Rule α} {cause : Cause}
    (takes : Takes r text rule post (Rejection.Restores r text)) :
    Takes r text (rule.orPass cause) post (Failure.Keeps r) := by
  intro s start
  have done := takes s start
  simp only [Rule.orPass]
  cases run : rule s with
  | ok a s' =>
      rw [run] at done
      exact done
  | error e s' =>
      rw [run] at done
      exact fun unmatched => (done unmatched).registry_eq

theorem orFail {rule : Rule α} {cause : Cause} {inner : Rejection → ParseState → Prop}
    (takes : Takes r text rule post inner) :
    Takes r text (rule.orFail cause) post (Failure.Keeps base) := by
  intro s start
  have done := takes s start
  simp only [Rule.orFail]
  cases run : rule s with
  | ok a s' =>
      rw [run] at done
      exact done
  | error e s' =>
      intro broken
      cases broken

theorem close {body : Body α} (takes : Takes r text body post (Failure.Keeps r)) :
    Takes r text body.close post (Rejection.Restores r text) := by
  intro s start
  have done := takes s start
  simp only [Body.close]
  cases run : body s with
  | ok a s' =>
      rw [run] at done
      exact done
  | error failure s' =>
      rw [run] at done
      exact fun unmatched => ⟨done unmatched, start.rest_eq⟩

theorem or {first second : Rule α} (left : Takes r text first post (Rejection.Restores r text))
    (right : Takes r text second post (Rejection.Restores r text)) :
    Takes r text (first.or second) post (Rejection.Restores r text) := by
  intro s start
  have done := left s start
  simp only [Rule.or]
  cases run : first s with
  | ok a s' =>
      rw [run] at done
      exact done
  | error e s' =>
      rw [run] at done
      obtain ⟨signal, nodes⟩ := e
      cases signal with
      | broken =>
          intro unmatched
          cases unmatched
      | unmatched =>
          have next := right s' (done rfl)
          simp only
          cases run' : second s' <;> rw [run'] at next <;> exact next

theorem tooDeep : Takes r text (Grammar.tooDeep : Rule α) post (Rejection.Restores base text) :=
  fun _ _ unmatched => nomatch unmatched

end Body

/-- A rule whose failure is looked at: one that leaves room for others has changed nothing. -/
theorem attempt {rule : Rule α} {next : Except Rejection α → EStateM ε ParseState β}
    (takes : Takes r text rule post (Rejection.Restores r text))
    (matched : ∀ a r' rest, post a r' rest → Takes r' rest (next (.ok a)) last fails)
    (unmatched : ∀ nodes, Takes r text (next (.error { signal := .unmatched, nodes })) last fails)
    (broken : ∀ nodes, Meets (fun _ => True) (next (.error { signal := .broken, nodes }))
      (fun _ _ => False) fails) :
    Takes r text (rule.attempt >>= next) last fails := by
  refine Meets.through (fun outcome s =>
    match outcome with
    | .ok a => ∃ r' rest, At r' rest s ∧ post a r' rest
    | .error e => Rejection.Restores r text e s) ?_ fun outcome => ?_
  · intro s start
    have done := takes s start
    simp only [Rule.attempt]
    cases run : rule s with
    | ok a s' =>
        rw [run] at done
        exact done
    | error e s' =>
        rw [run] at done
        exact done
  · cases outcome with
    | ok a =>
        rintro s ⟨r', rest, there, holds⟩
        exact matched a r' rest holds s there
    | error e =>
        obtain ⟨signal, nodes⟩ := e
        cases signal with
        | unmatched => exact fun s start => unmatched nodes s (start rfl)
        | broken =>
            exact Meets.mono (broken nodes) (fun _ _ => trivial)
              (fun _ _ impossible => impossible.elim) (fun _ _ fault => fault)

end Takes

end StackScript.Grammar
