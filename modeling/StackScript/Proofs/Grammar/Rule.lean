import StackScript.Grammar.Word
import StackScript.Proofs.Source.Cursor
import StackScript.Proofs.Triple
import StackScript.Proofs.Tree.Typing

namespace StackScript.Grammar

/-! Rules that read a text without NUL characters and declare nothing. -/

/-- The registry, and a text without NUL characters ahead. -/
structure Reads (r : Registry) (s : ParseState) : Prop where
  registry_eq : s.registry = r
  clean : '\x00' ∉ s.cursor.rest

variable {ε α β : Type} {r : Registry} {result : α → Prop} {last : β → Prop}

/-- A rule that matches gives a result of a kind and declares nothing. -/
def Looks (r : Registry) (rule : EStateM ε ParseState α) (result : α → Prop)
    (fails : ε → ParseState → Prop) : Prop :=
  Meets (Reads r) rule (fun a s => result a ∧ Reads r s) fails

/-- Neither a match nor a failure of the rule declares anything. -/
def Parses (r : Registry) (rule : EStateM ε ParseState α) (result : α → Prop) : Prop :=
  Looks r rule result (fun _ s => Reads r s)

namespace Looks

variable {fails : ε → ParseState → Prop}

theorem pure {a : α} (holds : result a) :
    Looks r (Pure.pure a : EStateM ε ParseState α) result fails :=
  Meets.pure fun _ start => ⟨holds, start⟩

theorem bind {rule : EStateM ε ParseState α} {next : α → EStateM ε ParseState β}
    (first : Looks r rule result fails) (second : ∀ a, result a → Looks r (next a) last fails) :
    Looks r (rule >>= next) last fails :=
  Meets.bind first fun a => Meets.of_start (fun _ start => start.1) fun holds =>
    Meets.mono (second a holds) (fun _ start => start.2) (fun _ _ done => done)
      (fun _ _ fault => fault)

theorem mono {rule : EStateM ε ParseState α} {result' : α → Prop}
    (looks : Looks r rule result fails) (weaker : ∀ a, result a → result' a) :
    Looks r rule result' fails :=
  Meets.mono looks (fun _ start => start) (fun a _ done => ⟨weaker a done.1, done.2⟩)
    (fun _ _ fault => fault)

theorem cursor : Looks r (Grammar.cursor : EStateM ε ParseState Cursor) ('\x00' ∉ ·.rest) fails :=
  fun _ start => ⟨start.clean, start⟩

theorem registry : Looks r (Grammar.registry : EStateM ε ParseState Registry) (· = r) fails :=
  fun _ start => ⟨start.registry_eq, start⟩

theorem moveTo {c : Cursor} (clean : '\x00' ∉ c.rest) :
    Looks r (Grammar.moveTo c : EStateM ε ParseState Unit) (fun _ => True) fails :=
  fun _ start => ⟨trivial, start.registry_eq, clean⟩

theorem accept {read : Cursor → Option Cursor}
    (follows : ∀ c c', read c = some c' → c.Follows c') :
    Looks r (Grammar.accept read : EStateM ε ParseState Bool) (fun _ => True) fails := by
  intro s start
  simp only [Grammar.accept]
  cases found : read s.cursor with
  | none => exact ⟨trivial, start⟩
  | some c => exact ⟨trivial, start.registry_eq, (follows _ _ found).notMem start.clean⟩

theorem acceptOne {read : Cursor → Option (α × Cursor)}
    (follows : ∀ c a c', read c = some (a, c') → c.Follows c' ∧ result a) :
    Looks r (Grammar.acceptOne read : EStateM ε ParseState (Option α))
      (fun found => ∀ a, found = some a → result a) fails := by
  intro s start
  simp only [Grammar.acceptOne]
  cases found : read s.cursor with
  | none => exact ⟨nofun, start⟩
  | some pair =>
      obtain ⟨a, c⟩ := pair
      obtain ⟨behind, holds⟩ := follows _ _ _ found
      refine ⟨fun b equal => ?_, start.registry_eq, behind.notMem start.clean⟩
      obtain rfl := Option.some.inj equal
      exact holds

theorem acceptSymbol (char : Char) :
    Looks r (Grammar.acceptSymbol char : EStateM ε ParseState Bool) (fun _ => True) fails :=
  accept fun _ _ => Cursor.follows_symbol?

theorem acceptKeyword (word : List Char) :
    Looks r (Grammar.acceptKeyword word : EStateM ε ParseState Bool) (fun _ => True) fails :=
  accept fun _ _ => Cursor.follows_keyword?

theorem skipSpace :
    Looks r (Grammar.skipSpace : EStateM ε ParseState Unit) (fun _ => True) fails :=
  bind cursor fun c clean => moveTo (c.follows_skipSpace.notMem clean)

theorem remaining :
    Looks r (Grammar.remaining : EStateM ε ParseState Nat) (fun _ => True) fails :=
  bind cursor fun _ _ => pure trivial

end Looks

namespace Parses

theorem mono {rule : EStateM ε ParseState α} {result' : α → Prop} (parses : Parses r rule result)
    (weaker : ∀ a, result a → result' a) : Parses r rule result' :=
  Looks.mono parses weaker

theorem pure {a : α} (holds : result a) :
    Parses r (Pure.pure a : EStateM ε ParseState α) result :=
  Looks.pure holds

theorem throw {e : ε} : Parses r (MonadExcept.throw e : EStateM ε ParseState α) result :=
  fun _ start => start

theorem bind {rule : EStateM ε ParseState α} {next : α → EStateM ε ParseState β}
    (first : Parses r rule result) (second : ∀ a, result a → Parses r (next a) last) :
    Parses r (rule >>= next) last :=
  Looks.bind first second

theorem seq {rule : EStateM ε ParseState α} {next : α → EStateM ε ParseState β}
    (first : Parses r rule fun _ => True) (second : ∀ a, Parses r (next a) last) :
    Parses r (rule >>= next) last :=
  bind first fun a _ => second a

theorem map {rule : EStateM ε ParseState α} {f : α → β} (parses : Parses r rule result)
    (image : ∀ a, result a → last (f a)) : Parses r (f <$> rule) last := by
  rw [← bind_pure_comp]
  exact bind parses fun a holds => pure (image a holds)

theorem ite {p : Prop} [Decidable p] {yes no : EStateM ε ParseState α}
    (whenTrue : p → Parses r yes result) (whenFalse : ¬ p → Parses r no result) :
    Parses r (if p then yes else no) result := by
  by_cases holds : p
  · rw [if_pos holds]
    exact whenTrue holds
  · rw [if_neg holds]
    exact whenFalse holds

theorem fail {cause : Cause} {children : List Diagnostic} :
    Parses r (Body.fail cause children : Body α) result :=
  throw

theorem pass {cause : Cause} {children : List Diagnostic} :
    Parses r (Body.pass cause children : Body α) result :=
  throw

theorem close {body : Body α} (parses : Parses r body result) : Parses r body.close result := by
  intro s start
  have done := parses s start
  simp only [Body.close]
  cases run : body s with
  | ok a s' =>
      rw [run] at done
      exact done
  | error failure s' =>
      rw [run] at done
      exact ⟨done.registry_eq, start.clean⟩

theorem orPass {rule : Rule α} {cause : Cause} (parses : Parses r rule result) :
    Parses r (rule.orPass cause) result := by
  intro s start
  have done := parses s start
  simp only [Rule.orPass]
  cases run : rule s <;> rw [run] at done <;> exact done

theorem orFail {rule : Rule α} {cause : Cause} (parses : Parses r rule result) :
    Parses r (rule.orFail cause) result := by
  intro s start
  have done := parses s start
  simp only [Rule.orFail]
  cases run : rule s <;> rw [run] at done <;> exact done

theorem or {first second : Rule α} (left : Parses r first result)
    (right : Parses r second result) : Parses r (first.or second) result := by
  intro s start
  have done := left s start
  simp only [Rule.or]
  cases run : first s with
  | ok a s' =>
      rw [run] at done
      exact done
  | error e s' =>
      rw [run] at done
      obtain ⟨signal, nodes⟩ := e
      cases signal with
      | broken => exact done
      | unmatched =>
          have next := right s' done
          simp only
          cases run' : second s' <;> rw [run'] at next <;> exact next

theorem tooDeep : Parses r (Grammar.tooDeep : Rule α) result :=
  fun _ start => start

end Parses

theorem Looks.attempt {fails : ε → ParseState → Prop} {rule : Rule α}
    (parses : Parses r rule result) :
    Looks r (rule.attempt : EStateM ε ParseState (Except Rejection α))
      (fun outcome => ∀ a, outcome = .ok a → result a) fails := by
  intro s start
  have done := parses s start
  simp only [Rule.attempt]
  cases run : rule s with
  | ok a s' =>
      rw [run] at done
      exact ⟨fun b equal => Except.ok.inj equal ▸ done.1, done.2⟩
  | error e s' =>
      rw [run] at done
      exact ⟨nofun, done⟩

end StackScript.Grammar
