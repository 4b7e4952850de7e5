import StackScript.Proofs.Resolution.Growth
import StackScript.Proofs.Resolution.Word
import StackScript.Proofs.Tree.Seating
import StackScript.Proofs.Ty.Descriptor

namespace StackScript.Grammar

/-! Rules from any state: a rule that fails is back where it started, and one that leaves room for
others has declared nothing. -/

variable {ε α β : Type} {r : Registry}

/-- A failure goes back to where the rule started. -/
def Returns (rule : Rule α) : Prop :=
  ∀ s rejection s', rule s = .error rejection s' → s'.cursor = s.cursor

namespace Returns

theorem close (body : Body α) : Returns body.close := by
  intro s rejection s' failed
  simp only [Body.close] at failed
  split at failed
  · cases failed
  · cases failed
    rfl

theorem tooDeep : Returns (Grammar.tooDeep : Rule α) := by
  intro s rejection s' failed
  cases failed
  rfl

theorem map {rule : Rule α} (returns : Returns rule) (f : α → β) : Returns (f <$> rule) := by
  intro s rejection s' failed
  change EStateM.map f rule s = _ at failed
  unfold EStateM.map at failed
  split at failed
  · cases failed
  · rename_i inner
    cases failed
    exact returns s _ _ inner

/-- What comes behind a rule is no reason for a failure. -/
theorem before {rule : Rule α} {next : α → Rule β} (returns : Returns rule)
    (safe : ∀ a s rejection s', next a s ≠ .error rejection s') : Returns (rule >>= next) := by
  intro s rejection s' failed
  change EStateM.bind rule next s = _ at failed
  unfold EStateM.bind at failed
  split at failed
  · rename_i a s₁ _
    exact absurd failed (safe a s₁ rejection s')
  · rename_i inner
    cases failed
    exact returns s _ _ inner

theorem or {first second : Rule α} (left : Returns first) (right : Returns second) :
    Returns (first.or second) := by
  intro s rejection s' failed
  simp only [Rule.or] at failed
  split at failed
  · cases failed
  · rename_i inner
    cases failed
    exact left s _ _ inner
  · rename_i s₁ inner
    split at failed
    · cases failed
    · rename_i inner'
      cases failed
      exact (right s₁ _ _ inner').trans (left s _ _ inner)

end Returns

/-- From a registry the rule ends with one that `post` allows, or fails as `fails` allows. -/
def Leaves (r : Registry) (rule : EStateM ε ParseState α) (post : α → Registry → Prop)
    (fails : ε → ParseState → Prop) : Prop :=
  Meets (fun s => s.registry = r) rule (fun a s => post a s.registry) fails

/-- A rule that declares nothing. -/
abbrev Keeps (r : Registry) (rule : EStateM ε ParseState α) (result : α → Prop)
    (fails : ε → ParseState → Prop) : Prop :=
  Leaves r rule (fun a r' => r' = r ∧ result a) fails

/-- A rule that leaves room for others has not declared anything. -/
def Rejection.Keeps (r : Registry) (rejection : Rejection) (s : ParseState) : Prop :=
  rejection.signal = .unmatched → s.registry = r

namespace Leaves

variable {post : α → Registry → Prop} {last : β → Registry → Prop} {result : α → Prop}
variable {fails : ε → ParseState → Prop}

theorem pure {a : α} (holds : post a r) :
    Leaves r (Pure.pure a : EStateM ε ParseState α) post fails := by
  apply Meets.pure
  rintro s rfl
  exact holds

theorem bind {rule : EStateM ε ParseState α} {next : α → EStateM ε ParseState β}
    (first : Leaves r rule post fails)
    (second : ∀ a r', post a r' → Leaves r' (next a) last fails) :
    Leaves r (rule >>= next) last fails :=
  Meets.bind first fun a s holds => second a s.registry holds s rfl

theorem keep {rule : EStateM ε ParseState α} {next : α → EStateM ε ParseState β}
    (first : Keeps r rule result fails)
    (second : ∀ a, result a → Leaves r (next a) last fails) :
    Leaves r (rule >>= next) last fails :=
  bind first fun a _ ⟨same, holds⟩ => same ▸ second a holds

theorem map {rule : EStateM ε ParseState α} {f : α → β} (leaves : Leaves r rule post fails)
    (image : ∀ a r', post a r' → last (f a) r') : Leaves r (f <$> rule) last fails := by
  rw [← bind_pure_comp]
  exact bind leaves fun a r' holds => pure (image a r' holds)

theorem ite {p : Prop} [Decidable p] {yes no : EStateM ε ParseState α}
    (whenTrue : p → Leaves r yes post fails) (whenFalse : ¬ p → Leaves r no post fails) :
    Leaves r (if p then yes else no) post fails := by
  by_cases holds : p
  · rw [if_pos holds]
    exact whenTrue holds
  · rw [if_neg holds]
    exact whenFalse holds

/-! The smallest rules. -/

theorem cursor : Keeps r (Grammar.cursor : EStateM ε ParseState Cursor) (fun _ => True) fails :=
  fun _ start => ⟨start, trivial⟩

theorem registry : Keeps r (Grammar.registry : EStateM ε ParseState Registry) (· = r) fails :=
  fun _ start => ⟨start, start⟩

theorem moveTo (c : Cursor) :
    Keeps r (Grammar.moveTo c : EStateM ε ParseState Unit) (fun _ => True) fails :=
  fun _ start => ⟨start, trivial⟩

theorem skipSpace : Keeps r (Grammar.skipSpace : EStateM ε ParseState Unit) (fun _ => True) fails :=
  keep cursor fun c _ => moveTo c.skipSpace

theorem remaining : Keeps r (Grammar.remaining : EStateM ε ParseState Nat) (fun _ => True) fails :=
  keep cursor fun _ _ => pure ⟨rfl, trivial⟩

theorem accept (read : Cursor → Option Cursor) :
    Keeps r (Grammar.accept read : EStateM ε ParseState Bool) (fun _ => True) fails := by
  intro s start
  simp only [Grammar.accept]
  cases read s.cursor with
  | none => exact ⟨start, trivial⟩
  | some c => exact ⟨start, trivial⟩

theorem acceptSymbol (char : Char) :
    Keeps r (Grammar.acceptSymbol char : EStateM ε ParseState Bool) (fun _ => True) fails :=
  accept _

theorem acceptKeyword (word : List Char) :
    Keeps r (Grammar.acceptKeyword word : EStateM ε ParseState Bool) (fun _ => True) fails :=
  accept _

theorem acceptOne (read : Cursor → Option (α × Cursor)) :
    Keeps r (Grammar.acceptOne read : EStateM ε ParseState (Option α)) (fun _ => True) fails := by
  intro s start
  simp only [Grammar.acceptOne]
  cases read s.cursor with
  | none => exact ⟨start, trivial⟩
  | some found => exact ⟨start, trivial⟩

theorem declare? (symbol : Symbol) :
    Leaves r (Grammar.declare? symbol : EStateM ε ParseState (Option Nat))
      (fun found r' => ∀ index, found = some index →
        Adds r r' index symbol ∧ (symbol.scope, symbol.name) ∉ r.declarations) fails := by
  rintro s rfl
  simp only [Grammar.declare?, Registry.add]
  cases there : s.registry.find? symbol.name symbol.scope .exact with
  | some existing =>
      intro index found
      cases found
  | none =>
      intro index found
      cases found
      exact ⟨⟨rfl, rfl⟩, Registry.find?_exact_eq_none_iff.mp there⟩

/-! Failures. -/

theorem fail {base : Registry} {cause : Cause} {children : List Diagnostic} :
    Leaves r (Body.fail cause children : Body α) post (Failure.Keeps base) := by
  refine Meets.throw fun s start broken => ?_
  cases broken

theorem pass {cause : Cause} {children : List Diagnostic} :
    Leaves r (Body.pass cause children : Body α) post (Failure.Keeps r) :=
  Meets.throw fun _ start _ => start

theorem tooDeep : Leaves r (Grammar.tooDeep : Rule α) post (Rejection.Keeps r) :=
  fun _ start _ => start

theorem orPass {rule : Rule α} {cause : Cause}
    (leaves : Leaves r rule post (Rejection.Keeps r)) :
    Leaves r (rule.orPass cause) post (Failure.Keeps r) := by
  intro s start
  have done := leaves s start
  simp only [Rule.orPass]
  cases run : rule s <;> rw [run] at done <;> exact done

theorem orFail {base : Registry} {rule : Rule α} {cause : Cause}
    {inner : Rejection → ParseState → Prop} (leaves : Leaves r rule post inner) :
    Leaves r (rule.orFail cause) post (Failure.Keeps base) := by
  intro s start
  have done := leaves s start
  simp only [Rule.orFail]
  cases run : rule s with
  | ok a s' =>
      rw [run] at done
      exact done
  | error rejection s' =>
      intro broken
      cases broken

theorem close {body : Body α} (leaves : Leaves r body post (Failure.Keeps r)) :
    Leaves r body.close post (Rejection.Keeps r) := by
  intro s start
  have done := leaves s start
  simp only [Body.close]
  cases run : body s <;> rw [run] at done <;> exact done

theorem or {first second : Rule α} (left : Leaves r first post (Rejection.Keeps r))
    (right : Leaves r second post (Rejection.Keeps r)) :
    Leaves r (first.or second) post (Rejection.Keeps r) := by
  intro s start
  have done := left s start
  simp only [Rule.or]
  cases run : first s with
  | ok a s' =>
      rw [run] at done
      exact done
  | error rejection s' =>
      rw [run] at done
      obtain ⟨signal, nodes⟩ := rejection
      cases signal with
      | broken =>
          intro unmatched
          cases unmatched
      | unmatched =>
          have next := right s' (done rfl)
          simp only
          cases run' : second s' <;> rw [run'] at next <;> exact next

/-- A rule whose failure is looked at. -/
theorem attempt {rule : Rule α} {next : Except Rejection α → EStateM ε ParseState β}
    (leaves : Leaves r rule post (Rejection.Keeps r))
    (matched : ∀ a r', post a r' → Leaves r' (next (.ok a)) last fails)
    (unmatched : ∀ nodes, Leaves r (next (.error { signal := .unmatched, nodes })) last fails)
    (broken : ∀ nodes, Meets (fun _ => True) (next (.error { signal := .broken, nodes }))
      (fun _ _ => False) fails) :
    Leaves r (rule.attempt >>= next) last fails := by
  refine Meets.through (fun outcome s =>
    (∃ a, outcome = .ok a ∧ post a s.registry) ∨
      ∃ rejection, outcome = .error rejection ∧ Rejection.Keeps r rejection s) ?_ fun outcome => ?_
  · intro s start
    have done := leaves s start
    simp only [Rule.attempt]
    cases run : rule s with
    | ok a s' =>
        rw [run] at done
        exact .inl ⟨a, rfl, done⟩
    | error rejection s' =>
        rw [run] at done
        exact .inr ⟨rejection, rfl, done⟩
  · rintro s (⟨a, rfl, holds⟩ | ⟨⟨signal, nodes⟩, rfl, kept⟩)
    · exact matched a s.registry holds s rfl
    · cases signal with
      | unmatched => exact unmatched nodes s (kept rfl)
      | broken =>
          have done := broken nodes s trivial
          cases run : next (.error { signal := .broken, nodes }) s with
          | ok b s' =>
              rw [run] at done
              exact done.elim
          | error e s' =>
              rw [run] at done
              exact done

end Leaves

/-! Names, literals and types. -/

theorem not_isNameChar_dot : isNameChar '.' = false := by
  decide

theorem isSegment_of_isName {word : List Char} (named : isName word = true) :
    IsSegment (String.ofList word) where
  named := ne_toString_of_isName named
  undotted := by
    rw [String.toList_ofList]
    intro dotted
    rw [isName, Bool.and_eq_true, List.all_eq_true] at named
    have char := named.2 '.' dotted
    rw [not_isNameChar_dot] at char
    cases char

theorem identifier_keeps (scope : Scope) (lookup : Lookup) :
    Keeps r (identifier scope lookup) (fun found => IsSegment found.1) (Rejection.Keeps r) := by
  refine .close (.keep .cursor fun _ _ => .keep .skipSpace fun _ _ => .keep .cursor fun c _ => ?_)
  refine .ite (fun begins => ?_) fun _ => .pass
  refine .keep (.moveTo _) fun _ _ => .keep .cursor fun _ _ => .ite (fun _ => ?_) fun _ => .pass
  refine .ite (fun _ => .pass) fun _ => .keep .registry fun _ _ => .pure ⟨rfl, ?_⟩
  exact isSegment_of_isName (isName_takeWhile begins)

theorem stringLiteral_keeps : Keeps r stringLiteral (fun _ => True) (Rejection.Keeps r) := by
  refine .close (.keep .skipSpace fun _ _ => .keep .cursor fun c _ => ?_)
  refine .ite (fun _ => ?_) fun _ => .pass
  split
  · exact .fail
  · refine .keep (.moveTo _) fun _ _ => .keep .cursor fun _ _ => ?_
    exact .ite (fun _ => .pure ⟨rfl, trivial⟩) fun _ => .fail

theorem floatLiteral_keeps : Keeps r floatLiteral (fun _ => True) (Rejection.Keeps r) := by
  refine .close (.keep .skipSpace fun _ _ => .keep .cursor fun c _ => ?_)
  refine .ite (fun _ => .pass) fun _ => .keep (.moveTo _) fun _ _ => ?_
  refine .ite (fun _ => .fail) fun _ => ?_
  split
  · exact .pure ⟨rfl, trivial⟩
  · exact .fail

theorem integerLiteral_keeps : Keeps r integerLiteral (fun _ => True) (Rejection.Keeps r) := by
  refine .close (.keep .skipSpace fun _ _ => .keep .cursor fun c _ => ?_)
  refine .keep (.moveTo _) fun _ _ => .keep .cursor fun _ _ => .ite (fun _ => .pass) fun _ => ?_
  split
  · exact .pure ⟨rfl, trivial⟩
  · exact .fail

theorem booleanLiteral_keeps : Keeps r booleanLiteral (fun _ => True) (Rejection.Keeps r) := by
  refine .keep .cursor fun start _ => .keep (.acceptOne _) fun found _ => ?_
  cases found with
  | some b => exact .pure ⟨rfl, trivial⟩
  | none => exact Meets.throw fun _ same _ => same

/-- A truth value is looked for without moving. -/
theorem booleanLiteral_returns : Returns booleanLiteral := by
  intro s rejection s' failed
  change EStateM.bind (acceptOne _) _ s = _ at failed
  unfold EStateM.bind at failed
  simp only [acceptOne] at failed
  cases read : s.cursor.firstOf? Cursor.keyword?
      [("true".toList, true), ("false".toList, false)] with
  | some found =>
      rw [read] at failed
      cases failed
  | none =>
      rw [read] at failed
      cases failed
      rfl

theorem literal_keeps : Keeps r literal (fun _ => True) (Rejection.Keeps r) := by
  refine .close (.orPass (.or ?_ (.or ?_ (.or ?_ ?_))))
  · exact .map stringLiteral_keeps fun _ _ kept => kept
  · exact .map floatLiteral_keeps fun _ _ kept => kept
  · exact .map integerLiteral_keeps fun _ _ kept => kept
  · exact .map booleanLiteral_keeps fun _ _ kept => kept

theorem indexTypesLoop_keeps (fuel : Nat) :
    Keeps r (indexTypesLoop fuel) (· ≠ []) (Failure.Keeps r) := by
  induction fuel with
  | zero => exact .fail
  | succ fuel induction =>
      refine .keep (.acceptOne _) fun found _ => ?_
      cases found with
      | none => exact .fail
      | some s =>
          refine .keep (.acceptSymbol ',') fun _ _ => .ite (fun _ => ?_) fun _ => ?_
          · exact .keep induction fun rest _ => .pure ⟨rfl, List.cons_ne_nil s rest⟩
          · exact .pure ⟨rfl, List.cons_ne_nil s []⟩

theorem indexTypes_keeps : Keeps r indexTypes (· ≠ []) (Rejection.Keeps r) :=
  .close (.keep .remaining fun _ _ => indexTypesLoop_keeps _)

theorem typeWithin_keeps (fuel : Nat) :
    Keeps r (typeWithin fuel) (fun ty => ty.isIndexed = true) (Rejection.Keeps r) := by
  induction fuel with
  | zero => exact .close .pass
  | succ fuel induction =>
      refine .close (.keep (.acceptOne _) fun found _ => ?_)
      cases found with
      | some s => exact .pure ⟨rfl, rfl⟩
      | none =>
          refine .keep (.acceptKeyword _) fun _ _ => .ite (fun _ => ?_) fun _ => .pass
          refine .keep (.acceptSymbol '[') fun _ _ => .ite (fun _ => ?_) fun _ => .fail
          refine .keep (.orFail indexTypes_keeps) fun index nonempty => ?_
          refine .keep (.acceptSymbol ']') fun _ _ => .ite (fun _ => ?_) fun _ => .fail
          refine .keep (.acceptKeyword _) fun _ _ => .ite (fun _ => ?_) fun _ => .fail
          refine .keep (.orFail induction) fun element indexed => .pure ⟨rfl, ?_⟩
          exact Ty.isIndexed_array.mpr ⟨nonempty, indexed⟩

theorem typeWithin_returns (fuel : Nat) : Returns (typeWithin fuel) := by
  cases fuel with
  | zero => exact .close _
  | succ fuel => exact .close _

theorem typeName_keeps :
    Keeps r typeName (fun ty => ty.isIndexed = true) (Rejection.Keeps r) :=
  .keep .remaining fun _ _ => typeWithin_keeps _

theorem typeName_returns : Returns typeName := by
  intro s rejection s' failed
  exact typeWithin_returns _ s rejection s' failed

end StackScript.Grammar
