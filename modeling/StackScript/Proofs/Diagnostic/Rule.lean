import StackScript.Grammar.Word
import StackScript.Proofs.Diagnostic.Tree
import StackScript.Proofs.Triple

namespace StackScript.Grammar

/-! Rules from any place of a source: they stay in it, and what they tell of a failure is at places
of the source that are not in front of where they started. -/

variable {ε α β : Type} {source : List Char} {low : Nat}

structure Rejection.Sound (source : List Char) (low : Nat) (rejection : Rejection) : Prop where
  told : rejection.nodes ≠ []
  nodes : Diagnostic.SoundAll (Text.Utf8.encode source) low rejection.nodes

structure Failure.Sound (source : List Char) (low : Nat) (failure : Failure) : Prop where
  cause : failure.cause.isFailure = true
  children : Diagnostic.SoundAll (Text.Utf8.encode source) low failure.children

theorem Rejection.Sound.lower {low' : Nat} {rejection : Rejection}
    (sound : rejection.Sound source low) (le : low' ≤ low) : rejection.Sound source low' :=
  ⟨sound.told, sound.nodes.lower le⟩

theorem Failure.Sound.lower {low' : Nat} {failure : Failure} (sound : failure.Sound source low)
    (le : low' ≤ low) : failure.Sound source low' :=
  ⟨sound.cause, sound.children.lower le⟩

/-- Whether the rule matches or not, it ends in the source, and its failures are as `fails` says. -/
def Tells (source : List Char) (low : Nat) (rule : EStateM ε ParseState α) (fails : ε → Prop) :
    Prop :=
  Meets (fun s => s.cursor.Stands source low) rule (fun _ s => s.cursor.Stands source low)
    fun e s => s.cursor.Stands source low ∧ fails e

/-- A rule that gives all of its nodes places of the source. -/
abbrev Locates (source : List Char) (rule : Rule α) : Prop :=
  ∀ low, Tells source low rule (Rejection.Sound source low)

namespace Tells

variable {fails : ε → Prop}

theorem pure {a : α} : Tells source low (Pure.pure a : EStateM ε ParseState α) fails :=
  Meets.pure fun _ start => start

theorem bind {rule : EStateM ε ParseState α} {next : α → EStateM ε ParseState β}
    (first : Tells source low rule fails) (second : ∀ a, Tells source low (next a) fails) :
    Tells source low (rule >>= next) fails :=
  Meets.bind first second

theorem map {rule : EStateM ε ParseState α} {f : α → β} (tells : Tells source low rule fails) :
    Tells source low (f <$> rule) fails := by
  rw [← bind_pure_comp]
  exact bind tells fun _ => pure

theorem ite {p : Prop} [Decidable p] {yes no : EStateM ε ParseState α}
    (whenTrue : Tells source low yes fails) (whenFalse : Tells source low no fails) :
    Tells source low (if p then yes else no) fails := by
  split
  · exact whenTrue
  · exact whenFalse

theorem throw {e : ε} (holds : fails e) :
    Tells source low (MonadExcept.throw e : EStateM ε ParseState α) fails :=
  Meets.throw fun _ start => ⟨start, holds⟩

/-! The smallest rules. -/

theorem after_cursor {next : Cursor → EStateM ε ParseState α}
    (tells : ∀ c, c.Stands source low → Tells source low (next c) fails) :
    Tells source low (cursor >>= next) fails :=
  fun s start => tells s.cursor start s start

theorem registry : Tells source low (Grammar.registry : EStateM ε ParseState Registry) fails :=
  fun _ start => start

theorem moveTo {c : Cursor} (stands : c.Stands source low) :
    Tells source low (Grammar.moveTo c : EStateM ε ParseState Unit) fails :=
  fun _ _ => stands

theorem skipSpace : Tells source low (Grammar.skipSpace : EStateM ε ParseState Unit) fails :=
  after_cursor fun c stands => moveTo (stands.follow c.follows_skipSpace)

theorem remaining : Tells source low (Grammar.remaining : EStateM ε ParseState Nat) fails :=
  after_cursor fun _ _ => pure

theorem accept {read : Cursor → Option Cursor}
    (follows : ∀ c c', read c = some c' → c.Follows c') :
    Tells source low (Grammar.accept read : EStateM ε ParseState Bool) fails := by
  intro s start
  simp only [Grammar.accept]
  cases found : read s.cursor with
  | none => exact start
  | some c => exact start.follow (follows _ _ found)

theorem acceptOne {read : Cursor → Option (α × Cursor)}
    (follows : ∀ c a c', read c = some (a, c') → c.Follows c') :
    Tells source low (Grammar.acceptOne read : EStateM ε ParseState (Option α)) fails := by
  intro s start
  simp only [Grammar.acceptOne]
  cases found : read s.cursor with
  | none => exact start
  | some pair => exact start.follow (follows _ _ _ found)

theorem acceptSymbol (char : Char) :
    Tells source low (Grammar.acceptSymbol char : EStateM ε ParseState Bool) fails :=
  accept fun _ _ => Cursor.follows_symbol?

theorem acceptKeyword (word : List Char) :
    Tells source low (Grammar.acceptKeyword word : EStateM ε ParseState Bool) fails :=
  accept fun _ _ => Cursor.follows_keyword?

theorem acceptKeywords (choices : List (List Char × α)) :
    Tells source low (Grammar.acceptOne fun c => c.firstOf? Cursor.keyword? choices :
      EStateM ε ParseState (Option α)) fails :=
  acceptOne fun _ _ _ => Cursor.follows_firstOf? fun _ _ _ => Cursor.follows_keyword?

theorem acceptOperators (choices : List (List Char × α)) :
    Tells source low (Grammar.acceptOne fun c => c.firstOf? Cursor.operator? choices :
      EStateM ε ParseState (Option α)) fails :=
  acceptOne fun _ _ _ => Cursor.follows_firstOf? fun _ _ _ => Cursor.follows_operator?

theorem declare? (symbol : Symbol) :
    Tells source low (Grammar.declare? symbol : EStateM ε ParseState (Option Nat)) fails := by
  intro s start
  simp only [Grammar.declare?]
  cases s.registry.add symbol with
  | ok added => exact start
  | error existing => exact start

/-! Failures. -/

theorem fail {cause : Cause} {children : List Diagnostic} (failure : cause.isFailure = true)
    (sound : Diagnostic.SoundAll (Text.Utf8.encode source) low children) :
    Tells source low (Body.fail cause children : Body α) (Failure.Sound source low) :=
  throw ⟨failure, sound⟩

theorem pass {cause : Cause} {children : List Diagnostic} (failure : cause.isFailure = true)
    (sound : Diagnostic.SoundAll (Text.Utf8.encode source) low children) :
    Tells source low (Body.pass cause children : Body α) (Failure.Sound source low) :=
  throw ⟨failure, sound⟩

theorem orPass {rule : Rule α} {cause : Cause} (failure : cause.isFailure = true)
    (locates : Locates source rule) :
    Tells source low (rule.orPass cause) (Failure.Sound source low) := by
  intro s start
  have done := locates low s start
  simp only [Rule.orPass]
  cases run : rule s with
  | ok a s' =>
      rw [run] at done
      exact done
  | error rejection s' =>
      rw [run] at done
      exact ⟨done.1, failure, done.2.nodes⟩

theorem orFail {rule : Rule α} {cause : Cause} (failure : cause.isFailure = true)
    (locates : Locates source rule) :
    Tells source low (rule.orFail cause) (Failure.Sound source low) := by
  intro s start
  have done := locates low s start
  simp only [Rule.orFail]
  cases run : rule s with
  | ok a s' =>
      rw [run] at done
      exact done
  | error rejection s' =>
      rw [run] at done
      exact ⟨done.1, failure, done.2.nodes⟩

/-- What fails inside of a rule is at places that are not in front of where the rule started. -/
theorem close {body : Body α} (tells : ∀ low, Tells source low body (Failure.Sound source low)) :
    Locates source body.close := by
  intro low s start
  have done := tells s.cursor.position.offset s start.here
  simp only [Body.close]
  cases run : body s with
  | ok a s' =>
      rw [run] at done
      exact Cursor.Stands.lower done start.low_le
  | error failure s' =>
      rw [run] at done
      exact ⟨start, List.cons_ne_nil _ _,
        Diagnostic.soundAll_failure start done.2.cause done.2.children⟩

theorem or {first second : Rule α} (left : Locates source first)
    (right : Locates source second) : Locates source (first.or second) := by
  intro low s start
  have done := left low s start
  simp only [Rule.or]
  cases run : first s with
  | ok a s' =>
      rw [run] at done
      exact done
  | error rejection s' =>
      rw [run] at done
      obtain ⟨there, told, nodes⟩ := done
      obtain ⟨signal, tried⟩ := rejection
      cases signal with
      | broken => exact ⟨there, told, nodes⟩
      | unmatched =>
          have next := right low s' there
          simp only
          cases run' : second s' with
          | ok a s'' =>
              rw [run'] at next
              exact next
          | error rejection' s'' =>
              rw [run'] at next
              exact ⟨next.1, List.append_ne_nil_of_left_ne_nil told _, nodes.append next.2.nodes⟩

theorem tooDeep : Locates source (Grammar.tooDeep : Rule α) :=
  fun _ _ start => ⟨start, List.cons_ne_nil _ _,
    Diagnostic.soundAll_leaf start rfl⟩

/-- A rule whose failure is looked at. -/
theorem attempt {rule : Rule α} {next : Except Rejection α → EStateM ε ParseState β}
    (tells : Tells source low rule (Rejection.Sound source low))
    (matched : ∀ a, Tells source low (next (.ok a)) fails)
    (refused : ∀ rejection : Rejection, rejection.Sound source low →
      Tells source low (next (.error rejection)) fails) :
    Tells source low (rule.attempt >>= next) fails := by
  refine Meets.through (fun outcome s => s.cursor.Stands source low ∧
    ∀ rejection, outcome = .error rejection → rejection.Sound source low) ?_ fun outcome => ?_
  · intro s start
    have done := tells s start
    simp only [Rule.attempt]
    cases run : rule s with
    | ok a s' =>
        rw [run] at done
        exact ⟨done, nofun⟩
    | error rejection s' =>
        rw [run] at done
        refine ⟨done.1, ?_⟩
        rintro _ ⟨⟩
        exact done.2
  · rintro s ⟨there, sound⟩
    cases outcome with
    | ok a => exact matched a s there
    | error rejection => exact refused rejection (sound rejection rfl) s there

/-! From the place of a cursor on, nodes are asked to be behind it. -/

theorem raise {c : Cursor} {rule : EStateM ε ParseState α} {inner : ε → Prop}
    (stands : c.Stands source low) (tells : Tells source c.position.offset rule inner)
    (outer : ∀ e, inner e → fails e) :
    Meets (fun s => s.cursor = c) rule (fun _ s => s.cursor.Stands source low)
      fun e s => s.cursor.Stands source low ∧ fails e := by
  refine tells.mono ?_ ?_ ?_
  · rintro s rfl
    exact stands.here
  · exact fun _ _ there => there.lower stands.low_le
  · exact fun e _ failed => ⟨failed.1.lower stands.low_le, outer e failed.2⟩

theorem from_cursor {next : Cursor → EStateM ε ParseState α} {inner : Cursor → ε → Prop}
    (tells : ∀ c, c.Stands source low → Tells source c.position.offset (next c) (inner c))
    (outer : ∀ c e, c.Stands source low → inner c e → fails e) :
    Tells source low (cursor >>= next) fails :=
  fun s start => raise start (tells s.cursor start) (fun e => outer s.cursor e start) s rfl

theorem from_move {c : Cursor} {next : Unit → EStateM ε ParseState α} {inner : ε → Prop}
    (stands : c.Stands source low) (tells : Tells source c.position.offset (next ()) inner)
    (outer : ∀ e, inner e → fails e) : Tells source low (Grammar.moveTo c >>= next) fails :=
  Meets.through (fun _ s => s.cursor = c) (fun _ _ => rfl) fun _ => raise stands tells outer

end Tells

/-! Names, literals and types. -/

theorem identifier_locates (scope : Scope) (lookup : Lookup) :
    Locates source (identifier scope lookup) := by
  refine .close fun low => .after_cursor fun start stands => .bind .skipSpace fun _ => ?_
  refine .after_cursor fun c ahead => .ite ?_ (.pass rfl trivial)
  refine .bind (.moveTo (ahead.follow (c.follows_skipWhile isNameChar))) fun _ => ?_
  refine .after_cursor fun _ _ => .ite (.ite ?_ ?_) (.pass rfl trivial)
  · exact .pass rfl (Diagnostic.soundAll_leaf stands rfl)
  · exact .bind .registry fun _ => .pure

theorem stringLiteral_locates : Locates source stringLiteral := by
  refine .close fun low => .bind .skipSpace fun _ => .after_cursor fun c ahead => ?_
  refine .ite ?_ (.pass rfl trivial)
  split
  · exact .fail rfl trivial
  · refine .bind (.moveTo (ahead.advanceBy _)) fun _ => .after_cursor fun _ _ => ?_
    exact .ite .pure (.fail rfl trivial)

theorem floatLiteral_locates : Locates source floatLiteral := by
  refine .close fun low => .bind .skipSpace fun _ => .after_cursor fun c ahead => ?_
  refine .ite (.pass rfl trivial) (.bind (.moveTo ?_) fun _ => ?_)
  · exact ((ahead.follow (c.follows_skipWhile _)).advance).follow (Cursor.follows_skipWhile _ _)
  · refine .ite (.fail rfl trivial) ?_
    split
    · exact .pure
    · exact .fail rfl trivial

theorem integerLiteral_locates : Locates source integerLiteral := by
  refine .close fun low => .bind .skipSpace fun _ => .after_cursor fun c ahead => ?_
  refine .bind (.moveTo (ahead.follow (c.follows_skipWhile _))) fun _ => ?_
  refine .after_cursor fun _ _ => .ite (.pass rfl trivial) ?_
  split
  · exact .pure
  · exact .fail rfl trivial

theorem booleanLiteral_locates : Locates source booleanLiteral := by
  refine fun low => .after_cursor fun start stands => .bind (.acceptKeywords _) fun found => ?_
  cases found with
  | some b => exact .pure
  | none => exact .throw ⟨List.cons_ne_nil _ _, Diagnostic.soundAll_leaf stands rfl⟩

theorem literal_locates : Locates source literal := by
  refine .close fun low => .orPass rfl (.or ?_ (.or ?_ (.or ?_ ?_)))
  · exact fun low => .map (stringLiteral_locates low)
  · exact fun low => .map (floatLiteral_locates low)
  · exact fun low => .map (integerLiteral_locates low)
  · exact fun low => .map (booleanLiteral_locates low)

theorem indexTypesLoop_tells (fuel : Nat) :
    Tells source low (indexTypesLoop fuel) (Failure.Sound source low) := by
  induction fuel with
  | zero => exact .fail rfl trivial
  | succ fuel induction =>
      refine .bind (.acceptKeywords _) fun found => ?_
      cases found with
      | none => exact .fail rfl trivial
      | some s =>
          exact .bind (.acceptSymbol ',') fun _ => .ite (.bind induction fun _ => .pure) .pure

theorem indexTypes_locates : Locates source indexTypes :=
  .close fun _ => .bind .remaining fun _ => indexTypesLoop_tells _

theorem typeWithin_locates (fuel : Nat) : Locates source (typeWithin fuel) := by
  induction fuel with
  | zero => exact .close fun low => .pass rfl trivial
  | succ fuel induction =>
      refine .close fun low => .bind (.acceptKeywords _) fun found => ?_
      cases found with
      | some s => exact .pure
      | none =>
          refine .bind (.acceptKeyword _) fun _ => .ite ?_ (.pass rfl trivial)
          refine .bind (.acceptSymbol '[') fun _ => .ite ?_ (.fail rfl trivial)
          refine .bind (.orFail rfl indexTypes_locates) fun _ => ?_
          refine .bind (.acceptSymbol ']') fun _ => .ite ?_ (.fail rfl trivial)
          refine .bind (.acceptKeyword _) fun _ => .ite ?_ (.fail rfl trivial)
          exact .bind (.orFail rfl induction) fun _ => .pure

theorem typeName_locates : Locates source typeName :=
  fun low => .bind .remaining fun _ => typeWithin_locates _ low

end StackScript.Grammar
