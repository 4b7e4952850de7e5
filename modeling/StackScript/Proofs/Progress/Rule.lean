import StackScript.Proofs.Seating.Rule
import StackScript.Proofs.Source.Progress

namespace StackScript.Grammar

/-! How far rules get. A rule that matches is behind where it started, and one that fails is back
there. All of it is said of a rule beside another version of it, which does the same: the two may
differ in rules that they use, as long as those agree where they are used. -/

variable {ε α β : Type} {c c' : Cursor} {moved moved' : Bool}

/-- From where a cursor reaches, two versions of a computation do the same. Where they get to then
is reached as `moves` says. -/
def Steps (c : Cursor) (moved : Bool) (x y : EStateM ε ParseState α) (moves : α → Bool) : Prop :=
  ∀ s, c.Reaches moved s.cursor →
    x s = y s ∧ ∀ a s', x s = .ok a s' → c.Reaches (moves a) s'.cursor

/-- From where a cursor reaches, two versions of a rule do the same. A match is behind the start and
a failure at the start. -/
def Advances (c : Cursor) (moved : Bool) (rule other : Rule α) : Prop :=
  ∀ s, c.Reaches moved s.cursor →
    rule s = other s ∧
      match rule s with
      | .ok _ s' => s.cursor.Reaches true s'.cursor
      | .error _ s' => s'.cursor = s.cursor

namespace Steps

variable {moves : α → Bool} {moves' : β → Bool} {x y : EStateM ε ParseState α}

theorem pure {a : α} {m : α → Bool} (reached : m a = moved) :
    Steps c moved (Pure.pure a : EStateM ε ParseState α) (Pure.pure a) m := by
  refine fun s start => ⟨rfl, ?_⟩
  rintro _ _ ⟨⟩
  rwa [reached]

theorem throw {e : ε} :
    Steps c moved (MonadExcept.throw e : EStateM ε ParseState α) (MonadExcept.throw e) moves :=
  fun _ _ => ⟨rfl, nofun⟩

theorem bind {f g : α → EStateM ε ParseState β} (first : Steps c moved x y moves)
    (second : ∀ a, Steps c (moves a) (f a) (g a) moves') :
    Steps c moved (x >>= f) (y >>= g) moves' := by
  intro s start
  obtain ⟨same, reaches⟩ := first s start
  change EStateM.bind x f s = EStateM.bind y g s ∧ ∀ b s', EStateM.bind x f s = .ok b s' → _
  unfold EStateM.bind
  rw [← same]
  cases run : x s with
  | ok a s' => exact second a s' (reaches a s' run)
  | error e s' => exact ⟨rfl, nofun⟩

theorem through {f g : α → EStateM ε ParseState β} (m : α → Bool) (first : Steps c moved x y m)
    (second : ∀ a, Steps c (m a) (f a) (g a) moves') :
    Steps c moved (x >>= f) (y >>= g) moves' :=
  bind first second

theorem map {f : α → β} {m : Bool} (steps : Steps c moved x y fun _ => m) :
    Steps c moved (f <$> x) (f <$> y) fun _ => m := by
  rw [← bind_pure_comp, ← bind_pure_comp]
  exact bind steps fun _ => pure rfl

/-- What holds from a cursor on holds behind it. -/
theorem past (steps : Steps c moved x y moves) : Steps c true x y moves :=
  fun s start => steps s (start.weaken moved)

theorem ite {p : Prop} [Decidable p] {x' y' : EStateM ε ParseState α}
    (whenTrue : p → Steps c moved x y moves) (whenFalse : ¬ p → Steps c moved x' y' moves) :
    Steps c moved (if p then x else x') (if p then y else y') moves := by
  by_cases holds : p
  · rw [if_pos holds, if_pos holds]
    exact whenTrue holds
  · rw [if_neg holds, if_neg holds]
    exact whenFalse holds

/-! The smallest rules. -/

theorem after_cursor {f g : Cursor → EStateM ε ParseState α}
    (steps : ∀ c', c.Reaches moved c' → Steps c moved (f c') (g c') moves) :
    Steps c moved (cursor >>= f) (cursor >>= g) moves :=
  fun s start => steps s.cursor start s start

theorem registry : Steps c moved (Grammar.registry : EStateM ε ParseState Registry)
    Grammar.registry fun _ => moved := by
  refine fun s start => ⟨rfl, ?_⟩
  rintro _ _ ⟨⟩
  exact start

theorem moveTo (reaches : c.Reaches moved' c') :
    Steps c moved (Grammar.moveTo c' : EStateM ε ParseState Unit) (Grammar.moveTo c')
      fun _ => moved' := by
  refine fun s start => ⟨rfl, ?_⟩
  rintro _ _ ⟨⟩
  exact reaches

theorem skipSpace : Steps c moved (Grammar.skipSpace : EStateM ε ParseState Unit)
    Grammar.skipSpace fun _ => moved := by
  refine after_cursor fun c' reaches => moveTo ?_
  have further := reaches.trans c'.reaches_skipSpace
  rwa [Bool.or_false] at further

theorem remaining : Steps c moved (Grammar.remaining : EStateM ε ParseState Nat)
    Grammar.remaining fun _ => moved :=
  after_cursor fun _ _ => pure rfl

theorem declare? (symbol : Symbol) :
    Steps c moved (Grammar.declare? symbol : EStateM ε ParseState (Option Nat))
      (Grammar.declare? symbol) fun _ => moved := by
  refine fun s start => ⟨rfl, fun a s' => ?_⟩
  simp only [Grammar.declare?]
  cases s.registry.add symbol with
  | ok added =>
      rintro ⟨⟩
      exact start
  | error existing =>
      rintro ⟨⟩
      exact start

/-- Taking what comes next moves, if it is there. -/
theorem accept {read : Cursor → Option Cursor}
    (reaches : ∀ c c', read c = some c' → c.Reaches true c')
    (whenTrue : Steps c true x y moves) {x' y' : EStateM ε ParseState α}
    (whenFalse : Steps c moved x' y' moves) :
    Steps c moved (Grammar.accept read >>= fun there => if there = true then x else x')
      (Grammar.accept read >>= fun there => if there = true then y else y') moves := by
  refine through (fun there => if there = true then true else moved) ?_ fun there => ?_
  · refine fun s start => ⟨rfl, fun there s' => ?_⟩
    simp only [Grammar.accept]
    cases found : read s.cursor with
    | none =>
        rintro ⟨⟩
        exact start
    | some behind =>
        rintro ⟨⟩
        exact start.further (reaches _ _ found)
  · cases there with
    | true => exact whenTrue
    | false => exact whenFalse

theorem acceptOne {read : Cursor → Option (β × Cursor)} {f g : Option β → EStateM ε ParseState α}
    (reaches : ∀ c b c', read c = some (b, c') → c.Reaches true c')
    (whenSome : ∀ b, Steps c true (f (some b)) (g (some b)) moves)
    (whenNone : Steps c moved (f none) (g none) moves) :
    Steps c moved (Grammar.acceptOne read >>= f) (Grammar.acceptOne read >>= g) moves := by
  refine through (fun found => if found.isSome = true then true else moved) ?_ fun found => ?_
  · refine fun s start => ⟨rfl, fun found s' => ?_⟩
    simp only [Grammar.acceptOne]
    cases there : read s.cursor with
    | none =>
        rintro ⟨⟩
        exact start
    | some pair =>
        rintro ⟨⟩
        exact start.further (reaches _ _ _ there)
  · cases found with
    | none => exact whenNone
    | some b => exact whenSome b

theorem acceptSymbol {char : Char} {x' y' : EStateM ε ParseState α}
    (whenTrue : Steps c true x y moves) (whenFalse : Steps c moved x' y' moves) :
    Steps c moved (Grammar.acceptSymbol char >>= fun there => if there = true then x else x')
      (Grammar.acceptSymbol char >>= fun there => if there = true then y else y') moves :=
  accept (fun _ _ => Cursor.reaches_symbol?) whenTrue whenFalse

theorem acceptKeyword {word : List Char} {x' y' : EStateM ε ParseState α} (letters : word ≠ [])
    (whenTrue : Steps c true x y moves) (whenFalse : Steps c moved x' y' moves) :
    Steps c moved (Grammar.acceptKeyword word >>= fun there => if there = true then x else x')
      (Grammar.acceptKeyword word >>= fun there => if there = true then y else y') moves :=
  accept (fun _ _ => Cursor.reaches_keyword? letters) whenTrue whenFalse

theorem acceptKeywords {f g : Option β → EStateM ε ParseState α} (choices : List (List Char × β))
    (letters : ∀ text ∈ choices.map Prod.fst, text ≠ [])
    (whenSome : ∀ b, Steps c true (f (some b)) (g (some b)) moves)
    (whenNone : Steps c moved (f none) (g none) moves) :
    Steps c moved (Grammar.acceptOne (fun c => c.firstOf? Cursor.keyword? choices) >>= f)
      (Grammar.acceptOne (fun c => c.firstOf? Cursor.keyword? choices) >>= g) moves :=
  acceptOne (fun _ _ _ => Cursor.reaches_firstOf? fun text member _ =>
    Cursor.reaches_keyword? (letters text member)) whenSome whenNone

theorem acceptOperators {f g : Option β → EStateM ε ParseState α} (choices : List (List Char × β))
    (letters : ∀ text ∈ choices.map Prod.fst, text ≠ [])
    (whenSome : ∀ b, Steps c true (f (some b)) (g (some b)) moves)
    (whenNone : Steps c moved (f none) (g none) moves) :
    Steps c moved (Grammar.acceptOne (fun c => c.firstOf? Cursor.operator? choices) >>= f)
      (Grammar.acceptOne (fun c => c.firstOf? Cursor.operator? choices) >>= g) moves :=
  acceptOne (fun _ _ _ => Cursor.reaches_firstOf? fun text member _ =>
    Cursor.reaches_operator? (letters text member)) whenSome whenNone

/-! Rules inside of others. -/

theorem fail {cause : Cause} {children : List Diagnostic} {m : α → Bool} :
    Steps c moved (Body.fail cause children : Body α) (Body.fail cause children) m :=
  throw

theorem pass {cause : Cause} {children : List Diagnostic} {m : α → Bool} :
    Steps c moved (Body.pass cause children : Body α) (Body.pass cause children) m :=
  throw

theorem orFail {rule other : Rule α} {cause : Cause} (steps : Steps c moved rule other moves) :
    Steps c moved (rule.orFail cause) (other.orFail cause) moves := by
  intro s start
  obtain ⟨same, reaches⟩ := steps s start
  simp only [Rule.orFail, ← same]
  cases run : rule s with
  | ok a s' =>
      refine ⟨trivial, ?_⟩
      rintro _ _ ⟨⟩
      exact reaches a s' run
  | error r s' =>
      refine ⟨trivial, ?_⟩
      rintro _ _ ⟨⟩

theorem orPass {rule other : Rule α} {cause : Cause} (steps : Steps c moved rule other moves) :
    Steps c moved (rule.orPass cause) (other.orPass cause) moves := by
  intro s start
  obtain ⟨same, reaches⟩ := steps s start
  simp only [Rule.orPass, ← same]
  cases run : rule s with
  | ok a s' =>
      refine ⟨trivial, ?_⟩
      rintro _ _ ⟨⟩
      exact reaches a s' run
  | error r s' =>
      refine ⟨trivial, ?_⟩
      rintro _ _ ⟨⟩

end Steps

namespace Advances

variable {rule other : Rule α}

theorem same {s : ParseState} (advances : Advances c moved rule other)
    (start : c.Reaches moved s.cursor) : rule s = other s :=
  (advances s start).1

theorem matched {s s' : ParseState} {a : α} (advances : Advances c moved rule other)
    (start : c.Reaches moved s.cursor) (run : rule s = .ok a s') :
    s.cursor.Reaches true s'.cursor := by
  have done := (advances s start).2
  rw [run] at done
  exact done

theorem refused {s s' : ParseState} {r : Rejection} (advances : Advances c moved rule other)
    (start : c.Reaches moved s.cursor) (run : rule s = .error r s') : s'.cursor = s.cursor := by
  have done := (advances s start).2
  rw [run] at done
  exact done

theorem later (advances : Advances c moved rule other) (behind : c.Reaches moved' c') :
    Advances c' moved rule other := by
  intro s start
  refine advances s ?_
  cases moved with
  | false => exact (behind.trans start).forget
  | true => exact behind.further start

theorem past (advances : Advances c moved rule other) : Advances c true rule other :=
  fun s start => advances s (start.weaken moved)

theorem here (advances : Advances c moved rule other) (behind : c.Reaches moved c') :
    Advances c' false rule other := by
  intro s start
  have further := behind.trans start
  rw [Bool.or_false] at further
  exact advances s further

theorem replaced {last : Rule α} (advances : Advances c moved rule other)
    (same : ∀ s, c.Reaches moved s.cursor → rule s = last s) : Advances c moved rule last :=
  fun s start => ⟨same s start, (advances s start).2⟩

/-- Inside of another rule, it moves. -/
theorem steps (advances : Advances c moved rule other) :
    Steps c moved rule other fun _ => true :=
  fun _ start => ⟨advances.same start, fun _ _ run => start.further (advances.matched start run)⟩

theorem close {body body' : Body α}
    (steps : ∀ c', c.Reaches moved c' → Steps c' false body body' fun _ => true) :
    Advances c moved body.close body'.close := by
  intro s start
  obtain ⟨same, reaches⟩ := steps s.cursor start s (.refl _)
  simp only [Body.close, ← same]
  cases run : body s with
  | ok a s' => exact ⟨trivial, reaches a s' run⟩
  | error failure s' => exact ⟨trivial, rfl⟩

theorem of_steps (steps : ∀ c', c.Reaches moved c' → Steps c' false rule other fun _ => true)
    (returns : Returns rule) : Advances c moved rule other := by
  intro s start
  obtain ⟨same, reaches⟩ := steps s.cursor start s (.refl _)
  refine ⟨same, ?_⟩
  cases run : rule s with
  | ok a s' => exact reaches a s' run
  | error r s' => exact returns s r s' run

theorem tooDeep : Advances c moved (Grammar.tooDeep : Rule α) Grammar.tooDeep :=
  fun _ _ => ⟨rfl, rfl⟩

theorem map {f : α → β} (advances : Advances c moved rule other) :
    Advances c moved (f <$> rule) (f <$> other) := by
  intro s start
  change EStateM.map f rule s = EStateM.map f other s ∧
    match EStateM.map f rule s with
    | .ok _ s' => s.cursor.Reaches true s'.cursor
    | .error _ s' => s'.cursor = s.cursor
  unfold EStateM.map
  rw [← advances.same start]
  cases run : rule s with
  | ok a s' => exact ⟨rfl, advances.matched start run⟩
  | error r s' => exact ⟨rfl, advances.refused start run⟩

theorem or {second second' : Rule α} (left : Advances c moved rule other)
    (right : Advances c moved second second') :
    Advances c moved (rule.or second) (other.or second') := by
  intro s start
  simp only [Rule.or, ← left.same start]
  cases run : rule s with
  | ok a s' => exact ⟨rfl, left.matched start run⟩
  | error r s' =>
      obtain ⟨signal, nodes⟩ := r
      have back := left.refused start run
      cases signal with
      | broken => exact ⟨rfl, back⟩
      | unmatched =>
          have start' : c.Reaches moved s'.cursor := by rwa [back]
          simp only [← right.same start']
          cases run' : second s' with
          | ok a s'' =>
              have reaches := right.matched start' run'
              rw [back] at reaches
              exact ⟨trivial, reaches⟩
          | error r' s'' => exact ⟨trivial, (right.refused start' run').trans back⟩

end Advances

/-- A rule whose failure is looked at. -/
theorem Steps.attempt {rule other : Rule α} {f g : Except Rejection α → EStateM ε ParseState β}
    {moves : β → Bool}
    (advances : Advances c moved rule other)
    (matched : ∀ a, Steps c true (f (.ok a)) (g (.ok a)) moves)
    (refused : ∀ r, Steps c moved (f (.error r)) (g (.error r)) moves) :
    Steps c moved (rule.attempt >>= f) (other.attempt >>= g) moves := by
  refine through (fun | .ok _ => true | .error _ => moved) ?_ fun outcome => ?_
  · intro s start
    simp only [Rule.attempt, ← advances.same start]
    cases run : rule s with
    | ok a s' =>
        refine ⟨trivial, ?_⟩
        rintro _ _ ⟨⟩
        exact start.further (advances.matched start run)
    | error r s' =>
        refine ⟨trivial, ?_⟩
        rintro _ _ ⟨⟩
        rwa [advances.refused start run]
  · cases outcome with
    | ok a => exact matched a
    | error r => exact refused r

end StackScript.Grammar
