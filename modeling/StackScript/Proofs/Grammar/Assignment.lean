import StackScript.Proofs.Grammar.Types

namespace StackScript.Grammar

/-! Assignments and sequences of statements in front of a known text. -/

variable {α : Type} {r : Registry} {text mid rest word : List Char} {scope : Scope} {nested : Nested}
variable {fits : Prop}

theorem target_passes (unspaced : text.dropWhile Cursor.isSpace = word ++ ' ' :: rest)
    (named : isName word = true)
    (reserved : reservedWords.contains (String.ofList (word.map Char.toLower)) = true) :
    Passes r (target nested scope) text := by
  obtain ⟨same, noDot⟩ := name_plain named (' ' :: rest)
  refine .close (.after_skip unspaced (dotted_declines noDot ?_))
  exact .close (.bind (Passes.orPass (identifier_passes same named reserved)))

/-- A place is read that a name starts. -/
theorem target_gives_named {place : Typed}
    (unspaced : text.dropWhile Cursor.isSpace = word ++ mid) (named : isName word = true)
    (gives : Gives Rejection.IsDeep r (primary (nested.conditional scope) .left scope)
      (word ++ mid) rest place True)
    (behind : rest.head? ≠ some '.') :
    Gives Rejection.IsDeep r (target nested scope) text rest place True :=
  .close (.after_skip unspaced (dotted_gives (name_plain named mid).2 behind gives))

theorem target_gives {index : Nat} {symbol : Symbol}
    (unspaced : text.dropWhile Cursor.isSpace = word ++ ' ' :: rest) (named : isName word = true)
    (free : reservedWords.contains (String.ofList (word.map Char.toLower)) = false)
    (listed : r.find? (String.ofList word) scope .inherited = some index)
    (found : r.get? index = some symbol) (kind : symbol.kind = .var) :
    Gives Rejection.IsDeep r (target nested scope) text (' ' :: rest)
      { expr := .cell .static index, ty := symbol.ty } True := by
  have name : Gives Rejection.IsDeep r (identifier scope .inherited) (word ++ ' ' :: rest)
      (' ' :: rest) (String.ofList word, some index) True := by
    rw [← listed]
    exact identifier_gives (name_plain named (' ' :: rest)).1 named free isTerminal_space
  exact target_gives_named unspaced named (primary_gives name found kind (by simp)) (by simp)

theorem assignment_passes (passes : Passes r (target nested scope) text) :
    Passes r (assignment nested scope) text :=
  .close (.bind (Passes.orPass passes))

theorem update_finds {more : List Char} (ahead : text.dropWhile Cursor.isSpace = '=' :: more) :
    Finds (fun c : Cursor => c.firstOf? Cursor.operator? updateWords) text .set more := by
  have member : (['='], Update.set) ∈ updateWords := by decide
  apply firstOf?_finds member
  · exact operator?_takes ahead
  · intro entry listed other
    have missing (first : Char) (word : List Char) (differs : first ≠ '=') :
        Misses (Cursor.operator? (first :: word)) text := by
      apply operator?_misses
      rw [ahead]
      exact fun same => differs (Option.some.inj same).symm
    simp only [updateWords, List.mem_cons, List.not_mem_nil, or_false] at listed
    rcases listed with rfl | rfl | rfl | rfl | rfl
    · exact missing '+' _ (by decide)
    · exact missing '-' _ (by decide)
    · exact missing '*' _ (by decide)
    · exact missing '/' _ (by decide)
    · exact absurd rfl other

theorem assignment_gives {place value : Typed} {more : List Char}
    (placed : Gives Rejection.IsDeep r (target nested scope) text mid place True)
    (ahead : mid.dropWhile Cursor.isSpace = '=' :: more)
    (valued : Gives Rejection.IsDeep r (nested.conditional scope) more rest value fits)
    (allowed : updateAllowed .set place.ty value.ty = true) :
    Gives Rejection.IsDeep r (assignment nested scope) text rest
      (.assign place.expr .set value.expr) fits := by
  refine .close (.after (fun _ => placed.orPass.certain _) ?_)
  refine .after (fun _ => acceptOne_finds (update_finds ahead)) ?_
  refine Gives.of_iff (Gives.bind valued.orFail ?_) (and_iff_left trivial)
  rw [if_pos allowed]
  exact .pure

/-! Alternatives that do not fail. -/

section Certain

variable {first second : Rule α} {pre : ParseState → Prop} {last : α → ParseState → Prop}
variable {fail : Rejection → ParseState → Prop}

theorem or_certain_left (meets : Meets pre first last fun _ _ => False) :
    Meets pre (first.or second) last fail := by
  intro s start
  have done := meets s start
  simp only [Rule.or]
  cases run : first s with
  | ok a s' =>
      rw [run] at done
      exact done
  | error e s' =>
      rw [run] at done
      exact done.elim

theorem or_certain_right (passes : Passes r first text)
    (meets : Meets (At r text) second last fun _ _ => False) :
    Meets (At r text) (first.or second) last fail := by
  intro s start
  have passed := passes s start
  simp only [Rule.or]
  cases run : first s with
  | ok a s' =>
      rw [run] at passed
      exact passed.elim
  | error e s' =>
      rw [run] at passed
      obtain ⟨signal, nodes⟩ := e
      obtain ⟨rfl, back⟩ := passed
      have done := meets s' back
      simp only
      cases run' : second s' with
      | ok a s'' =>
          rw [run'] at done
          exact done
      | error e s'' =>
          rw [run'] at done
          exact done.elim

end Certain

/-- A type that starts with a reserved word, and a new name, declare a variable at the root. -/
theorem declaration_declares {body : BlockBody} {ty : Ty} {typeText keyword : List Char}
    (written : Source.TypeText ty typeText)
    (starts : typeText ++ ' ' :: (word ++ ' ' :: rest) = keyword ++ ' ' :: mid)
    (isKeyword : isName keyword = true)
    (reserved : reservedWords.contains (String.ofList (keyword.map Char.toLower)) = true)
    (named : isName word = true)
    (free : reservedWords.contains (String.ofList (word.map Char.toLower)) = false)
    (new : r.find? (String.ofList word) .root .exact = none) :
    Meets (At r (typeText ++ ' ' :: (word ++ ' ' :: rest)))
      (statement nested body .static .root 0)
      (fun stmt state => stmt = .declare r.size ∧
        ∃ place, At (withVariable r .root (String.ofList word) ty place) (' ' :: rest) state)
      fun _ _ => False := by
  have same : (typeText ++ ' ' :: (word ++ ' ' :: rest)).dropWhile Cursor.isSpace =
      keyword ++ ' ' :: mid := by
    rw [starts]
    exact (name_plain isKeyword _).1
  have behind : (' ' :: (word ++ ' ' :: rest)).dropWhile Cursor.isSpace = word ++ ' ' :: rest :=
    (name_plain named (' ' :: rest)).1
  apply or_certain_right (assignment_passes (target_passes same isKeyword reserved))
  apply or_certain_left
  rw [← bind_pure_comp]
  refine .known (variableDeclaration_adds (typeName_reads written rfl)
    (identifier_gives behind named free isTerminal_space) new _) ?_
  exact .pure fun _ declared => ⟨rfl, declared⟩

/-! Statements one after the other. -/

variable {next : Nat → Rule Stmt} {fuel opened : Nat} {stmt : Stmt} {front : List Char}

def roundOf (next : Nat → Rule Stmt) (fuel opened : Nat) (start : Cursor) :
    Except Rejection Stmt → Rule (List Stmt)
  | .error e => do
      moveTo start
      throw (unitFailure start e)
  | .ok stmt => do
      let rest ← statementsLoop next false fuel
        (if stmt.opensScope then opened + 1 else opened)
      pure (stmt :: rest)

theorem statementsLoop_round {last : List Stmt → ParseState → Prop}
    {fail : Rejection → ParseState → Prop} (ahead : text.dropWhile Cursor.isSpace = front)
    (nonempty : front ≠ []) (round : ∀ start : Cursor, Meets (At r front)
      ((next opened).attempt >>= roundOf next fuel opened start) last fail) :
    Meets (At r text) (statementsLoop next false (fuel + 1) opened) last fail := by
  unfold statementsLoop
  refine .bind (skipSpace_at ahead) fun _ => after_cursor fun start same => ?_
  rw [Cursor.peek?, same]
  split
  · contradiction
  · rename_i none _
    exact absurd (List.head?_eq_none_iff.mp none) nonempty
  · contradiction
  · exact round start

theorem statementsLoop_ends :
    Gives Rejection.IsDeep r (statementsLoop next false fuel opened) [] [] [] True := by
  cases fuel with
  | zero => exact .pure
  | succ fuel =>
      unfold statementsLoop
      refine .after_skip rfl (.after_cursor fun c ahead => ?_)
      rw [Cursor.peek?, ahead]
      exact .pure

theorem statementsLoop_gives {stmts : List Stmt}
    (ahead : text.dropWhile Cursor.isSpace = front) (nonempty : front ≠ [])
    (gives : Gives Rejection.IsDeep r (next opened) front mid stmt fits)
    (plain : stmt.opensScope = false)
    (others : Gives Rejection.IsDeep r (statementsLoop next false fuel opened) mid rest stmts
      True) :
    Gives Rejection.IsDeep r (statementsLoop next false (fuel + 1) opened) text rest
      (stmt :: stmts) fits := by
  refine statementsLoop_round ahead nonempty fun start => Gives.after_attempt gives ?_ ?_
  · rw [roundOf, plain, if_neg Bool.false_ne_true]
    exact .after (fun _ => others.certain _) .pure
  · exact fun e deep s _ => ⟨deep.1, deep.2.failure _ _⟩

theorem statementsLoop_first {middle : ParseState → Prop} {last : List Stmt → ParseState → Prop}
    {fail : Rejection → ParseState → Prop} (ahead : text.dropWhile Cursor.isSpace = front)
    (nonempty : front ≠ [])
    (first : Meets (At r front) (next opened) (fun a s => a = stmt ∧ middle s) fun _ _ => False)
    (others : Meets middle
      (statementsLoop next false fuel (if stmt.opensScope then opened + 1 else opened))
      (fun stmts s => last (stmt :: stmts) s) fail) :
    Meets (At r text) (statementsLoop next false (fuel + 1) opened) last fail := by
  refine statementsLoop_round ahead nonempty fun start => ?_
  have tried : Meets (At r front) ((next opened).attempt : Rule (Except Rejection Stmt))
      (fun outcome s => outcome = .ok stmt ∧ middle s) fail := by
    intro s start
    have done := first s start
    simp only [Rule.attempt]
    cases run : next opened s with
    | ok a s' =>
        rw [run] at done
        exact ⟨congrArg Except.ok done.1, done.2⟩
    | error e s' =>
        rw [run] at done
        exact done.elim
  exact .known tried (.bind others fun stmts => .pure fun _ done => done)

/-- A program of a declaration and a statement that may use what is declared. -/
theorem program_gives {symbols : Position → Registry} {declaration : Stmt}
    (unspaced : text.dropWhile Cursor.isSpace = text) (long : 1 < text.length)
    (declared : Meets (At r text)
      (statement (nestedWithin maxNesting) (bodyWithin maxNesting) .static .root 0)
      (fun s state => s = declaration ∧ ∃ place, At (symbols place) (' ' :: rest) state)
      fun _ _ => False)
    (silent : declaration.opensScope = false)
    (ahead : rest.dropWhile Cursor.isSpace = rest) (nonempty : rest ≠ [])
    (others : ∀ place, Gives Rejection.IsDeep (symbols place)
      (statement (nestedWithin maxNesting) (bodyWithin maxNesting) .static .root 0) rest [] stmt
      fits)
    (plain : stmt.opensScope = false) :
    Meets (At r text) program
      (fun stmts state => stmts = [declaration, stmt] ∧ fits ∧
        ∃ place, state.registry = symbols place)
      (fun r _ => r.IsDeep ∧ ¬ fits) := by
  obtain ⟨fuel, enough⟩ : ∃ fuel, text.length + 1 = fuel + 1 + 1 := ⟨text.length - 1, by omega⟩
  unfold program Grammar.statements
  apply after_remaining
  rw [enough, show (!Scope.root.isRoot) = false from rfl]
  refine statementsLoop_first unspaced (List.ne_nil_of_length_pos (by omega)) declared ?_
  rintro state ⟨place, behind⟩
  rw [silent, if_neg Bool.false_ne_true]
  have second : Gives Rejection.IsDeep (symbols place) (statementsLoop
      (statement (nestedWithin maxNesting) (bodyWithin maxNesting) .static .root) false
      (fuel + 1) 0) (' ' :: rest) [] [stmt] fits :=
    statementsLoop_gives ahead nonempty (others place) plain statementsLoop_ends
  refine Meets.mono second (fun _ start => start) ?_ (fun _ _ fault => fault) state behind
  rintro stmts state' ⟨rfl, ends, fitting⟩
  exact ⟨rfl, fitting, place, ends.registry_eq⟩

end StackScript.Grammar
