import StackScript.Proofs.Grammar.Token

namespace StackScript

/-! Rules that read a known text, or give up because something in it is nested too deeply. -/

/-- The failure that ended all these is that something is nested too deeply. -/
def Diagnostic.EndDeep (nodes : List Diagnostic) : Prop :=
  ∃ node, nodes.getLast? = some node ∧ node.deepest.cause = .nestingTooDeep

namespace Diagnostic

theorem deepestOf_eq_getLast {default node : Diagnostic} {children : List Diagnostic}
    (last : children.getLast? = some node) : deepestOf default children = node.deepest := by
  induction children with
  | nil => cases last
  | cons child rest induction =>
      cases rest with
      | nil =>
          cases last
          rfl
      | cons next rest => exact induction last

theorem deepest_failure {position : Position} {cause : Cause} {children : List Diagnostic}
    {node : Diagnostic} (last : children.getLast? = some node) :
    (failure position cause children).deepest = node.deepest :=
  deepestOf_eq_getLast last

theorem EndDeep.failure {children : List Diagnostic} (deep : EndDeep children)
    (position : Position) (cause : Cause) : EndDeep [.failure position cause children] := by
  obtain ⟨node, last, tooDeep⟩ := deep
  refine ⟨.failure position cause children, rfl, ?_⟩
  rwa [deepest_failure last]

theorem EndDeep.append {nodes : List Diagnostic} (deep : EndDeep nodes)
    (tried : List Diagnostic) : EndDeep (tried ++ nodes) := by
  obtain ⟨node, last, tooDeep⟩ := deep
  exact ⟨node, by rw [List.getLast?_append, last, Option.some_or], tooDeep⟩

end Diagnostic

namespace Grammar

def Rejection.IsDeep (r : Rejection) : Prop :=
  r.signal = .broken ∧ Diagnostic.EndDeep r.nodes

def Failure.IsDeep (f : Failure) : Prop :=
  f.signal = .broken ∧ Diagnostic.EndDeep f.children

variable {ε α β : Type} {deep : ε → Prop} {r : Registry} {text mid rest : List Char}
variable {a : α} {b : β} {fits fits' : Prop}

/-- In front of a text the rule gives a result and leaves the rest, if what it reads fits; otherwise
it ends too deep. -/
def Gives (deep : ε → Prop) (r : Registry) (rule : EStateM ε ParseState α)
    (text rest : List Char) (a : α) (fits : Prop) : Prop :=
  Meets (At r text) rule (fun b s => b = a ∧ At r rest s ∧ fits) (fun e _ => deep e ∧ ¬ fits)

/-- The rule leaves the text to other alternatives. -/
def Passes (r : Registry) (rule : Rule α) (text : List Char) : Prop :=
  Meets (At r text) rule (fun _ _ => False) (fun e s => e.signal = .unmatched ∧ At r text s)

def Declines (r : Registry) (body : Body α) (text : List Char) : Prop :=
  Meets (At r text) body (fun _ _ => False) (fun f s => f.signal = .unmatched ∧ s.registry = r)

namespace Declines

theorem pass {cause : Cause} {children : List Diagnostic} :
    Declines r (Body.pass cause children : Body α) text :=
  .throw fun _ start => ⟨rfl, start.registry_eq⟩

theorem after_cursor {next : Cursor → Body α}
    (second : ∀ c : Cursor, c.rest = text → Declines r (next c) text) :
    Declines r (cursor >>= next) text :=
  Grammar.after_cursor second

theorem after_skip {next : Unit → Body α} (unspaced : text.dropWhile Cursor.isSpace = mid)
    (second : Declines r (next ()) mid) : Declines r (skipSpace >>= next) text :=
  Meets.bind (skipSpace_at unspaced) fun _ => second

theorem after_move {next : Unit → Body α} {c : Cursor} (same : c.rest = mid)
    (second : Declines r (next ()) mid) : Declines r (moveTo c >>= next) text :=
  Meets.bind (moveTo_at same) fun _ => second

theorem bind {rule : Body α} {next : α → Body β} (declines : Declines r rule text) :
    Declines r (rule >>= next) text :=
  Meets.bind declines fun _ => .absurd fun _ impossible => impossible

end Declines

namespace Gives

theorem pure : Gives deep r (Pure.pure a) text text a True :=
  Meets.pure fun _ start => ⟨rfl, start, trivial⟩

theorem of_iff {rule : EStateM ε ParseState α} (gives : Gives deep r rule text rest a fits)
    (same : fits ↔ fits') : Gives deep r rule text rest a fits' := by
  rwa [← propext same]

theorem bind {rule : EStateM ε ParseState α} {next : α → EStateM ε ParseState β}
    (first : Gives deep r rule text mid a fits)
    (second : Gives deep r (next a) mid rest b fits') :
    Gives deep r (rule >>= next) text rest b (fits ∧ fits') := by
  refine Meets.bind (Meets.mono first (fun _ start => start) (fun _ _ done => done)
    fun e s fault => ⟨fault.1, fun both => fault.2 both.1⟩) fun c => ?_
  refine .of_start (fun _ start => start.1) ?_
  rintro rfl
  refine .of_start (fun _ start => start.2.2) fun holds => ?_
  exact Meets.mono second (fun _ start => start.2.1)
    (fun _ _ done => ⟨done.1, done.2.1, holds, done.2.2⟩)
    fun _ _ fault => ⟨fault.1, fun both => fault.2 both.2⟩

theorem after {rule : EStateM ε ParseState α} {next : α → EStateM ε ParseState β}
    (first : ∀ fail : ε → ParseState → Prop,
      Meets (At r text) rule (fun c s => c = a ∧ At r mid s) fail)
    (second : Gives deep r (next a) mid rest b fits) :
    Gives deep r (rule >>= next) text rest b fits := by
  refine Meets.bind (first _) fun c => .of_start (fun _ start => start.1) ?_
  rintro rfl
  exact Meets.mono second (fun _ start => start.2) (fun _ _ done => done) fun _ _ fault => fault

theorem after_skip {next : Unit → EStateM ε ParseState β}
    (unspaced : text.dropWhile Cursor.isSpace = mid)
    (second : Gives deep r (next ()) mid rest b fits) :
    Gives deep r (skipSpace >>= next) text rest b fits :=
  Meets.bind (skipSpace_at unspaced) fun _ => second

theorem after_move {next : Unit → EStateM ε ParseState β} {c : Cursor} (same : c.rest = mid)
    (second : Gives deep r (next ()) mid rest b fits) :
    Gives deep r (moveTo c >>= next) text rest b fits :=
  Meets.bind (moveTo_at same) fun _ => second

theorem after_cursor {next : Cursor → EStateM ε ParseState β}
    (second : ∀ c : Cursor, c.rest = text → Gives deep r (next c) text rest b fits) :
    Gives deep r (cursor >>= next) text rest b fits :=
  Grammar.after_cursor second

theorem close {body : Body α} (gives : Gives Failure.IsDeep r body text rest a fits) :
    Gives Rejection.IsDeep r body.close text rest a fits := by
  intro s start
  have done := gives s start
  simp only [Body.close]
  cases run : body s with
  | ok c s' =>
      rw [run] at done
      exact done
  | error f s' =>
      rw [run] at done
      exact ⟨⟨done.1.1, done.1.2.failure _ _⟩, done.2⟩

theorem orPass {rule : Rule α} {cause : Cause}
    (gives : Gives Rejection.IsDeep r rule text rest a fits) :
    Gives Failure.IsDeep r (rule.orPass cause) text rest a fits := by
  intro s start
  have done := gives s start
  simp only [Rule.orPass]
  cases run : rule s <;> rw [run] at done <;> exact done

theorem orFail {rule : Rule α} {cause : Cause}
    (gives : Gives Rejection.IsDeep r rule text rest a fits) :
    Gives Failure.IsDeep r (rule.orFail cause) text rest a fits := by
  intro s start
  have done := gives s start
  simp only [Rule.orFail]
  cases run : rule s with
  | ok c s' =>
      rw [run] at done
      exact done
  | error e s' =>
      rw [run] at done
      exact ⟨⟨rfl, done.1.2⟩, done.2⟩

theorem or_left {first second : Rule α} (gives : Gives Rejection.IsDeep r first text rest a fits) :
    Gives Rejection.IsDeep r (first.or second) text rest a fits := by
  intro s start
  have done := gives s start
  simp only [Rule.or]
  cases run : first s with
  | ok c s' =>
      rw [run] at done
      exact done
  | error e s' =>
      rw [run] at done
      obtain ⟨signal, nodes⟩ := e
      obtain ⟨⟨rfl, ends⟩, long⟩ := done
      exact ⟨⟨rfl, ends⟩, long⟩

theorem or_right {first second : Rule α} (passes : Passes r first text)
    (gives : Gives Rejection.IsDeep r second text rest a fits) :
    Gives Rejection.IsDeep r (first.or second) text rest a fits := by
  intro s start
  have passed := passes s start
  simp only [Rule.or]
  cases run : first s with
  | ok c s' =>
      rw [run] at passed
      exact passed.elim
  | error e s' =>
      rw [run] at passed
      obtain ⟨signal, nodes⟩ := e
      obtain ⟨rfl, back⟩ := passed
      have done := gives s' back
      simp only
      cases run' : second s' with
      | ok c s'' =>
          rw [run'] at done
          exact done
      | error e s'' =>
          rw [run'] at done
          exact ⟨⟨done.1.1, done.1.2.append nodes⟩, done.2⟩

theorem map {rule : EStateM ε ParseState α} {f : α → β}
    (gives : Gives deep r rule text rest a fits) :
    Gives deep r (f <$> rule) text rest (f a) fits := by
  rw [← bind_pure_comp]
  have last : Gives deep r (Pure.pure (f a)) rest rest (f a) True := pure
  exact of_iff (bind gives last) ⟨And.left, fun holds => ⟨holds, trivial⟩⟩

end Gives

namespace Passes

theorem close {body : Body α} (declines : Declines r body text) : Passes r body.close text := by
  intro s start
  have done := declines s start
  simp only [Body.close]
  cases run : body s with
  | ok c s' =>
      rw [run] at done
      exact done
  | error f s' =>
      rw [run] at done
      exact ⟨done.1, done.2, start.rest_eq⟩

theorem orPass {rule : Rule α} {cause : Cause} (passes : Passes r rule text) :
    Declines r (rule.orPass cause) text := by
  intro s start
  have done := passes s start
  simp only [Rule.orPass]
  cases run : rule s with
  | ok c s' =>
      rw [run] at done
      exact done
  | error e s' =>
      rw [run] at done
      exact ⟨done.1, done.2.registry_eq⟩

theorem or {first second : Rule α} (left : Passes r first text) (right : Passes r second text) :
    Passes r (first.or second) text := by
  intro s start
  have done := left s start
  simp only [Rule.or]
  cases run : first s with
  | ok c s' =>
      rw [run] at done
      exact done.elim
  | error e s' =>
      rw [run] at done
      obtain ⟨signal, nodes⟩ := e
      obtain ⟨rfl, back⟩ := done
      have next := right s' back
      simp only
      cases run' : second s' <;> rw [run'] at next <;> exact next

theorem map {rule : Rule α} {f : α → β} (passes : Passes r rule text) :
    Passes r (f <$> rule) text := by
  rw [← bind_pure_comp]
  exact Meets.bind passes fun _ => .absurd fun _ impossible => impossible

theorem attempt {rule : Rule α} (passes : Passes r rule text) (fail : ε → ParseState → Prop) :
    Meets (At r text) (rule.attempt : EStateM ε ParseState (Except Rejection α))
      (fun outcome s => ∃ e, outcome = .error e ∧ e.signal = .unmatched ∧ At r text s) fail := by
  intro s start
  have done := passes s start
  simp only [Rule.attempt]
  cases run : rule s with
  | ok c s' =>
      rw [run] at done
      exact done.elim
  | error e s' =>
      rw [run] at done
      exact ⟨e, rfl, done⟩

end Passes

theorem Declines.after_pass {rule : Rule α} {next : Except Rejection α → Body β}
    (passes : Passes r rule text)
    (second : ∀ e : Rejection, e.signal = .unmatched → Declines r (next (.error e)) text) :
    Declines r (rule.attempt >>= next) text := by
  refine Meets.bind (passes.attempt _) fun outcome => ?_
  rintro s ⟨e, rfl, signal, back⟩
  exact second e signal s back

theorem Gives.certain {rule : EStateM ε ParseState α} (gives : Gives deep r rule text rest a True)
    (fail : ε → ParseState → Prop) :
    Meets (At r text) rule (fun b s => b = a ∧ At r rest s) fail :=
  Meets.mono gives (fun _ start => start) (fun _ _ done => ⟨done.1, done.2.1⟩)
    fun _ _ fault => absurd trivial fault.2

theorem close_certain {body : Body α} {pre : ParseState → Prop} {last : α → ParseState → Prop}
    (meets : Meets pre body last fun _ _ => False) (fail : Rejection → ParseState → Prop) :
    Meets pre body.close last fail := by
  intro s start
  have done := meets s start
  simp only [Body.close]
  cases run : body s with
  | ok c s' =>
      rw [run] at done
      exact done
  | error f s' =>
      rw [run] at done
      exact done.elim

theorem orFail_certain {rule : Rule α} {cause : Cause} {pre : ParseState → Prop}
    {last : α → ParseState → Prop} (meets : Meets pre rule last fun _ _ => False)
    (fail : Failure → ParseState → Prop) : Meets pre (rule.orFail cause) last fail := by
  intro s start
  have done := meets s start
  simp only [Rule.orFail]
  cases run : rule s with
  | ok c s' =>
      rw [run] at done
      exact done
  | error e s' =>
      rw [run] at done
      exact done.elim

theorem Gives.attempt {rule : Rule α} (gives : Gives Rejection.IsDeep r rule text rest a True)
    (fail : ε → ParseState → Prop) :
    Meets (At r text) (rule.attempt : EStateM ε ParseState (Except Rejection α))
      (fun outcome s => outcome = .ok a ∧ At r rest s) fail := by
  intro s start
  have done := gives.certain (fun _ _ => False) s start
  simp only [Rule.attempt]
  cases run : rule s with
  | ok c s' =>
      rw [run] at done
      exact ⟨congrArg Except.ok done.1, done.2⟩
  | error e s' =>
      rw [run] at done
      exact done.elim

theorem Gives.after_attempt {rule : Rule α} {next : Except Rejection α → EStateM ε ParseState β}
    (gives : Gives Rejection.IsDeep r rule text mid a fits)
    (done : Gives deep r (next (.ok a)) mid rest b True)
    (broken : ∀ e : Rejection, e.IsDeep →
      Meets (fun _ => True) (next (.error e)) (fun _ _ => False) (fun f _ => deep f)) :
    Gives deep r (rule.attempt >>= next) text rest b fits := by
  have tried : Meets (At r text) (rule.attempt : EStateM ε ParseState (Except Rejection α))
      (fun outcome s => outcome = .ok a ∧ At r mid s ∧ fits ∨
        ∃ e : Rejection, outcome = .error e ∧ e.IsDeep ∧ ¬ fits) (fun _ _ => False) := by
    intro s start
    have result := gives s start
    simp only [Rule.attempt]
    cases run : rule s with
    | ok c s' =>
        rw [run] at result
        obtain ⟨rfl, back, holds⟩ := result
        exact .inl ⟨rfl, back, holds⟩
    | error e s' =>
        rw [run] at result
        exact .inr ⟨e, rfl, result⟩
  refine Meets.bind (Meets.mono tried (fun _ start => start) (fun _ _ ends => ends)
    fun _ _ impossible => impossible.elim) fun outcome => ?_
  intro s ends
  rcases ends with ⟨rfl, back, holds⟩ | ⟨e, rfl, ends, long⟩
  · have result := done s back
    cases run : next (.ok a) s with
    | ok c s' =>
        rw [run] at result
        exact ⟨result.1, result.2.1, holds⟩
    | error f s' =>
        rw [run] at result
        exact absurd trivial result.2
  · have result := broken e ends s trivial
    cases run : next (.error e) s with
    | ok c s' =>
        rw [run] at result
        exact result.elim
    | error f s' =>
        rw [run] at result
        exact ⟨result, long⟩

theorem Gives.after_pass {rule : Rule α} {next : Except Rejection α → EStateM ε ParseState β}
    (passes : Passes r rule text)
    (second : ∀ e : Rejection, e.signal = .unmatched →
      Gives deep r (next (.error e)) text rest b fits) :
    Gives deep r (rule.attempt >>= next) text rest b fits := by
  refine Meets.bind (passes.attempt _) fun outcome => ?_
  rintro s ⟨e, rfl, signal, back⟩
  exact second e signal s back

theorem Gives.tooDeep : Gives Rejection.IsDeep r (tooDeep : Rule α) text rest a False :=
  fun _ _ => ⟨⟨rfl, _, rfl, rfl⟩, id⟩

end Grammar

end StackScript
