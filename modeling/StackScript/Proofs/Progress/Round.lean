import StackScript.Proofs.Progress.Rule

namespace StackScript.Grammar

/-! Loops, taken apart into rounds. As every round that gets through moves, there cannot be more of
them than characters are left, however many the loop would allow. -/

variable {ε β γ : Type}

/-- What a round of a loop leads to. -/
inductive Turn (β γ : Type) where
  /-- Another round, whose result is then finished. -/
  | again (next : β) (finish : γ → γ)
  /-- The end, behind what the round has read. -/
  | last (result : γ)
  /-- The end, where there is nothing for another round. -/
  | stop (result : γ)

/-- Whether it is behind where the round started, if a loop that stops at once is as `stopped`. -/
def Turn.moved (stopped : Bool) : Turn β γ → Bool
  | .again .. | .last _ => true
  | .stop _ => stopped

/-- What comes behind a round of a loop. -/
def Turn.goOn (loop : β → EStateM ε ParseState γ) : Turn β γ → EStateM ε ParseState γ
  | .again next finish => finish <$> loop next
  | .last result | .stop result => pure result

/-- The loop repeats a round, as often as its fuel allows. -/
def Repeats (loop : Nat → β → EStateM ε ParseState γ)
    (round : β → EStateM ε ParseState (Turn β γ)) : Prop :=
  ∀ fuel b, loop (fuel + 1) b = round b >>= Turn.goOn (loop fuel)

def finished (finish : γ → γ) :
    EStateM.Result ε ParseState γ → EStateM.Result ε ParseState γ
  | .ok result s => .ok (finish result) s
  | .error e s => .error e s

/-- What a loop without any bound does: so many rounds get through from a state on, and then it has
a result or a failure. -/
inductive Rounds (round : β → EStateM ε ParseState (Turn β γ)) :
    Nat → β → ParseState → EStateM.Result ε ParseState γ → Prop
  | again {b next : β} {finish : γ → γ} {s s' : ParseState} {n : Nat}
      {outcome : EStateM.Result ε ParseState γ} (run : round b s = .ok (.again next finish) s')
      (others : Rounds round n next s' outcome) :
      Rounds round (n + 1) b s (finished finish outcome)
  | last {b : β} {result : γ} {s s' : ParseState} (run : round b s = .ok (.last result) s') :
      Rounds round 1 b s (.ok result s')
  | stop {b : β} {result : γ} {s s' : ParseState} (run : round b s = .ok (.stop result) s') :
      Rounds round 0 b s (.ok result s')
  | fail {b : β} {e : ε} {s s' : ParseState} (run : round b s = .error e s') :
      Rounds round 0 b s (.error e s')

variable {loop loop' : Nat → β → EStateM ε ParseState γ}
  {round round' : β → EStateM ε ParseState (Turn β γ)}

theorem map_apply (finish : γ → γ) (x : EStateM ε ParseState γ) (s : ParseState) :
    (finish <$> x) s = finished finish (x s) := by
  change EStateM.map finish x s = _
  unfold EStateM.map
  cases x s <;> rfl

/-- With fuel for the characters that are left, and with any more of it, the loop does what it
would do without a bound. At most as many rounds get through as there are characters, each of which
has a byte or more. -/
def Bounded (loop : Nat → β → EStateM ε ParseState γ)
    (round : β → EStateM ε ParseState (Turn β γ)) : Prop :=
  ∀ fuel b s, s.cursor.rest.length < fuel →
    ∃ n ≤ s.cursor.rest.length, Rounds round n b s (loop fuel b s)

theorem Repeats.bounded (repeats : Repeats loop round)
    (steps : ∀ c b, Steps c false (round b) (round b) (Turn.moved false)) :
    Bounded loop round := by
  intro fuel b s enough
  induction fuel generalizing b s with
  | zero => exact absurd enough (Nat.not_lt_zero _)
  | succ fuel induction =>
      have reaches := (steps s.cursor b s (.refl _)).2
      rw [repeats fuel b]
      change ∃ n ≤ _, Rounds round n b s (EStateM.bind (round b) (Turn.goOn (loop fuel)) s)
      unfold EStateM.bind
      cases run : round b s with
      | error e s' => exact ⟨0, Nat.zero_le _, .fail run⟩
      | ok turn s' =>
          have behind := reaches turn s' run
          cases turn with
          | again next finish =>
              have shorter := behind.length_lt
              obtain ⟨n, few, rounds⟩ := induction next s' (by omega)
              refine ⟨n + 1, by omega, ?_⟩
              simp only [Turn.goOn, map_apply]
              exact .again run rounds
          | last result =>
              exact ⟨1, Nat.succ_le_of_lt (Nat.zero_lt_of_lt behind.length_lt), .last run⟩
          | stop result => exact ⟨0, Nat.zero_le _, .stop run⟩

/-- A loop gets as far as its rounds do. -/
theorem Repeats.steps {c : Cursor} {moved stopped : Bool} (repeats : Repeats loop round)
    (repeats' : Repeats loop' round')
    (spent : ∀ b, Steps c moved (loop 0 b) (loop' 0 b) fun _ => stopped)
    (rounds : ∀ b, Steps c moved (round b) (round' b) (Turn.moved stopped)) (fuel : Nat) (b : β) :
    Steps c moved (loop fuel b) (loop' fuel b) fun _ => stopped := by
  induction fuel generalizing moved b with
  | zero => exact spent b
  | succ fuel induction =>
      rw [repeats, repeats']
      refine .bind (rounds b) fun turn => ?_
      cases turn with
      | again next finish =>
          exact .map (induction (fun b => (spent b).past) (fun b => (rounds b).past) next)
      | last result =>
          cases stopped with
          | false => exact (Steps.pure rfl).past
          | true => exact .pure rfl
      | stop result => exact .pure rfl

end StackScript.Grammar
