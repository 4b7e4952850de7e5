import StackScript.Edit

namespace StackScript

/-! What a computation with a state promises. The same triples serve edits, actions of the machine
and grammar rules. -/

variable {ε σ α β : Type}

/-- From a state in `pre` the computation ends in `post`, or fails as `fail` allows. -/
def Meets (pre : σ → Prop) (x : EStateM ε σ α) (post : α → σ → Prop) (fail : ε → σ → Prop) :
    Prop :=
  ∀ s, pre s →
    match x s with
    | .ok a s' => post a s'
    | .error e s' => fail e s'

namespace Meets

variable {pre pre' : σ → Prop} {mid post post' : α → σ → Prop} {last : β → σ → Prop}
variable {fail fail' : ε → σ → Prop} {x : EStateM ε σ α}

theorem ok {s s' : σ} {a : α} (meets : Meets pre x post fail) (start : pre s)
    (run : x s = .ok a s') : post a s' := by
  have result := meets s start
  rw [run] at result
  exact result

theorem error {s s' : σ} {e : ε} (meets : Meets pre x post fail) (start : pre s)
    (run : x s = .error e s') : fail e s' := by
  have result := meets s start
  rw [run] at result
  exact result

/-- What a success and a failure leave alike. -/
theorem outcome {edit : Edit σ α} {before after : σ → Prop} {s : σ}
    (meets : Meets before edit (fun _ => after) fun _ => after) (start : before s) :
    after (Edit.outcome edit s).2 := by
  unfold Edit.outcome
  cases run : edit s with
  | ok _ s' => exact meets.ok start run
  | error _ s' => exact meets.error start run

theorem exists_ok {s : σ} (meets : Meets pre x post fun _ _ => False) (start : pre s) :
    ∃ a s', x s = .ok a s' ∧ post a s' := by
  have result := meets s start
  cases run : x s with
  | ok a s' =>
      rw [run] at result
      exact ⟨a, s', rfl, result⟩
  | error e s' =>
      rw [run] at result
      exact result.elim

theorem mono (meets : Meets pre x post fail) (start : ∀ s, pre' s → pre s)
    (ends : ∀ a s, post a s → post' a s) (fails : ∀ e s, fail e s → fail' e s) :
    Meets pre' x post' fail' := by
  intro s hpre
  have result := meets s (start s hpre)
  cases run : x s with
  | ok a s' =>
      rw [run] at result
      exact ends a s' result
  | error e s' =>
      rw [run] at result
      exact fails e s' result

theorem start (meets : Meets pre x post fail) (weaker : ∀ s, pre' s → pre s) :
    Meets pre' x post fail :=
  meets.mono weaker (fun _ _ done => done) (fun _ _ failed => failed)

theorem and {second : σ → Prop} {post₂ : α → σ → Prop} {fail₂ : ε → σ → Prop}
    (first : Meets pre x post fail) (other : Meets second x post₂ fail₂) :
    Meets (fun s => pre s ∧ second s) x (fun a s => post a s ∧ post₂ a s)
      (fun e s => fail e s ∧ fail₂ e s) := by
  rintro s ⟨start, start₂⟩
  have result := first s start
  have result₂ := other s start₂
  cases run : x s with
  | ok a s' =>
      rw [run] at result result₂
      exact ⟨result, result₂⟩
  | error e s' =>
      rw [run] at result result₂
      exact ⟨result, result₂⟩

theorem pure {a : α} (start : ∀ s, pre s → post a s) :
    Meets pre (Pure.pure a : EStateM ε σ α) post fail :=
  fun s hpre => start s hpre

theorem throw {e : ε} (start : ∀ s, pre s → fail e s) :
    Meets pre (MonadExcept.throw e : EStateM ε σ α) post fail :=
  fun s hpre => start s hpre

theorem bind {f : α → EStateM ε σ β} (first : Meets pre x mid fail)
    (second : ∀ a, Meets (mid a) (f a) last fail) : Meets pre (x >>= f) last fail := by
  intro s hpre
  have result := first s hpre
  change match EStateM.bind x f s with
    | .ok b s' => last b s'
    | .error e s' => fail e s'
  unfold EStateM.bind
  cases run : x s with
  | ok a s' =>
      rw [run] at result
      exact second a s' result
  | error e s' =>
      rw [run] at result
      exact result

theorem through {f : α → EStateM ε σ β} (mid : α → σ → Prop) (first : Meets pre x mid fail)
    (second : ∀ a, Meets (mid a) (f a) last fail) : Meets pre (x >>= f) last fail :=
  bind first second

/-- Goes on with the only result there can be. -/
theorem known {f : α → EStateM ε σ β} {a : α} (first : Meets pre x (fun b s => b = a ∧ pre' s) fail)
    (second : Meets pre' (f a) last fail) : Meets pre (x >>= f) last fail := by
  refine bind first fun b s start => ?_
  obtain ⟨rfl, start⟩ := start
  exact second s start

theorem seq {y : EStateM ε σ β} (first : Meets pre x (fun _ => pre') fail)
    (second : Meets pre' y last fail) : Meets pre (x >>= fun _ => y) last fail :=
  bind first fun _ => second

theorem get {end' : σ → σ → Prop} (start : ∀ s, pre s → end' s s) :
    Meets pre (MonadState.get : EStateM ε σ σ) end' fail :=
  fun s hpre => start s hpre

theorem modify {f : σ → σ} {end' : Unit → σ → Prop} (start : ∀ s, pre s → end' () (f s)) :
    Meets pre (modify f : EStateM ε σ Unit) end' fail :=
  fun s hpre => start s hpre

theorem set {t : σ} {end' : PUnit → σ → Prop} (start : ∀ s, pre s → end' .unit t) :
    Meets pre (MonadStateOf.set t : EStateM ε σ PUnit) end' fail :=
  fun s hpre => start s hpre

theorem absurd (none : ∀ s, ¬ pre s) : Meets pre x post fail :=
  fun s hpre => (none s hpre).elim

theorem of_start {p : Prop} (fact : ∀ s, pre s → p) (meets : p → Meets pre x post fail) :
    Meets pre x post fail :=
  fun s hpre => meets (fact s hpre) s hpre

end Meets

theorem Meets.ofExcept {pre : σ → Prop} {post : α → σ → Prop} {fail : Fault → σ → Prop}
    {result : Except Fault α} (ok : ∀ a s, result = .ok a → pre s → post a s)
    (error : ∀ fault s, result = .error fault → pre s → fail fault s) :
    Meets pre (Edit.ofExcept result) post fail := by
  intro s hpre
  cases result with
  | ok a => exact ok a s rfl hpre
  | error fault => exact error fault s rfl hpre

end StackScript
