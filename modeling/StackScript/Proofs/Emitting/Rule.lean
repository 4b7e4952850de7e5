import StackScript.Emitting.Rule

namespace StackScript.Emitting

/-! Rules that write code, next to those that give a tree. Both read the same and fail alike, and
the tree says what was written. -/

open Grammar (ParseState Signal Rejection)

variable {ε α β γ δ : Type}

namespace Workspace

/-- With other code in line. -/
def recode (w : Workspace) (code : CodeUnit) : Workspace :=
  { w with code }

/-- With more code behind that in line. -/
def write (w : Workspace) (unit : CodeUnit) : Workspace :=
  w.recode (w.code ++ unit)

/-- With an instruction as it is behind the code in line. -/
def push (w : Workspace) (i : Instruction) : Workspace :=
  w.recode (w.code.push i)

end Workspace

/-- What a failure leaves: the depth is that from before and, if another alternative may match, all
buffers are. -/
structure Undone (w : Workspace) (signal : Signal) (w' : Workspace) : Prop where
  depth : w'.depth = w.depth
  same : signal = .unmatched → w' = w

theorem Undone.refl (w : Workspace) (signal : Signal) : Undone w signal w :=
  ⟨rfl, fun _ => rfl⟩

theorem Undone.broken {w w' : Workspace} (depth : w'.depth = w.depth) : Undone w .broken w' :=
  ⟨depth, fun unmatched => nomatch unmatched⟩

/-- Both have read the same. A match is given as `image` says, and has left the workspace that the
tree says; a failure is the same. -/
inductive Agrees (image : α → β) (left : α → Workspace) (fails : ε → Workspace → Prop) :
    EStateM.Result ε ParseState α → EStateM.Result ε State β → Prop
  | ok (a : α) (p : ParseState) : Agrees image left fails (.ok a p) (.ok (image a) ⟨p, left a⟩)
  | error {e : ε} {w : Workspace} (fault : fails e w) (p : ParseState) :
      Agrees image left fails (.error e p) (.error e ⟨p, w⟩)

/-- Wherever it reads, a rule that finds the workspace `w` does what a rule does that gives a
tree. -/
def Mirrors (w : Workspace) (tree : EStateM ε ParseState α) (rule : EStateM ε State β)
    (image : α → β) (left : α → Workspace) (fails : ε → Workspace → Prop) : Prop :=
  ∀ p, Agrees image left fails (tree p) (rule ⟨p, w⟩)

/-- The same for a rule with a node of its own, which says what its failures leave. -/
abbrev Emits (w : Workspace) (tree : Grammar.Rule α) (rule : Rule β) (image : α → β)
    (left : α → Workspace) : Prop :=
  Mirrors w tree rule image left fun r => Undone w r.signal

/-- The same for the inside of a rule, which has found the workspace `start`. -/
abbrev Follows (start w : Workspace) (tree : Grammar.Body α) (body : Body β) (image : α → β)
    (left : α → Workspace) : Prop :=
  Mirrors w tree body image left fun f => Undone start f.signal

/-- Reading that never fails. -/
def Sure (read : EStateM ε ParseState α) : Prop :=
  ∀ p, ∃ a p', read p = .ok a p'

namespace Sure

theorem cursor : Sure (Grammar.cursor : EStateM ε ParseState Cursor) :=
  fun p => ⟨_, p, rfl⟩

theorem registry : Sure (Grammar.registry : EStateM ε ParseState Registry) :=
  fun p => ⟨_, p, rfl⟩

theorem moveTo (c : Cursor) : Sure (Grammar.moveTo c : EStateM ε ParseState Unit) :=
  fun _ => ⟨_, _, rfl⟩

theorem skipSpace : Sure (Grammar.skipSpace : EStateM ε ParseState Unit) :=
  fun _ => ⟨_, _, rfl⟩

theorem remaining : Sure (Grammar.remaining : EStateM ε ParseState Nat) :=
  fun _ => ⟨_, _, rfl⟩

theorem accept (read : Cursor → Option Cursor) :
    Sure (Grammar.accept read : EStateM ε ParseState Bool) := by
  intro p
  unfold Grammar.accept
  split
  · exact ⟨_, _, rfl⟩
  · exact ⟨_, _, rfl⟩

theorem acceptSymbol (char : Char) :
    Sure (Grammar.acceptSymbol char : EStateM ε ParseState Bool) :=
  accept _

theorem acceptKeyword (word : List Char) :
    Sure (Grammar.acceptKeyword word : EStateM ε ParseState Bool) :=
  accept _

theorem acceptOne (read : Cursor → Option (α × Cursor)) :
    Sure (Grammar.acceptOne read : EStateM ε ParseState (Option α)) := by
  intro p
  unfold Grammar.acceptOne
  split
  · exact ⟨_, _, rfl⟩
  · exact ⟨_, _, rfl⟩

theorem declare? (symbol : Symbol) :
    Sure (Grammar.declare? symbol : EStateM ε ParseState (Option Nat)) := by
  intro p
  unfold Grammar.declare?
  split
  · exact ⟨_, _, rfl⟩
  · exact ⟨_, _, rfl⟩

end Sure

/-- Whatever a rule gives is of a kind. -/
def Yields (rule : EStateM ε ParseState α) (kind : α → Prop) : Prop :=
  ∀ (p p' : ParseState) (a : α), rule p = .ok a p' → kind a

namespace Yields

variable {kind : α → Prop}

theorem pure {a : α} (holds : kind a) : Yields (Pure.pure a : EStateM ε ParseState α) kind := by
  intro p p' a run
  cases run
  exact holds

theorem bind {rule : EStateM ε ParseState β} {next : β → EStateM ε ParseState α}
    (last : ∀ b, Yields (next b) kind) : Yields (rule >>= next) kind := by
  intro p p' a run
  change EStateM.bind rule next p = _ at run
  unfold EStateM.bind at run
  split at run
  · exact last _ _ _ _ run
  · cases run

theorem ite {c : Prop} [Decidable c] {yes no : EStateM ε ParseState α} (first : Yields yes kind)
    (second : Yields no kind) : Yields (if c then yes else no) kind := by
  split
  · exact first
  · exact second

theorem fail {cause : Cause} {children : List Diagnostic} :
    Yields (Grammar.Body.fail cause children) kind := by
  intro p p' a run
  cases run

theorem pass {cause : Cause} {children : List Diagnostic} :
    Yields (Grammar.Body.pass cause children) kind := by
  intro p p' a run
  cases run

theorem close {body : Grammar.Body α} (inner : Yields body kind) : Yields body.close kind := by
  intro p p' a run
  unfold Grammar.Body.close at run
  split at run
  · rename_i matched
    cases run
    exact inner _ _ _ matched
  · cases run

end Yields

namespace Mirrors

variable {w : Workspace} {tree : EStateM ε ParseState α} {rule : EStateM ε State β}
variable {image : α → β} {left : α → Workspace} {fails : ε → Workspace → Prop}

theorem ok {p p' : ParseState} {a : α} (mirrors : Mirrors w tree rule image left fails)
    (run : tree p = .ok a p') : rule ⟨p, w⟩ = .ok (image a) ⟨p', left a⟩ := by
  have agrees := mirrors p
  rw [run] at agrees
  generalize rule ⟨p, w⟩ = written at agrees
  cases agrees
  rfl

theorem error {p p' : ParseState} {e : ε} (mirrors : Mirrors w tree rule image left fails)
    (run : tree p = .error e p') : ∃ w', rule ⟨p, w⟩ = .error e ⟨p', w'⟩ ∧ fails e w' := by
  have agrees := mirrors p
  rw [run] at agrees
  generalize rule ⟨p, w⟩ = written at agrees
  cases agrees with
  | error fault => exact ⟨_, rfl, fault⟩

theorem pure {a : α} {b : β} (gives : b = image a) (leaves : w = left a) :
    Mirrors w (Pure.pure a) (Pure.pure b) image left fails := by
  rw [gives, leaves]
  exact fun p => .ok a p

theorem throw {e : ε} (fault : fails e w) :
    Mirrors w (MonadExcept.throw e) (MonadExcept.throw e) image left fails :=
  fun p => .error fault p

theorem bind {mid : γ → Workspace} {give : γ → δ} {first : EStateM ε ParseState γ}
    {first' : EStateM ε State δ} {next : γ → EStateM ε ParseState α}
    {next' : δ → EStateM ε State β} (mirrors : Mirrors w first first' give mid fails)
    (others : ∀ c, Mirrors (mid c) (next c) (next' (give c)) image left fails) :
    Mirrors w (first >>= next) (first' >>= next') image left fails := by
  intro p
  have agrees := mirrors p
  change Agrees _ _ _ (EStateM.bind first next p) (EStateM.bind first' next' ⟨p, w⟩)
  unfold EStateM.bind
  generalize first p = read at agrees ⊢
  generalize first' ⟨p, w⟩ = written at agrees ⊢
  cases agrees with
  | ok c p' => exact others c p'
  | error fault p' => exact .error fault p'

/-- Reading writes nothing. -/
theorem scan {reads : EStateM ε ParseState α}
    (given : ∀ p p' e, reads p = .error e p' → fails e w) :
    Mirrors w reads (scan reads) id (fun _ => w) fails := by
  intro p
  unfold Emitting.scan
  cases run : reads p with
  | ok a p' => exact .ok a p'
  | error e p' => exact .error (given p p' e run) p'

theorem sure {reads : EStateM ε ParseState α} (sure : Sure reads) :
    Mirrors w reads (Emitting.scan reads) id (fun _ => w) fails := by
  refine scan fun p p' e run => ?_
  obtain ⟨a, p₁, matched⟩ := sure p
  rw [matched] at run
  cases run

theorem read {reads : EStateM ε ParseState γ} {next : γ → EStateM ε ParseState α}
    {next' : γ → EStateM ε State β} (reading : Sure reads)
    (others : ∀ c, Mirrors w (next c) (next' c) image left fails) :
    Mirrors w (reads >>= next) (Emitting.scan reads >>= next') image left fails :=
  bind (sure reading) others

/-- Writing reads nothing, so that the tree knows nothing of it yet. -/
theorem write {writes : EStateM ε State γ} {next' : γ → EStateM ε State β} {c : γ}
    {w' : Workspace} (done : ∀ p, writes ⟨p, w⟩ = .ok c ⟨p, w'⟩)
    (others : Mirrors w' tree (next' c) image left fails) :
    Mirrors w tree (writes >>= next') image left fails := by
  intro p
  change Agrees _ _ _ (tree p) (EStateM.bind writes next' ⟨p, w⟩)
  unfold EStateM.bind
  rw [done p]
  exact others p

/-- Writing that comes last. -/
theorem finish {writes : EStateM ε State β} {a : α}
    (done : ∀ p, writes ⟨p, w⟩ = .ok (image a) ⟨p, left a⟩) :
    Mirrors w (Pure.pure a) writes image left fails := by
  intro p
  rw [done p]
  exact .ok a p

/-- What is only put into another tree is written alike. -/
theorem pack {image' : γ → β} {left' : γ → Workspace} {f : α → γ}
    (mirrors : Mirrors w tree rule image left fails) (gives : ∀ a, image a = image' (f a))
    (leaves : ∀ a, left a = left' (f a)) :
    Mirrors w (tree >>= fun a => Pure.pure (f a)) rule image' left' fails := by
  rw [← bind_pure rule]
  exact mirrors.bind fun a => pure (gives a) (leaves a)

theorem emit {i : Instruction} {next' : Nat → EStateM ε State β}
    (others : Mirrors (w.push i) tree (next' w.code.size) image left fails) :
    Mirrors w tree (Emitting.emit i >>= next') image left fails :=
  write (fun _ => rfl) others

theorem append {unit : CodeUnit} {next' : Unit → EStateM ε State β}
    (others : Mirrors (w.write unit) tree (next' ()) image left fails) :
    Mirrors w tree (Emitting.append unit >>= next') image left fails :=
  write (fun _ => rfl) others

theorem appendFunctions {unit : CodeUnit} {next' : Unit → EStateM ε State β}
    (others :
      Mirrors { w with functions := w.functions ++ unit } tree (next' ()) image left fails) :
    Mirrors w tree (Emitting.appendFunctions unit >>= next') image left fails :=
  write (fun _ => rfl) others

theorem opened {next' : Nat → EStateM ε State β}
    (others : Mirrors w tree (next' w.opened) image left fails) :
    Mirrors w tree (Emitting.opened >>= next') image left fails :=
  write (fun _ => rfl) others

theorem land {jump : Nat} {code : CodeUnit} {next' : Unit → EStateM ε State β}
    (set : w.code.setAddress? (jump + 1) (UInt32.ofNat w.code.size) = some code)
    (others : Mirrors (w.recode code) tree (next' ()) image left fails) :
    Mirrors w tree (Emitting.land jump >>= next') image left fails := by
  refine write (fun p => ?_) others
  simp [Emitting.land, set, Workspace.recode]

theorem ite {c : Prop} [Decidable c] {tree₁ tree₂ : EStateM ε ParseState α}
    {rule₁ rule₂ : EStateM ε State β} (yes : c → Mirrors w tree₁ rule₁ image left fails)
    (no : ¬ c → Mirrors w tree₂ rule₂ image left fails) :
    Mirrors w (if c then tree₁ else tree₂) (if c then rule₁ else rule₂) image left fails := by
  by_cases holds : c
  · rw [if_pos holds, if_pos holds]
    exact yes holds
  · rw [if_neg holds, if_neg holds]
    exact no holds

/-- Another account of what is given and of the workspace behind it. -/
theorem congr {image' : α → β} {left' : α → Workspace}
    (mirrors : Mirrors w tree rule image left fails) (gives : ∀ a, image a = image' a)
    (leaves : ∀ a, left a = left' a) : Mirrors w tree rule image' left' fails := by
  obtain rfl := funext gives
  obtain rfl := funext leaves
  exact mirrors

/-- Only what the tree can be counts. -/
theorem congr_of {kind : α → Prop} {image' : α → β} {left' : α → Workspace}
    (mirrors : Mirrors w tree rule image left fails) (yields : Yields tree kind)
    (gives : ∀ a, kind a → image a = image' a) (leaves : ∀ a, kind a → left a = left' a) :
    Mirrors w tree rule image' left' fails := by
  intro p
  cases run : tree p with
  | ok a p' =>
      have holds := yields p p' a run
      rw [mirrors.ok run, gives a holds, leaves a holds]
      exact .ok a p'
  | error e p' =>
      obtain ⟨w', failed, fault⟩ := mirrors.error run
      rw [failed]
      exact .error fault p'

/-- A rule may be given up and its failure looked at. -/
theorem attempt {rejected : Rejection → Workspace → Prop} {tree : Grammar.Rule γ} {rule : Rule δ}
    {give : γ → δ} {mid : γ → Workspace} {next : Except Rejection γ → EStateM ε ParseState α}
    {next' : Except Rejection δ → EStateM ε State β}
    (mirrors : Mirrors w tree rule give mid rejected)
    (matched : ∀ c, Mirrors (mid c) (next (.ok c)) (next' (.ok (give c))) image left fails)
    (failed : ∀ r w', rejected r w' →
      Mirrors w' (next (.error r)) (next' (.error r)) image left fails) :
    Mirrors w (tree.attempt >>= next) (rule.attempt >>= next') image left fails := by
  intro p
  have agrees := mirrors p
  change Agrees _ _ _ (EStateM.bind tree.attempt next p) (EStateM.bind rule.attempt next' ⟨p, w⟩)
  unfold EStateM.bind Grammar.Rule.attempt Rule.attempt
  generalize tree p = read at agrees ⊢
  generalize rule ⟨p, w⟩ = written at agrees ⊢
  cases agrees with
  | ok c p' => exact matched c p'
  | error fault p' => exact failed _ _ fault p'

end Mirrors

section Nodes

variable {w start : Workspace} {tree : Grammar.Rule α} {rule : Rule β}
variable {image : α → β} {left : α → Workspace} {rejected fails : Rejection → Workspace → Prop}

namespace Mirrors

theorem fail {cause : Cause} {children : List Diagnostic} (depth : w.depth = start.depth) :
    Follows start w (Grammar.Body.fail cause children) (Body.fail cause children) image left :=
  fun p => .error (.broken depth) p

theorem pass {cause : Cause} {children : List Diagnostic} :
    Follows w w (Grammar.Body.pass cause children) (Body.pass cause children) image left :=
  fun p => .error (.refl w _) p

/-- The rule has to match, so its failures are looked at no further than for their depth. -/
theorem orFail (mirrors : Mirrors w tree rule image left rejected) (cause : Cause)
    (depth : ∀ r w', rejected r w' → w'.depth = start.depth) :
    Follows start w (tree.orFail cause) (rule.orFail cause) image left := by
  intro p
  have agrees := mirrors p
  unfold Grammar.Rule.orFail Rule.orFail
  generalize tree p = read at agrees ⊢
  generalize rule ⟨p, w⟩ = written at agrees ⊢
  cases agrees with
  | ok a p' => exact .ok a p'
  | error fault p' => exact .error (.broken (depth _ _ fault)) p'

theorem owning (part : Part γ) {new : γ}
    (mirrors : Mirrors (part.set new w) tree rule image left rejected)
    (given : ∀ r w', rejected r w' → fails r (part.set (part.get w) w')) :
    Mirrors w tree (rule.owning part new) (fun a => (image a, part.get (left a)))
      (fun a => part.set (part.get w) (left a)) fails := by
  intro p
  have agrees := mirrors p
  unfold Rule.owning
  dsimp only
  generalize tree p = read at agrees ⊢
  generalize rule ⟨p, part.set new w⟩ = written at agrees ⊢
  cases agrees with
  | ok a p' => exact .ok a p'
  | error fault p' => exact .error (given _ _ fault) p'

theorem tooDeep (given : ∀ r, fails r w) :
    Mirrors w (Grammar.tooDeep : Grammar.Rule α) (Emitting.scan Grammar.tooDeep) image left fails :=
  fun p => .error (given _) p

theorem deeper (room : w.depth < Grammar.maxNesting)
    (mirrors : Mirrors { w with depth := w.depth + 1 } tree rule image left rejected)
    (depth : ∀ a, (left a).depth = w.depth + 1)
    (given : ∀ r w', rejected r w' →
      w'.depth = w.depth + 1 ∧ fails r { w' with depth := w.depth }) :
    Mirrors w tree rule.deeper image (fun a => { left a with depth := w.depth }) fails := by
  intro p
  have agrees := mirrors p
  unfold Rule.deeper
  rw [if_pos room]
  dsimp only
  generalize tree p = read at agrees ⊢
  generalize rule ⟨p, { w with depth := w.depth + 1 }⟩ = written at agrees ⊢
  cases agrees with
  | ok a p' =>
      have back : (left a).depth - 1 = w.depth := by rw [depth a, Nat.add_sub_cancel]
      dsimp only
      rw [back]
      exact .ok a p'
  | @error r w' fault p' =>
      obtain ⟨inner, fault⟩ := given r w' fault
      have back : w'.depth - 1 = w.depth := by rw [inner, Nat.add_sub_cancel]
      dsimp only
      rw [back]
      exact .error fault p'

/-- There is no other level. -/
theorem deeper_of_full (full : Grammar.maxNesting ≤ w.depth) (given : ∀ r, fails r w) :
    Mirrors w (Grammar.tooDeep : Grammar.Rule α) rule.deeper image left fails := by
  intro p
  unfold Rule.deeper
  rw [if_neg (Nat.not_lt.mpr full)]
  exact .error (given _) p

end Mirrors

namespace Emits

/-- Rules that write nothing. -/
theorem scan (tree : Grammar.Rule α) : Emits w tree (scan tree) id fun _ => w :=
  Mirrors.scan fun _ _ _ _ => .refl w _

theorem close {tree : Grammar.Body α} {body : Body β} (mirrors : Follows w w tree body image left) :
    Emits w tree.close body.close image left := by
  intro p
  have agrees := mirrors p
  unfold Grammar.Body.close Body.close
  generalize tree p = read at agrees ⊢
  generalize body ⟨p, w⟩ = written at agrees ⊢
  cases agrees with
  | ok a p' => exact .ok a p'
  | error undone p' =>
      refine .error ?_ _
      exact undone

theorem orPass (emits : Emits w tree rule image left) (cause : Cause) :
    Follows w w (tree.orPass cause) (rule.orPass cause) image left := by
  intro p
  have agrees := emits p
  unfold Grammar.Rule.orPass Rule.orPass
  generalize tree p = read at agrees ⊢
  generalize rule ⟨p, w⟩ = written at agrees ⊢
  cases agrees with
  | ok a p' => exact .ok a p'
  | error undone p' =>
      refine .error ?_ p'
      exact undone

theorem orFail (emits : Emits w tree rule image left) (cause : Cause)
    (depth : w.depth = start.depth) :
    Follows start w (tree.orFail cause) (rule.orFail cause) image left :=
  Mirrors.orFail emits cause fun _ _ undone => undone.depth.trans depth

/-- The second rule finds the workspace of the first one. -/
theorem or {tree₂ : Grammar.Rule α} {rule₂ : Rule β} (first : Emits w tree rule image left)
    (second : Emits w tree₂ rule₂ image left) :
    Emits w (tree.or tree₂) (rule.or rule₂) image left := by
  intro p
  have agrees := first p
  unfold Grammar.Rule.or Rule.or
  generalize tree p = read at agrees ⊢
  generalize rule ⟨p, w⟩ = written at agrees ⊢
  cases agrees with
  | ok a p' => exact .ok a p'
  | @error r w' undone p' =>
      obtain ⟨signal, nodes⟩ := r
      cases signal with
      | broken =>
          refine .error ?_ p'
          exact undone
      | unmatched =>
          obtain rfl := undone.same rfl
          have agrees' := second p'
          dsimp only
          generalize tree₂ p' = read' at agrees' ⊢
          generalize rule₂ ⟨p', w'⟩ = written' at agrees' ⊢
          cases agrees' with
          | ok a p'' => exact .ok a p''
          | error undone' p'' =>
              refine .error ?_ p''
              exact undone'

/-- A failure gives the own part up, and the one from before comes back. -/
theorem owning (part : Part γ) {new : γ}
    (emits : Emits (part.set new w) tree rule image left) :
    Emits w tree (rule.owning part new) (fun a => (image a, part.get (left a)))
      fun a => part.set (part.get w) (left a) := by
  refine Mirrors.owning part emits fun r w' undone => ⟨?_, fun unmatched => ?_⟩
  · rw [part.depth_set, undone.depth, part.depth_set]
  · rw [undone.same unmatched, part.set_get]

theorem deeper (room : w.depth < Grammar.maxNesting)
    (emits : Emits { w with depth := w.depth + 1 } tree rule image left)
    (depth : ∀ a, (left a).depth = w.depth + 1) :
    Emits w tree rule.deeper image fun a => { left a with depth := w.depth } := by
  refine Mirrors.deeper room emits depth fun r w' undone => ⟨undone.depth, rfl, fun unmatched => ?_⟩
  rw [undone.same unmatched]

end Emits

end Nodes

end StackScript.Emitting
