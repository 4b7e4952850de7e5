import Mathlib.Data.Nat.Find
import StackScript.Proofs.Addresses

namespace StackScript

/-! Runs through a piece of code in one invocation: calls return to behind themselves, and what
operands refer to stays. -/

variable {unit : CodeUnit} {layout layout' layout'' : Layout} {m m' before last : Machine}
variable {start steps : Nat} {source : String}

namespace Layout

theorem grows_refl (layout : Layout) : layout.Grows layout := by
  simpa using layout.grows_append []

theorem Grows.trans (first : layout.Grows layout') (second : layout'.Grows layout'') :
    layout.Grows layout'' := by
  intro frame outline active
  obtain ⟨resume, rest, active'⟩ := first frame outline active
  obtain ⟨resume', rest', active''⟩ := second frame _ active'
  exact ⟨resume', rest ++ rest', by rw [active'', List.append_assoc]⟩

/-- Frames that are left were not among those that have grown. -/
theorem Grows.dropLast (grows : layout.Grows layout')
    (deep : layout.length ≤ layout'.dropLast.length) : layout.Grows layout'.dropLast := by
  intro frame outline active
  obtain ⟨resume, rest, active'⟩ := grows frame outline active
  have inside := (List.getElem?_eq_some_iff.mp active).1
  refine ⟨resume, rest, ?_⟩
  rw [List.getElem?_dropLast, if_pos (by rw [List.length_dropLast] at deep; omega), active']

/-- The same frames, which may have grown. -/
structure Within (layout layout' : Layout) : Prop where
  grows : layout.Grows layout'
  length_eq : layout'.length = layout.length

theorem Within.refl (layout : Layout) : layout.Within layout where
  grows := layout.grows_refl
  length_eq := rfl

theorem Within.trans (first : layout.Within layout') (second : layout'.Within layout'') :
    layout.Within layout'' where
  grows := first.grows.trans second.grows
  length_eq := second.length_eq.trans first.length_eq

end Layout

namespace Machine

/-- A run from one machine to another that never leaves the frames of the first. -/
structure Remains (unit : CodeUnit) (before last : Machine) (steps : Nat) : Prop where
  run : runFor unit steps before = (.running, last)
  inside : ∀ t ≤ steps, before.frames.size ≤ (before.later unit t).frames.size

/-- A run in an invocation, whose frame is the active one at its end again. -/
structure Stretch (unit : CodeUnit) (before last : Machine) (steps : Nat) : Prop
    extends Remains unit before last steps where
  top : last.frames.size = before.frames.size

theorem Stretch.behind {t : Nat} (stretch : Stretch unit before last steps)
    (run : runFor unit t before = (.running, m)) (bound : t ≤ steps)
    (same : m.frames.size = before.frames.size) : Stretch unit m last (steps - t) where
  run := by
    rw [← runFor_add run, Nat.add_sub_cancel' bound]
    exact stretch.run
  inside := by
    intro k inside
    rw [same, ← later_add run]
    exact stretch.inside (t + k) (by omega)
  top := stretch.top.trans same.symm

theorem layout_length (m : Machine) : m.layout.length = m.frames.size := by
  simp [layout]

theorem After.grows (after : After unit start m) (run : runFor unit steps m = (.running, m'))
    (deep : ∀ t ≤ steps, layout.length ≤ (m.later unit t).frames.size)
    (grown : layout.Grows m.layout) : layout.Grows m'.layout := by
  induction steps generalizing start m with
  | zero =>
      cases run
      exact grown
  | succ steps induction =>
      obtain ⟨next, stepped, rest⟩ := runFor_succ run rfl
      have first := runFor_one stepped rfl
      have onwards : layout.Grows next.layout := by
        have size := deep 1 (Nat.le_add_left 1 steps)
        rw [later, first, ← layout_length] at size
        rcases (step_does after.sound stepped).2 with ⟨-, halted⟩ | ⟨i, width, decoded, does⟩
        · cases halted
        · rcases does.layout_cases with grows | ⟨-, same⟩
          · exact grown.trans grows
          · rw [same] at size ⊢
            exact grown.dropLast size
      refine induction (after.add first) rest (fun t bound => ?_) onwards
      have inside := deep (t + 1) (Nat.succ_le_succ bound)
      rwa [later_step stepped] at inside

theorem Remains.grows (remains : Remains unit before last steps)
    (after : After unit start before) : before.layout.Grows last.layout :=
  after.grows remains.run (fun t bound => by
    rw [layout_length]
    exact remains.inside t bound) before.layout.grows_refl

end Machine

theorem Builds.exists_configured (builds : Builds source unit) (after : Machine.After unit start m) :
    ∃ a, Configured unit unit.Stops a m := by
  obtain ⟨a, configured, -⟩ :=
    builds.configured.run builds.linked trivial (fun _ _ => trivial) after
  exact ⟨a, configured⟩

theorem Configured.typed {a : Activity} (configured : Configured unit unit.Stops a m) :
    m.Typed unit.table := by
  obtain ⟨layout, shapes, rests, -⟩ := configured
  exact rests.typed

theorem Configured.exists_ret {a : Activity} (configured : Configured unit unit.Stops a m)
    (linked : unit.Linked) (stepped : Machine.step unit m = .ok .running m')
    (less : m'.frames.size < m.frames.size) :
    (∃ index width, unit.instructionAt? m.ip = some (.ret index, width)) ∧
      m.frames.size = m'.frames.size + 1 := by
  obtain ⟨b, configured', moves⟩ := configured.next linked stepped
  rw [configured.ip_eq]
  rw [configured.frames_size, configured'.frames_size] at less ⊢
  cases moves with
  | forward decoded stays later => exact absurd less (Nat.lt_irrefl _)
  | enter decoded found storage room split all =>
      exact absurd less (Nat.not_lt_of_le (Nat.le_succ _))
  | leave decoded active found typed empty called =>
      exact ⟨⟨_, _, decoded⟩, by rw [called, List.length_cons]⟩

namespace Machine

theorem Stretch.exists_invocation {index : UInt32} {width : Nat} (builds : Builds source unit)
    (after : After unit start before)
    (called : unit.instructionAt? before.ip = some (.call index, width))
    (stretch : Stretch unit before last steps) (more : steps ≠ 0) :
    ∃ count middle resumed other width', count + 2 ≤ steps ∧
      Invocation unit before middle resumed count ∧
      unit.instructionAt? middle.ip = some (.ret other, width') := by
  obtain ⟨steps, rfl⟩ := Nat.exists_eq_succ_of_ne_zero more
  obtain ⟨a, configured⟩ := builds.exists_configured after
  obtain ⟨first, entered, rest⟩ := runFor_succ stretch.run rfl
  have into : first.frames.size = before.frames.size + 1 := by
    obtain ⟨entry, params, code, arguments, below, found, storage, split, all, inside⟩ :=
      configured.enters builds.linked called entered
    rw [inside.frames_size, configured.frames_size, List.length_cons]
  -- The first time that the frame of the call is the active one again.
  have back : ∃ t, t ≤ steps ∧ (before.later unit (t + 1)).frames.size ≤ before.frames.size :=
    ⟨steps, Nat.le_refl _, by rw [later, stretch.run]; exact Nat.le_of_eq stretch.top⟩
  obtain ⟨bound, left⟩ := Nat.find_spec back
  have earlier {t : Nat} (sooner : t < Nat.find back) :
      before.frames.size < (before.later unit (t + 1)).frames.size := by
    have never := Nat.find_min back sooner
    by_contra low
    exact never ⟨by omega, Nat.le_of_not_lt low⟩
  generalize Nat.find back = found at bound left earlier
  cases found with
  | zero =>
      rw [later, runFor_one entered rfl, into] at left
      exact absurd left (Nat.not_succ_le_self _)
  | succ count =>
      have whole := runFor_prefix stretch.run (t := count + 1 + 1) (by omega)
      obtain ⟨middle, run, leaves⟩ := runFor_split whole
      obtain ⟨resumed, stepped, done⟩ := runFor_succ leaves rfl
      cases done
      have after' := after.add run
      obtain ⟨b, configured'⟩ := builds.exists_configured after'
      have above := earlier (Nat.lt_succ_self count)
      rw [later, run] at above
      have kept := stretch.inside (count + 1 + 1) (by omega)
      obtain ⟨⟨other, width', returns⟩, size⟩ :=
        configured'.exists_ret builds.linked stepped (by simp only at above left ⊢; omega)
      refine ⟨count, middle, _, other, width', by omega, ⟨run, ?_, ?_, leaves⟩, returns⟩
      · intro t inside
        exact earlier (by omega)
      · simp only at above left
        omega

end Machine

namespace CodeUnit

variable {target place width : Nat} {wanted : Layout → List Operand → Prop}
variable {operands below : List Operand}

/-- A run that is at a place with these frames and operands, and gets past the target in the same
invocation, comes by the target with what is wanted. -/
def Passes (unit : CodeUnit) (target : Nat) (wanted : Layout → List Operand → Prop) (place : Nat)
    (layout : Layout) (operands : List Operand) : Prop :=
  ∀ ⦃start steps : Nat⦄ ⦃before last : Machine⦄, Machine.After unit start before →
    before.Rests unit.table place layout operands → Machine.Stretch unit before last steps →
      target ≤ last.ip → ∃ t ≤ steps, ∃ layout' operands', wanted layout' operands' ∧
        (before.later unit t).Rests unit.table target layout' operands'

namespace Passes

theorem arrive (fine : wanted layout operands) : unit.Passes target wanted target layout operands :=
  fun _ steps _ _ _ rests _ _ => ⟨0, Nat.zero_le steps, layout, operands, fine, rests⟩

theorem onwards {place' count : Nat} {operands' : List Operand}
    (rest : unit.Passes target wanted place' layout' operands')
    (after : Machine.After unit start before) (stretch : Machine.Stretch unit before last steps)
    (past : target ≤ last.ip) (run : Machine.runFor unit count before = (.running, m))
    (bound : count ≤ steps) (same : m.frames.size = before.frames.size)
    (rests : m.Rests unit.table place' layout' operands') :
    ∃ t ≤ steps, ∃ layout'' operands'', wanted layout'' operands'' ∧
      (before.later unit t).Rests unit.table target layout'' operands'' := by
  obtain ⟨t, sooner, layout'', operands'', fine, there⟩ :=
    rest (after.add run) rests (stretch.behind run bound same) past
  refine ⟨count + t, by omega, layout'', operands'', fine, ?_⟩
  rwa [Machine.later_add run]

theorem steps_ne_zero (rests : before.Rests unit.table place layout operands)
    (stretch : Machine.Stretch unit before last steps) (past : target ≤ last.ip)
    (early : place < target) : steps ≠ 0 := by
  rintro rfl
  have same := stretch.run
  cases same
  rw [rests.ip_eq] at past
  exact absurd past (Nat.not_le_of_lt early)

theorem step {i : Instruction} (decoded : unit.instructionAt? place = some (i, width))
    (early : place < target)
    (meets : Meets (Machine.Rests unit.table (place + width) layout operands)
      (Action.execute unit.table i)
      (fun _ m => ∃ place' operands', m.Rests unit.table place' layout operands' ∧
        unit.Passes target wanted place' layout operands') (fun _ _ => True)) :
    unit.Passes target wanted place layout operands := by
  intro start steps before last after rests stretch past
  obtain ⟨steps, rfl⟩ :=
    Nat.exists_eq_succ_of_ne_zero (steps_ne_zero rests stretch past early)
  obtain ⟨next, stepped, -⟩ := Machine.runFor_succ stretch.run rfl
  have executed := stepped
  rw [Machine.step_eq (by rw [rests.ip_eq]; exact decoded)] at executed
  obtain ⟨place', operands', there, rest⟩ := meets.ok (rests.fetch width) executed
  exact rest.onwards after stretch past (Machine.runFor_one stepped rfl) (Nat.le_add_left 1 steps)
    (by rw [frames_size rests, frames_size there]) there

theorem leaves {i : Instruction} {action : Action Unit} {left : Operand → Prop}
    (decoded : unit.instructionAt? place = some (i, width)) (behind : place + width ≤ target)
    (executed : Action.execute unit.table i = do action; pure .running)
    (meets : Meets (Machine.Rests unit.table (place + width) layout operands) action
      (fun _ m => ∃ operand, left operand ∧
        m.Rests unit.table (place + width) layout (operand :: below)) (fun _ _ => True))
    (rest : ∀ operand, left operand →
      unit.Passes target wanted (place + width) layout (operand :: below)) :
    unit.Passes target wanted place layout operands := by
  apply step decoded (Nat.lt_of_lt_of_le (lt_next decoded) behind)
  rw [executed]
  apply Meets.bind meets
  intro _
  apply Meets.pure
  rintro m ⟨operand, fine, rests⟩
  exact ⟨_, _, rests, rest operand fine⟩

theorem gives {i : Instruction} {action : Action Unit} {given : Value → Prop}
    {fail : Fault → Machine → Prop} (decoded : unit.instructionAt? place = some (i, width))
    (behind : place + width ≤ target)
    (executed : Action.execute unit.table i = do action; pure .running)
    (meets : Meets (Machine.Rests unit.table (place + width) layout operands) action
      (fun _ m => ∃ v, given v ∧ m.Rests unit.table (place + width) layout (.value v :: below))
      fail)
    (rest : ∀ v, given v →
      unit.Passes target wanted (place + width) layout (.value v :: below)) :
    unit.Passes target wanted place layout operands := by
  have left : Meets (Machine.Rests unit.table (place + width) layout operands) action
      (fun _ m => ∃ operand, (∃ v, operand = .value v ∧ given v) ∧
        m.Rests unit.table (place + width) layout (operand :: below)) (fun _ _ => True) :=
    meets.mono (fun _ rests => rests)
      (fun _ _ ⟨v, fine, rests⟩ => ⟨.value v, ⟨v, rfl, fine⟩, rests⟩) (fun _ _ _ => trivial)
  apply leaves decoded behind executed left
  rintro _ ⟨v, rfl, fine⟩
  exact rest v fine

theorem jump {destination : UInt32}
    (decoded : unit.instructionAt? place = some (.jump destination, width))
    (early : place < target)
    (rest : unit.Passes target wanted destination.toNat layout operands) :
    unit.Passes target wanted place layout operands := by
  apply step decoded early
  apply Meets.bind (Action.setIp_meets destination.toNat)
  exact fun _ => Meets.pure fun _ rests => ⟨_, _, rests, rest⟩

theorem branch {destination : UInt32} {condition : Operand}
    (decoded : unit.instructionAt? place = some (.jumpIfFalse destination, width))
    (early : place < target) (truth : condition.Shaped unit.table layout (.value .bool))
    (onTrue : unit.Passes target wanted (place + width) layout below)
    (onFalse : unit.Passes target wanted destination.toNat layout below) :
    unit.Passes target wanted place layout (condition :: below) := by
  apply step decoded early
  apply Meets.bind (Action.jumpIfFalse_meets truth destination)
  intro _
  apply Meets.pure
  rintro m (rests | rests)
  · exact ⟨_, _, rests, onTrue⟩
  · exact ⟨_, _, rests, onFalse⟩

theorem call (builds : Builds source unit) {index code : UInt32} {entry : Entry}
    {params : List Ty} {arguments : List Operand}
    (decoded : unit.instructionAt? place = some (.call index, width))
    (found : unit.table[index.toNat]? = some entry)
    (storage : entry.storage = .function params code) (all : arguments.length = params.length)
    (behind : place + width ≤ target)
    (rest : ∀ layout' v, v.HasTy entry.ty → layout.Within layout' →
      unit.Passes target wanted (place + width) layout' (.value v :: below)) :
    unit.Passes target wanted place layout (arguments ++ below) := by
  intro start steps before last after rests stretch past
  have early := Nat.lt_of_lt_of_le (lt_next decoded) behind
  have more := steps_ne_zero rests stretch past early
  have called : unit.instructionAt? before.ip = some (.call index, width) := by
    rw [rests.ip_eq]
    exact decoded
  obtain ⟨count, middle, resumed, other, width', bound, invocation, returns⟩ :=
    stretch.exists_invocation builds after called more
  obtain ⟨a, configured⟩ := builds.exists_configured after
  obtain ⟨⟨entry', params', code', front, taken, result, found', storage', stack, length, stack',
    typed⟩, size, ip⟩ := configured.returned builds.linked called invocation returns
  rw [found] at found'
  obtain rfl := Option.some.inj found'
  rw [storage] at storage'
  cases storage'
  have run : Machine.runFor unit (count + 2) before = (.running, resumed) :=
    (Machine.runFor_add invocation.run 1).trans invocation.left
  have back : Machine.Remains unit before resumed (count + 2) :=
    ⟨run, fun t sooner => stretch.inside t (by omega)⟩
  obtain ⟨b, configured'⟩ := builds.exists_configured (after.add run)
  -- Both lists are what lies on the stack, and the arguments are as many.
  have same : front = below.reverse := by
    have whole := congrArg List.reverse rests.stack_eq
    rw [List.reverse_reverse, stack, List.reverse_append] at whole
    exact (List.append_inj' whole (by rw [List.length_reverse, length, all])).1
  have there : resumed.Rests unit.table (place + width) resumed.layout (.value result :: below) :=
    { typed := configured'.typed
      ip_eq := by rw [ip, rests.ip_eq]
      layout_eq := rfl
      stack_eq := by
        rw [stack', same]
        simp }
  have within : layout.Within resumed.layout :=
    { grows := rests.layout_eq ▸ back.grows after
      length_eq := by rw [Machine.layout_length, size, frames_size rests] }
  exact (rest _ _ typed within).onwards after stretch past run bound size there

end Passes

end CodeUnit

end StackScript
