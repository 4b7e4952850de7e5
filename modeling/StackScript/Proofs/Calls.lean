import StackScript.Proofs.Soundness

namespace StackScript

/-! The discipline of calls: an invocation takes its arguments from the operand stack and leaves one
value of its declared type there, and outside of statements the stack is empty. -/

variable {unit : CodeUnit} {main : Nat → List Shape → Prop} {a b : Activity} {m m' : Machine}

namespace Configured

theorem ip_eq (configured : Configured unit main a m) : m.ip = a.ip := by
  obtain ⟨layout, shapes, rests, -⟩ := configured
  exact rests.ip_eq

theorem stack_eq (configured : Configured unit main a m) : m.stack.toList = a.stack.reverse := by
  obtain ⟨layout, shapes, rests, -⟩ := configured
  rw [← rests.stack_eq, List.reverse_reverse]

theorem frames_size (configured : Configured unit main a m) :
    m.frames.size = a.waiting.length := by
  obtain ⟨layout, shapes, rests, waits, -⟩ := configured
  rw [StackScript.frames_size rests, waits.length]

theorem owner_eq (configured : Configured unit main a m) :
    a.owner = a.waiting.head?.map Pending.callee := by
  obtain ⟨layout, shapes, rests, waits, -⟩ := configured
  cases a
  cases waits with
  | nobody => rfl
  | caller => rfl

theorem waiting_eq_nil (configured : Configured unit main a m) (outside : a.owner = none) :
    a.waiting = [] := by
  have owner := configured.owner_eq
  rw [outside] at owner
  cases waiting : a.waiting with
  | nil => rfl
  | cons caller waiting =>
      rw [waiting] at owner
      cases owner

theorem empty (configured : Configured unit main a m) (outside : a.owner = none)
    (operands : a.operands = []) : m.stack = #[] ∧ m.frames = #[] := by
  have waiting := configured.waiting_eq_nil outside
  have stack := configured.stack_eq
  have frames := configured.frames_size
  rw [Activity.stack, operands, waiting] at stack
  rw [waiting] at frames
  exact ⟨Array.toList_eq_nil_iff.mp stack, Array.eq_empty_of_size_eq_zero frames⟩

end Configured

/-! Invocations. -/

/-- An invocation: the machine `before` enters it, for so many more steps its frame is the active
one or below it, then `last` is about to leave it and `after` has left it. -/
structure Machine.Invocation (unit : CodeUnit) (before last after : Machine) (steps : Nat) :
    Prop where
  run : runFor unit (steps + 1) before = (.running, last)
  inside : ∀ t ≤ steps, before.frames.size < (before.later unit (t + 1)).frames.size
  top : last.frames.size = before.frames.size + 1
  left : runFor unit 1 last = (.running, after)

/-- What a call of a function has done when it has returned: the arguments have gone from the
stack, and one value of the declared type is there. -/
def Machine.Returned (unit : CodeUnit) (index : UInt32) (before after : Machine) : Prop :=
  ∃ (entry : Entry) (params : List Ty) (code : UInt32) (rest arguments : List Operand)
    (result : Value),
    unit.table[index.toNat]? = some entry ∧ entry.storage = .function params code ∧
      before.stack.toList = rest ++ arguments ∧ arguments.length = params.length ∧
      after.stack.toList = rest ++ [.value result] ∧ result.HasTy entry.ty

/-- Bodies that wait keep waiting until a return goes below them. -/
theorem Activity.Moves.suffix {base : List Pending} (moves : a.Moves unit b)
    (suffix : base <:+ a.waiting) (deep : base.length ≤ b.waiting.length) :
    base <:+ b.waiting := by
  cases moves with
  | forward decoded stays later => exact suffix
  | enter decoded found storage room split all =>
      exact suffix.trans (List.suffix_cons _ _)
  | leave decoded active found typed empty called =>
      rw [called] at suffix
      rcases List.suffix_cons_iff.mp suffix with whole | below
      · rw [whole] at deep
        exact absurd deep (Nat.not_succ_le_self _)
      · exact below

theorem Configured.run_suffix {kept : Activity → Machine → Prop} {base : List Pending} {steps : Nat}
    (configured : Configured unit unit.Stops a m) (start : kept a m)
    (next : ∀ {a : Activity} {m m' : Machine}, Configured unit unit.Stops a m → kept a m →
      Machine.step unit m = .ok .running m' →
        ∃ b, Configured unit unit.Stops b m' ∧ a.Moves unit b ∧ kept b m')
    (suffix : base <:+ a.waiting) (run : Machine.runFor unit steps m = (.running, m'))
    (deep : ∀ t ≤ steps, base.length ≤ (m.later unit t).frames.size) :
    ∃ b, Configured unit unit.Stops b m' ∧ kept b m' ∧ base <:+ b.waiting := by
  induction steps generalizing a m with
  | zero =>
      cases run
      exact ⟨a, configured, start, suffix⟩
  | succ steps induction =>
      obtain ⟨middle, stepped, rest⟩ := Machine.runFor_succ run rfl
      obtain ⟨b, configured', moves, held⟩ := next configured start stepped
      have later : ∀ t ≤ steps, base.length ≤ (middle.later unit t).frames.size := by
        intro t bound
        have inside := deep (t + 1) (Nat.succ_le_succ bound)
        rwa [Machine.later_step stepped] at inside
      have entered := later 0 (Nat.zero_le steps)
      rw [Machine.later, Machine.runFor, configured'.frames_size] at entered
      exact induction configured' held (moves.suffix suffix entered) rest later

theorem Configured.enters {index : UInt32} {width : Nat}
    (configured : Configured unit unit.Stops a m) (linked : unit.Linked)
    (called : unit.instructionAt? m.ip = some (.call index, width))
    (stepped : Machine.step unit m = .ok .running m') :
    ∃ (entry : Entry) (params : List Ty) (code : UInt32) (arguments rest : List Operand),
      unit.table[index.toNat]? = some entry ∧ entry.storage = .function params code ∧
        a.operands = arguments ++ rest ∧ arguments.length = params.length ∧
        Configured unit unit.Stops
          { ip := code.toNat
            owner := some index
            operands := arguments
            waiting := { resume := m.ip + width, callee := index, operands := rest } :: a.waiting }
          m' := by
  obtain ⟨b, configured', moves⟩ := configured.next linked stepped
  rw [configured.ip_eq] at called ⊢
  cases moves with
  | forward decoded stays later =>
      rw [called] at decoded
      cases decoded
      cases stays
  | enter decoded found storage room split all =>
      rw [called] at decoded
      cases decoded
      exact ⟨_, _, _, _, _, found, storage, split, all, configured'⟩
  | leave decoded active found typed empty popped =>
      rw [called] at decoded
      cases decoded

theorem Configured.leaves {index : UInt32} {width : Nat}
    (configured : Configured unit unit.Stops a m) (linked : unit.Linked)
    (returns : unit.instructionAt? m.ip = some (.ret index, width))
    (stepped : Machine.step unit m = .ok .running m') :
    ∃ (entry : Entry) (owner : Option UInt32) (caller : Pending) (waiting : List Pending)
      (result : Value),
      a.owner = some index ∧ unit.table[index.toNat]? = some entry ∧ result.HasTy entry.ty ∧
        a.waiting = caller :: waiting ∧
        Configured unit unit.Stops
          { ip := caller.resume, owner, operands := .value result :: caller.operands, waiting }
          m' := by
  obtain ⟨b, configured', moves⟩ := configured.next linked stepped
  rw [configured.ip_eq] at returns
  cases moves with
  | forward decoded stays later =>
      rw [returns] at decoded
      cases decoded
      cases stays
  | enter decoded found storage room split all =>
      rw [returns] at decoded
      cases decoded
  | leave decoded active found typed empty popped =>
      rw [returns] at decoded
      cases decoded
      exact ⟨_, _, _, _, _, active, found, typed, popped, configured'⟩

theorem Configured.returned {before last after : Machine} {steps width width' : Nat}
    {index other : UInt32} (configured : Configured unit unit.Stops a before)
    (linked : unit.Linked)
    (called : unit.instructionAt? before.ip = some (.call index, width))
    (invocation : Machine.Invocation unit before last after steps)
    (returns : unit.instructionAt? last.ip = some (.ret other, width')) :
    Machine.Returned unit index before after ∧ after.frames.size = before.frames.size ∧
      after.ip = before.ip + width := by
  obtain ⟨first, entered, run⟩ := Machine.runFor_succ invocation.run rfl
  obtain ⟨_, stepped, left⟩ := Machine.runFor_succ invocation.left rfl
  cases left
  obtain ⟨entry, params, code, arguments, rest, found, storage, split, all, inside⟩ :=
    configured.enters linked called entered
  have deep : ∀ t ≤ steps, a.waiting.length + 1 ≤ (first.later unit t).frames.size := by
    intro t bound
    have inside := invocation.inside t bound
    rwa [configured.frames_size, Machine.later_step entered] at inside
  have next {a : Activity} {m m' : Machine} (configured : Configured unit unit.Stops a m)
      (_ : True) (stepped : Machine.step unit m = .ok .running m') :
      ∃ b, Configured unit unit.Stops b m' ∧ a.Moves unit b ∧ True := by
    obtain ⟨b, configured', moves⟩ := configured.next linked stepped
    exact ⟨b, configured', moves, trivial⟩
  obtain ⟨c, atReturn, -, suffix⟩ :=
    inside.run_suffix trivial next List.suffix_rfl run deep
  have depth : c.waiting.length = a.waiting.length + 1 := by
    rw [← atReturn.frames_size, ← configured.frames_size, invocation.top]
  have waiting := (suffix.eq_of_length depth.symm).symm
  obtain ⟨entry', owner, caller, others, result, active, found', typed, popped, resumed⟩ :=
    atReturn.leaves linked returns stepped
  have callee := atReturn.owner_eq
  rw [waiting] at callee popped
  cases popped
  obtain rfl : index = other := Option.some.inj (callee.symm.trans active)
  obtain rfl : entry = entry' := Option.some.inj (found.symm.trans found')
  have stack := configured.stack_eq
  rw [Activity.stack, split, List.append_assoc, List.reverse_append] at stack
  refine ⟨⟨entry, params, code, _, arguments.reverse, result, found, storage, stack, ?_, ?_,
    typed⟩, ?_, resumed.ip_eq⟩
  · rw [List.length_reverse, all]
  · rw [resumed.stack_eq, Activity.stack, List.cons_append, List.reverse_cons]
  · rw [resumed.frames_size, configured.frames_size]

/-! Where control can go on in a body. -/

/-- The places where the body goes on behind an instruction. -/
def Instruction.nexts (ip width : Nat) : Instruction → List Nat
  | .jump target => [target.toNat]
  | .jumpIfFalse target => [ip + width, target.toNat]
  | .stop | .ret _ => []
  | _ => [ip + width]

theorem Instruction.Effect.nexts_eq {table : List Entry} {instruction : Instruction}
    {before after : List Shape} (effect : instruction.Effect table before after) (ip width : Nat) :
    instruction.nexts ip width = [ip + width] := by
  cases effect <;> rfl

namespace CodeUnit

variable {goal : Nat → List Shape → Prop} {ip width : Nat} {shapes : List Shape}

theorem lt_next {instruction : Instruction}
    (decoded : unit.instructionAt? ip = some (instruction, width)) : ip < ip + width :=
  Nat.lt_add_of_pos_right (Instruction.decode?_width_pos decoded)

theorem LeadsTo.arrives_or_goes_on (leads : unit.LeadsTo goal ip shapes) :
    goal ip shapes ∨ ∃ instruction width,
      unit.instructionAt? ip = some (instruction, width) ∧ instruction.nexts ip width ≠ [] ∧
        ∀ next ∈ instruction.nexts ip width, ip < next ∧
          ∃ shapes', unit.LeadsTo goal next shapes' := by
  cases leads with
  | arrive reached => exact .inl reached
  | step decoded effect rest =>
      refine .inr ⟨_, _, decoded, ?_⟩
      rw [effect.nexts_eq]
      exact ⟨List.cons_ne_nil _ _, List.forall_mem_singleton.mpr ⟨lt_next decoded, _, rest⟩⟩
  | call decoded found storage covers rest =>
      exact .inr ⟨_, _, decoded, List.cons_ne_nil _ _,
        List.forall_mem_singleton.mpr ⟨lt_next decoded, _, rest⟩⟩
  | jump decoded forward rest =>
      exact .inr ⟨_, _, decoded, List.cons_ne_nil _ _,
        List.forall_mem_singleton.mpr ⟨forward, _, rest⟩⟩
  | branch decoded forward onTrue onFalse =>
      exact .inr ⟨_, _, decoded, List.cons_ne_nil _ _, List.forall_mem_cons.mpr
        ⟨⟨lt_next decoded, _, onTrue⟩, List.forall_mem_singleton.mpr ⟨forward, _, onFalse⟩⟩⟩

theorem LeadsTo.stops {owner : Option UInt32}
    (leads : unit.LeadsTo (unit.Ends unit.Stops owner) ip shapes)
    (decoded : unit.instructionAt? ip = some (.stop, width)) : owner = none ∧ shapes = [] := by
  rcases leads.arrives_or_goes_on with reached | ⟨instruction, width', decoded', more, -⟩
  · cases owner with
    | none => exact ⟨rfl, reached.1⟩
    | some index =>
        obtain ⟨-, width', decoded'⟩ := reached
        rw [decoded] at decoded'
        cases decoded'
  · rw [decoded] at decoded'
    cases decoded'
    exact absurd rfl more

theorem LeadsTo.not_returns {index : UInt32} {shapes' : List Shape}
    (leads : unit.LeadsTo unit.Stops ip shapes) :
    ¬ unit.LeadsTo (unit.Returns index) ip shapes' := by
  intro returns
  -- Both go on at the same place, and in the end it is a stop and a return.
  induction left : unit.code.length - ip using Nat.strongRecOn
    generalizing ip shapes shapes' with
  | ind left induction =>
      rcases leads.arrives_or_goes_on with ⟨rfl, width, decoded⟩ | ⟨i, width, decoded, more, on⟩
      · have owner : unit.LeadsTo (unit.Ends unit.Stops (some index)) ip shapes' := returns
        cases (owner.stops decoded).1
      · rcases returns.arrives_or_goes_on with ⟨-, width', last⟩ | ⟨i', width', decoded', -, on'⟩
        · rw [decoded] at last
          cases last
          exact more rfl
        · rw [decoded] at decoded'
          cases decoded'
          obtain ⟨next, member⟩ := List.exists_mem_of_ne_nil _ more
          obtain ⟨later, shapes, leads⟩ := on next member
          obtain ⟨-, shapes', returns⟩ := on' next member
          have inside := lt_length_of_instructionAt? decoded
          exact induction _ (by omega) leads returns rfl

theorem LeadsTo.le_place {place : Nat}
    (leads : unit.LeadsTo (fun ip shapes => ip = place ∧ shapes = []) ip shapes) :
    ip ≤ place ∧ (ip = place → shapes = []) := by
  have before {ip next : Nat} {shapes : List Shape} (later : ip < next) (bound : next ≤ place) :
      ip ≤ place ∧ (ip = place → shapes = []) :=
    ⟨by omega, by omega⟩
  induction leads with
  | arrive reached => exact ⟨Nat.le_of_eq reached.1, fun _ => reached.2⟩
  | step decoded effect rest induction => exact before (lt_next decoded) induction.1
  | call decoded found storage covers rest induction => exact before (lt_next decoded) induction.1
  | jump decoded forward rest induction => exact before forward induction.1
  | branch decoded forward onTrue onFalse induction _ =>
      exact before (lt_next decoded) induction.1

end CodeUnit

/-! Between statements. -/

/-- The place of the outermost body if the active one is at `ip`. -/
def outermostOf : (ip : Nat) → List Pending → Nat
  | ip, [] => ip
  | _, caller :: waiting => outermostOf caller.resume waiting

theorem outermostOf_le {ip ip' : Nat} (later : ip ≤ ip') :
    ∀ waiting, outermostOf ip waiting ≤ outermostOf ip' waiting
  | [] => later
  | _ :: _ => Nat.le_refl _

/-- Where the code outside of functions is or waits. -/
def Activity.outermost (a : Activity) : Nat :=
  outermostOf a.ip a.waiting

theorem Activity.outermost_eq_ip (outside : a.waiting = []) : a.outermost = a.ip := by
  rw [outermost, outside, outermostOf]

theorem Activity.Moves.outermost_le (moves : a.Moves unit b) : a.outermost ≤ b.outermost := by
  cases moves with
  | forward decoded stays later => exact outermostOf_le (Nat.le_of_lt later) a.waiting
  | enter decoded found storage room split all =>
      exact outermostOf_le (Nat.le_of_lt (CodeUnit.lt_next decoded)) a.waiting
  | leave decoded active found typed empty called =>
      rw [outermost, called]
      exact Nat.le_refl _

theorem Activity.Moves.ip_lt_outermost (moves : a.Moves unit b) (outside : a.waiting = []) :
    a.ip < b.outermost := by
  cases moves with
  | forward decoded stays later =>
      rw [outermost, outside]
      exact later
  | enter decoded found storage room split all =>
      rw [outermost, outside]
      exact CodeUnit.lt_next decoded
  | leave decoded active found typed empty called =>
      rw [outside] at called
      cases called

theorem Configured.goes_on {main' : Nat → List Shape → Prop}
    (configured : Configured unit main a m) (outside : a.owner = none) (empty : a.operands = [])
    (leads : unit.LeadsTo main' a.ip []) : Configured unit main' a m := by
  obtain ⟨layout, shapes, rests, waits, -⟩ := configured
  obtain ⟨ip, owner, operands, waiting⟩ := a
  obtain rfl : owner = none := outside
  obtain rfl : operands = [] := empty
  cases waits with
  | nobody => exact ⟨[], [], rests, .nobody, .nil, leads⟩

theorem Configured.run_past {place steps : Nat}
    (configured : Configured unit (fun ip shapes => ip = place ∧ shapes = []) a m)
    (linked : unit.Linked) (behind : unit.LeadsTo unit.Stops place [])
    (run : Machine.runFor unit steps m = (.running, m')) :
    ∃ b, Configured unit (fun ip shapes => ip = place ∧ shapes = []) b m' ∨
      Configured unit unit.Stops b m' ∧ place < b.outermost := by
  induction steps generalizing a m with
  | zero =>
      cases run
      exact ⟨a, .inl configured⟩
  | succ steps induction =>
      obtain ⟨next, stepped, rest⟩ := Machine.runFor_succ run rfl
      rcases configured.step linked with ⟨outside, shapes, ⟨rfl, rfl⟩, none⟩ | meets
      · have empty : a.operands = [] := List.eq_nil_of_length_eq_zero none.symm
        have configured' := configured.goes_on outside empty behind
        obtain ⟨b, configured'', moves⟩ := configured'.next linked stepped
        have past := moves.ip_lt_outermost (configured.waiting_eq_nil outside)
        obtain ⟨c, done⟩ := configured''.run linked past
          (fun moves past => Nat.lt_of_lt_of_le past moves.outermost_le) rest
        exact ⟨c, .inr done⟩
      · rw [StepMeets, stepped] at meets
        obtain ⟨b, configured', -⟩ := meets
        exact induction configured' rest

/-- Whenever a run comes by the place, the machine is empty. -/
theorem Configured.empty_at {place steps : Nat}
    (configured : Configured unit (fun ip shapes => ip = place ∧ shapes = []) a m)
    (linked : unit.Linked) (behind : unit.LeadsTo unit.Stops place [])
    (run : Machine.runFor unit steps m = (.running, m')) (arrived : m'.ip = place) :
    m'.stack = #[] ∧ m'.frames = #[] := by
  have outside {owner : Option UInt32} {main : Nat → List Shape → Prop} {shapes : List Shape}
      (leads : unit.LeadsTo (unit.Ends main owner) place shapes) : owner = none := by
    cases owner with
    | none => rfl
    | some index => exact absurd leads behind.not_returns
  obtain ⟨b, before | ⟨after, past⟩⟩ := configured.run_past linked behind run
  · have ip := before.ip_eq
    rw [arrived] at ip
    have configured' := before
    obtain ⟨layout, shapes, rests, waits, shaped, leads⟩ := before
    rw [← ip] at leads
    have owner := outside leads
    rw [owner] at leads
    have none := leads.le_place.2 rfl
    rw [none] at shaped
    exact configured'.empty owner (List.forall₂_nil_right_iff.mp shaped)
  · have ip := after.ip_eq
    rw [arrived] at ip
    have configured' := after
    obtain ⟨layout, shapes, rests, waits, shaped, leads⟩ := after
    rw [← ip] at leads
    rw [Activity.outermost_eq_ip (configured'.waiting_eq_nil (outside leads)), ← ip] at past
    exact absurd past (Nat.lt_irrefl _)

/-- What calls and statements do to the operand stack and the frames in every run. -/
structure CallDiscipline (source : String) (unit : CodeUnit) : Prop where
  returns : ∀ {start steps width width' : Nat} {before last after : Machine} {index other : UInt32},
    Machine.After unit start before →
      unit.instructionAt? before.ip = some (.call index, width) →
      Machine.Invocation unit before last after steps →
      unit.instructionAt? last.ip = some (.ret other, width') →
        Machine.Returned unit index before after ∧ after.frames.size = before.frames.size ∧
          after.ip = before.ip + width
  /-- At the start of the statements `back`, behind the statements `front`. -/
  between : ∀ {r : Registry} {front back : List Stmt} {steps : Nat} {m : Machine},
    Compiled source r (front ++ back) unit → Machine.After unit steps m →
      m.ip = (Compilation.prologue (r.declaredIn .root)).size +
        (Stmt.emissionOf front).inline.size →
        m.stack = #[] ∧ m.frames = #[]
  stop : ∀ {steps width : Nat} {m : Machine}, Machine.After unit steps m →
    unit.instructionAt? m.ip = some (.stop, width) → m.stack = #[] ∧ m.frames = #[]

namespace Builds

variable {source : String}

theorem empty_between (builds : Builds source unit) {r : Registry} {front back : List Stmt}
    (compiled : Compiled source r (front ++ back) unit) {steps : Nat}
    (after : Machine.After unit steps m)
    (arrived : m.ip = (Compilation.prologue (r.declaredIn .root)).size +
      (Stmt.emissionOf front).inline.size) : m.stack = #[] ∧ m.frames = #[] := by
  have program := compiled.typedProgram builds.clean
  have addressable := builds.addressable
  have linked := builds.linked
  obtain rfl := compiled.linked
  have start := configured_start (program.front_leads addressable)
  refine start.empty_at linked (program.back_leads addressable) after ?_
  rw [arrived, TypedProgram.boundary, (Compilation.prologue_holds _).size,
    (Stmt.emissionOf_holds front).inline.size]

theorem empty_at_stop (builds : Builds source unit) {steps width : Nat}
    (after : Machine.After unit steps m)
    (stop : unit.instructionAt? m.ip = some (.stop, width)) :
    m.stack = #[] ∧ m.frames = #[] := by
  obtain ⟨b, configured, -⟩ := builds.configured.run builds.linked trivial (fun _ _ => trivial) after
  have configured' := configured
  obtain ⟨layout, shapes, rests, waits, shaped, leads⟩ := configured'
  rw [configured.ip_eq] at stop
  obtain ⟨outside, rfl⟩ := leads.stops stop
  exact configured.empty outside (List.forall₂_nil_right_iff.mp shaped)

/-- Calls of a compiled program keep the stack of their callers, and statements leave nothing
there. -/
theorem callDiscipline (builds : Builds source unit) : CallDiscipline source unit where
  returns := by
    intro start steps width width' before last after index other reached called invocation returns
    obtain ⟨a, configured, -⟩ :=
      builds.configured.run builds.linked trivial (fun _ _ => trivial) reached
    exact configured.returned builds.linked called invocation returns
  between := fun compiled after arrived => builds.empty_between compiled after arrived
  stop := fun after stop => builds.empty_at_stop after stop

theorem identity_returned :
    ∃ before last after : Machine,
      Machine.After (compile "function f(int n) of int { f = n } int r r = f(1)").unit 9 before ∧
      Machine.Invocation (compile "function f(int n) of int { f = n } int r r = f(1)").unit before
        last after 5 ∧
      Machine.Returned (compile "function f(int n) of int { f = n } int r r = f(1)").unit 7 before
        after ∧
      after.frames.size = before.frames.size ∧ after.ip = before.ip + 5 := by
  have builds : Builds "function f(int n) of int { f = n } int r r = f(1)"
      (compile "function f(int n) of int { f = n } int r r = f(1)").unit :=
    .of_compile (by decide +kernel) (by decide +kernel) (by decide +kernel)
  generalize same : (compile "function f(int n) of int { f = n } int r r = f(1)").unit = unit
    at builds ⊢
  have reached : Machine.After unit 9 ((Machine.initial unit.table).later unit 9) :=
    Machine.runFor_later (by subst same; decide +kernel)
  generalize before_eq : (Machine.initial unit.table).later unit 9 = before at reached
  have invocation : Machine.Invocation unit before (before.later unit 6)
      ((before.later unit 6).later unit 1) 5 :=
    { run := Machine.runFor_later (by subst same before_eq; decide +kernel)
      inside := by subst same before_eq; decide +kernel
      top := by subst same before_eq; decide +kernel
      left := Machine.runFor_later (by subst same before_eq; decide +kernel) }
  have called : unit.instructionAt? before.ip = some (.call 7, 5) := by
    subst same before_eq
    decide +kernel
  have returns : unit.instructionAt? (before.later unit 6).ip = some (.ret 7, 5) := by
    subst same before_eq
    decide +kernel
  exact ⟨before, _, _, reached, invocation,
    builds.callDiscipline.returns reached called invocation returns⟩

end Builds

end StackScript
