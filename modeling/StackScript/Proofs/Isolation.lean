import StackScript.Proofs.Arrangement

namespace StackScript

/-! Calls are isolated from each other: an invocation always finds the cells that it allocated
itself, and behind its opening it leaves those of its callers alone. -/

/-- The dynamic record that an instruction looks up in the active frame. -/
def Instruction.resolves? (table : List Entry) : Instruction → Option UInt32
  | .putDAddr index | .syscall index _ | .ret index => some index
  | .initVar index =>
      if (table[index.toNat]?).map Entry.storage = some .ddata then some index else none
  | _ => none

theorem Instruction.allocates?_of_resolves {table : List Entry} {i : Instruction} {index : UInt32}
    (looks : i.resolves? table = some index) : i.allocates? = none := by
  cases i <;> first | rfl | cases looks

theorem Instruction.Effect.pops_le {table : List Entry} {i : Instruction}
    {shapes shapes' : List Shape} (effect : Instruction.Effect table i shapes shapes') :
    i.pops ≤ shapes.length := by
  cases effect with
  | @putIndAddr index element shape rest covers =>
      have wraps : (UInt8.ofNat index.length).toNat ≤ index.length := by
        rw [UInt8.toNat_ofNat']
        exact Nat.mod_le _ _
      have pops : (Instruction.putIndAddr (UInt8.ofNat index.length)).pops =
          (UInt8.ofNat index.length).toNat + 1 := rfl
      rw [pops, List.length_append, length_indexShapes, List.length_cons]
      omega
  | assign allowed => exact Nat.le_add_left 2 _
  | compare consistent covers => exact Nat.le_add_left 2 _
  | arith result covers => exact Nat.le_add_left 2 _
  | neg negatable covers => exact Nat.le_add_left 1 _
  | allocVars found => exact Nat.le_add_left 1 _
  | _ => exact Nat.zero_le _

namespace Machine

variable {unit : CodeUnit}

/-- The machine `before` calls a function, and so many steps behind the call `m` is at work in this
invocation. -/
structure Activation (unit : CodeUnit) (function : UInt32) (before m : Machine) (steps : Nat) :
    Prop where
  called : ∃ width, unit.instructionAt? before.ip = some (.call function, width)
  run : runFor unit (steps + 1) before = (.running, m)
  inside : ∀ t ≤ steps, before.frames.size < (before.later unit (t + 1)).frames.size
  top : m.frames.size = before.frames.size + 1

/-- Within so many steps behind the call the invocation allocated the cell for a record, and the slot
is the place of the cell in its frame. -/
def Allocated (unit : CodeUnit) (before : Machine) (steps : Nat) (index : UInt32) (slot : Nat) :
    Prop :=
  ∃ (born width : Nat) (m : Machine) (i : Instruction), born < steps ∧
    runFor unit (born + 1) before = (.running, m) ∧
      unit.instructionAt? m.ip = some (i, width) ∧ i.allocates? = some index ∧
        m.frames.size = before.frames.size + 1 ∧
          m.frames.back?.map (·.cells.length) = some slot

/-- The active frame has all cells of its function. -/
def PastOpening (unit : CodeUnit) (m : Machine) : Prop :=
  ∃ (function : UInt32) (opening : Listing) (frame : Frame), unit.Prologue function opening ∧
    m.frames.back? = some frame ∧ frame.cells.map Prod.fst = opening.cells

end Machine

/-- What holds in every run of the frames of functions that call each other. -/
structure FrameIsolation (unit : CodeUnit) : Prop where
  resolves : ∀ {start steps width slot : Nat} {before m : Machine} {function index : UInt32}
    {opening : Listing} {i : Instruction}, Machine.After unit start before →
      Machine.Activation unit function before m steps → unit.Prologue function opening →
        opening.cells[slot]? = some index → unit.instructionAt? m.ip = some (i, width) →
          i.resolves? unit.table = some index →
            Action.dynamicLocation index m = .ok (.frame before.frames.size slot) m ∧
              Machine.Allocated unit before steps index slot
  isolates : ∀ {steps frame : Nat} {m : Machine}, Machine.After unit steps m →
    m.PastOpening unit → frame + 1 < m.frames.size →
      (m.next unit).frames[frame]? = m.frames[frame]?

variable {unit : CodeUnit} {a : Activity} {m m' : Machine} {i : Instruction} {index : UInt32}
variable {width slot : Nat} {todo opening : Listing}

/-! The cells of an invocation. -/

namespace CodeUnit

theorem Planned.head?_cells {function : UInt32} (planned : unit.Planned)
    (prologue : unit.Prologue function opening) : opening.cells.head? = some function := by
  obtain ⟨entry, params, code, listed, storage, opens⟩ := prologue
  obtain ⟨opening', opens', head, -⟩ := planned.opens listed storage
  rwa [opens.unique opens'.opening]

theorem Opening.length_cells {ip : Nat} (opens : unit.Opening ip opening) :
    ∀ front back, opening = front ++ back → (Listing.cells front).length = front.length := by
  induction opens with
  | ends decoded other =>
      intro front back split
      rw [(List.append_eq_nil_iff.mp split.symm).1]
      rfl
  | allocates decoded named more induction =>
      intro front back split
      cases front with
      | nil => rfl
      | cons i front =>
          cases split
          have rest := induction front back rfl
          simp [Listing.cells, named] at rest ⊢
          exact rest

end CodeUnit

namespace Isolated

theorem frame {caller : Pending} {waiting : List Pending} (isolated : Isolated unit a todo m)
    (called : a.waiting = caller :: waiting) :
    ∃ front frame, unit.Prologue caller.callee (front ++ todo) ∧ unit.Opens a.ip todo ∧
      m.frames.back? = some frame ∧ frame.outline = (caller.resume, front.cells) ∧
        frame.outline ∈ m.layout := by
  obtain ⟨arranged, -⟩ := isolated
  generalize shape : m.layout = layout at arranged
  rw [called] at arranged
  cases arranged with
  | inside below rooted prologue opens =>
      obtain ⟨-, frame, -, back, -, outline⟩ := Machine.exists_active shape
      refine ⟨_, frame, prologue, opens, back, outline, ?_⟩
      rw [outline]
      exact List.mem_append_right _ (List.mem_singleton_self _)

theorem dynamicLocation_eq {caller : Pending} {waiting : List Pending} (planned : unit.Planned)
    (configured : Configured unit unit.Stops a m) (isolated : Isolated unit a [] m)
    (called : a.waiting = caller :: waiting) (prologue : unit.Prologue caller.callee opening)
    (placed : opening.cells[slot]? = some index) :
    Action.dynamicLocation index m = .ok (.frame waiting.length slot) m := by
  obtain ⟨front, frame, prologue', -, back, outline, member⟩ := isolated.frame called
  rw [List.append_nil] at prologue'
  obtain rfl := prologue.unique prologue'
  have owners : frame.cells.map Prod.fst = opening.cells := congrArg Prod.snd outline
  have owner : index ∈ frame.outline.2 := by
    rw [outline]
    exact List.mem_of_getElem? placed
  obtain ⟨slot', known⟩ := isolated.slotted.known _ member index owner
  obtain ⟨function, opening', prologue', placed'⟩ := isolated.slotted.placed known
  obtain rfl := planned.slot_eq prologue prologue' placed placed'
  rw [← owners, List.getElem?_map, Option.map_eq_some_iff] at placed
  obtain ⟨⟨owner, value⟩, cell, rfl⟩ := placed
  have size := configured.frames_size
  rw [called, List.length_cons] at size
  simp only [Action.dynamicLocation, back, known, cell, if_true, size, Nat.add_sub_cancel]

theorem allocates_next {caller : Pending} {waiting : List Pending}
    (configured : Configured unit unit.Stops a m) (isolated : Isolated unit a (opening.drop slot) m)
    (called : a.waiting = caller :: waiting) (prologue : unit.Prologue caller.callee opening)
    (placed : opening.cells[slot]? = some index) :
    ∃ (width : Nat) (i : Instruction), unit.instructionAt? m.ip = some (i, width) ∧
      i.allocates? = some index ∧ m.frames.size = waiting.length + 1 ∧
        m.frames.back?.map (·.cells.length) = some slot := by
  obtain ⟨front, frame, prologue', ahead, back, outline, -⟩ := isolated.frame called
  have split := prologue.unique prologue'
  obtain ⟨_, _, _, -, -, opens⟩ := prologue
  have inside : slot < opening.length := by
    rw [← opens.length_cells opening [] (List.append_nil opening).symm]
    exact (List.getElem?_eq_some_iff.mp placed).1
  have count : front.cells.length = slot := by
    have length := congrArg List.length split
    rw [List.length_append, List.length_drop] at length
    rw [opens.length_cells front _ split]
    omega
  have size := configured.frames_size
  rw [called, List.length_cons] at size
  have cells : frame.cells.length = slot := by
    have owners := congrArg (fun outline => outline.2.length) outline
    simp only [Frame.outline, List.length_map] at owners
    rw [owners, count]
  generalize rest_eq : opening.drop slot = rest at ahead split
  cases ahead with
  | settled settled =>
      have none := congrArg List.length rest_eq
      rw [List.length_drop, List.length_nil] at none
      omega
  | @allocates _ width i owner rest decoded named more =>
      rw [split, Listing.cells_append, List.getElem?_append_right (by omega), count,
        Nat.sub_self] at placed
      simp only [Listing.cells, List.filterMap_cons, named, List.getElem?_cons_zero,
        Option.some.injEq] at placed
      rw [configured.ip_eq]
      refine ⟨width, i, decoded, named.trans (congrArg some placed), size, ?_⟩
      rw [back, Option.map_some, cells]

end Isolated

namespace Configured

theorem run_in_opening {count : Nat} (configured : Configured unit unit.Stops a m)
    (linked : unit.Linked) (sound : m.Sound unit.table) (isolated : Isolated unit a todo m)
    (run : Machine.runFor unit count m = (.running, m')) (bound : count ≤ todo.length) :
    ∃ b, Configured unit unit.Stops b m' ∧ b.waiting = a.waiting ∧
      Isolated unit b (todo.drop count) m' := by
  induction count generalizing a m todo with
  | zero =>
      cases run
      exact ⟨a, configured, rfl, isolated⟩
  | succ count induction =>
      cases todo with
      | nil => cases bound
      | cons i todo =>
          obtain ⟨middle, stepped, rest⟩ := Machine.runFor_succ run rfl
          obtain ⟨b, configured', ⟨-, same⟩, isolated'⟩ :=
            configured.next_in_opening linked sound isolated stepped
          obtain ⟨c, last, same', done⟩ :=
            induction configured' (Machine.step_does sound stepped).1 isolated' rest
              (Nat.le_of_succ_le_succ bound)
          exact ⟨c, last, same'.trans same, done⟩

theorem pops_le (configured : Configured unit unit.Stops a m)
    (decoded : unit.instructionAt? a.ip = some (i, width)) : i.pops ≤ a.operands.length := by
  obtain ⟨layout, shapes, -, -, shaped, leads⟩ := configured
  rw [shaped.length_eq]
  generalize place : a.ip = ip at leads
  cases leads with
  | arrive reached =>
      subst place
      cases owner : a.owner with
      | none =>
          rw [owner] at reached
          obtain ⟨-, width', stop⟩ := reached
          rw [decoded] at stop
          cases stop
          exact Nat.zero_le _
      | some function =>
          rw [owner] at reached
          obtain ⟨-, width', ret⟩ := reached
          rw [decoded] at ret
          cases ret
          exact Nat.zero_le _
  | step decoded' effect rest =>
      subst place
      rw [decoded] at decoded'
      cases decoded'
      exact effect.pops_le
  | call decoded' found storage covers rest =>
      subst place
      rw [decoded] at decoded'
      cases decoded'
      exact Nat.zero_le _
  | jump decoded' forward rest =>
      subst place
      rw [decoded] at decoded'
      cases decoded'
      exact Nat.zero_le _
  | branch decoded' forward onTrue onFalse =>
      subst place
      rw [decoded] at decoded'
      cases decoded'
      exact Nat.succ_le_succ (Nat.zero_le _)

/-- Behind its opening a function reaches no cell of its callers. -/
theorem out_of_reach {frame : Nat} (configured : Configured unit unit.Stops a m)
    (isolated : Isolated unit a [] m) (below : frame + 1 < m.frames.size)
    (decoded : unit.instructionAt? a.ip = some (i, width)) (slot : Nat) :
    m.OutOfReach i.pops (.frame frame slot) := by
  refine ⟨frame, slot, rfl, below, fun position slot' bound held => ?_⟩
  have size := configured.stack_size
  have taken := configured.pops_le decoded
  have same := isolated.rooted rfl position frame slot' (by omega) held.lt_size held
  rw [configured.frames_size] at below
  omega

theorem next_frames {frame : Nat} (configured : Configured unit unit.Stops a m)
    (sound : m.Sound unit.table) (isolated : Isolated unit a [] m)
    (below : frame + 1 < m.frames.size) :
    (m.next unit).frames[frame]? = m.frames[frame]? := by
  have popped : m.frames.pop[frame]? = m.frames[frame]? := by
    rw [Array.getElem?_pop, if_pos (by omega)]
  have deep : a.waiting ≠ [] := by
    intro none
    rw [configured.frames_size, none] at below
    cases below
  cases stepped : Machine.step unit m with
  | ok progress m' =>
      have left : m.next unit = m' := by simp [Machine.next, Edit.outcome, stepped]
      rw [left]
      rcases (Machine.step_does sound stepped).2 with ⟨rfl, -⟩ | ⟨i, width, decoded, does⟩
      · rfl
      · rw [configured.ip_eq] at decoded
        have out := configured.out_of_reach isolated below decoded
        cases does with
        | stays plain steady => exact steady.frames out
        | jumps named steady => exact steady.frames out
        | points named belongs active => rfl
        | allocates named steady size active listed =>
            rw [isolated.arranged.allocates?_eq deep decoded] at named
            cases named
        | enters found storage =>
            have inside : frame < m.frames.size := Nat.lt_of_succ_lt below
            exact (Array.getElem?_push_lt inside).trans (Array.getElem?_eq_getElem inside).symm
        | leaves back => exact popped
  | error fault m' =>
      have left : m.next unit = m' := by simp [Machine.next, Edit.outcome, stepped]
      rw [left]
      rcases (Machine.step_fails sound stepped).2 with rfl | ⟨i, width, decoded, fails⟩
      · rfl
      · rw [configured.ip_eq] at decoded
        have out := configured.out_of_reach isolated below decoded
        cases fails with
        | stays steady => exact steady.frames out
        | leaves back => exact popped

/-! From where an invocation starts its opening to where it looks up a cell. -/

section Lookup

variable {caller : Pending} {outer : List Pending} {steps : Nat}

theorem finds_placed (entered : Configured unit unit.Stops a m) (linked : unit.Linked)
    (planned : unit.Planned) (sound : m.Sound unit.table) (begun : Isolated unit a opening m)
    (waiting : a.waiting = caller :: outer) (prologue : unit.Prologue caller.callee opening)
    (placed : opening.cells[slot]? = some index)
    (run : Machine.runFor unit steps m = (.running, m'))
    (deep : ∀ t ≤ steps, a.waiting.length ≤ (m.later unit t).frames.size)
    (top : m'.frames.size = a.waiting.length)
    (decoded : unit.instructionAt? m'.ip = some (i, width)) (other : i.allocates? = none) :
    Action.dynamicLocation index m' = .ok (.frame outer.length slot) m' := by
  obtain ⟨b, arrived, ⟨-, todo, isolated⟩, suffix⟩ :=
    entered.run_orderly linked planned ⟨sound, opening, begun⟩ List.suffix_rfl run deep
  obtain rfl : todo = [] := by
    rw [arrived.ip_eq] at decoded
    exact isolated.todo_eq_nil decoded other
  have same : a.waiting = b.waiting := by
    apply suffix.eq_of_length
    rw [← arrived.frames_size, top]
  rw [waiting] at same
  exact isolated.dynamicLocation_eq planned arrived same.symm prologue placed

theorem allocates_placed (entered : Configured unit unit.Stops a m) (linked : unit.Linked)
    (sound : m.Sound unit.table) (begun : Isolated unit a opening m)
    (waiting : a.waiting = caller :: outer) (prologue : unit.Prologue caller.callee opening)
    (placed : opening.cells[slot]? = some index)
    (run : Machine.runFor unit steps m = (.running, m'))
    (decoded : unit.instructionAt? m'.ip = some (i, width)) (other : i.allocates? = none) :
    slot < steps ∧ ∃ (middle : Machine) (width : Nat) (i : Instruction),
      Machine.runFor unit slot m = (.running, middle) ∧
        unit.instructionAt? middle.ip = some (i, width) ∧ i.allocates? = some index ∧
          middle.frames.size = outer.length + 1 ∧
            middle.frames.back?.map (·.cells.length) = some slot := by
  have known := prologue
  obtain ⟨_, _, _, -, -, opens⟩ := known
  have inside := (List.getElem?_eq_some_iff.mp placed).1
  rw [opens.length_cells opening [] (List.append_nil opening).symm] at inside
  -- At the end of the run the opening is over, so the run has gone past the cell.
  have past : slot < steps := by
    by_contra early
    obtain ⟨b, arrived, -, done⟩ := entered.run_in_opening linked sound begun run (by omega)
    rw [arrived.ip_eq] at decoded
    have none := congrArg List.length (done.todo_eq_nil decoded other)
    rw [List.length_drop, List.length_nil] at none
    omega
  obtain ⟨middle, reached, -⟩ : ∃ middle, Machine.runFor unit slot m = (.running, middle) ∧
      Machine.runFor unit (steps - slot) middle = (.running, m') := by
    apply Machine.runFor_split
    rwa [Nat.add_sub_cancel' (Nat.le_of_lt past)]
  obtain ⟨b, arrived, same, done⟩ :=
    entered.run_in_opening linked sound begun reached (Nat.le_of_lt inside)
  obtain ⟨width, i, here, named, size, count⟩ :=
    done.allocates_next arrived (same.trans waiting) prologue placed
  exact ⟨past, middle, width, i, reached, here, named, size, count⟩

end Lookup

end Configured

namespace Builds

variable {source : String} {start steps : Nat} {before : Machine} {function : UInt32}

/-- An instruction that looks a cell up finds the one that its invocation allocated. -/
theorem resolves (builds : Builds source unit) (after : Machine.After unit start before)
    (activation : Machine.Activation unit function before m steps)
    (prologue : unit.Prologue function opening) (placed : opening.cells[slot]? = some index)
    (decoded : unit.instructionAt? m.ip = some (i, width))
    (looks : i.resolves? unit.table = some index) :
    Action.dynamicLocation index m = .ok (.frame before.frames.size slot) m ∧
      Machine.Allocated unit before steps index slot := by
  have linked := builds.linked
  have planned := builds.planned
  have other := Instruction.allocates?_of_resolves looks
  obtain ⟨a, configured, sound, todo, isolated⟩ := builds.orderly after
  obtain ⟨width', called⟩ := activation.called
  have depth := configured.frames_size
  obtain rfl : todo = [] := by
    rw [configured.ip_eq] at called
    exact isolated.todo_eq_nil called rfl
  obtain ⟨first, stepped, run⟩ := Machine.runFor_succ activation.run rfl
  obtain ⟨b, opening', caller, entered, -, begun, prologue', waiting, rfl⟩ :=
    configured.next_into linked planned sound isolated called stepped
  obtain rfl := prologue.unique prologue'
  have sound' := (Machine.step_does sound stepped).1
  have deep : ∀ t ≤ steps, b.waiting.length ≤ (first.later unit t).frames.size := by
    intro t bound
    have inside := activation.inside t bound
    rw [Machine.later_step stepped] at inside
    rw [waiting, List.length_cons, ← depth]
    exact inside
  have top : m.frames.size = b.waiting.length := by
    rw [activation.top, waiting, List.length_cons, depth]
  obtain ⟨past, middle, width, i, reached, here, named, size, count⟩ :=
    entered.allocates_placed linked sound' begun waiting prologue placed run decoded other
  rw [depth]
  refine ⟨entered.finds_placed linked planned sound' begun waiting prologue placed run deep top
    decoded other, slot, width, middle, i, past, ?_, here, named, ?_, count⟩
  · rwa [Machine.runFor, stepped]
  · rw [size, depth]

/-- Whatever a function does behind its opening, the frames of its callers stay as they are. -/
theorem isolates (builds : Builds source unit) {frame : Nat} (after : Machine.After unit steps m)
    (past : m.PastOpening unit) (below : frame + 1 < m.frames.size) :
    (m.next unit).frames[frame]? = m.frames[frame]? := by
  obtain ⟨a, configured, sound, todo, isolated⟩ := builds.orderly after
  obtain ⟨function, opening, top, prologue, back, cells⟩ := past
  obtain ⟨caller, waiting, called⟩ : ∃ caller waiting, a.waiting = caller :: waiting := by
    have depth := configured.frames_size
    cases bodies : a.waiting with
    | nil =>
        rw [bodies, List.length_nil] at depth
        omega
    | cons caller waiting => exact ⟨caller, waiting, rfl⟩
  obtain ⟨front, frame', prologue', opens, back', outline, -⟩ := isolated.frame called
  obtain rfl := Option.some.inj (back.symm.trans back')
  have done : front.cells = opening.cells := (congrArg Prod.snd outline).symm.trans cells
  -- The first cell names the function, and with it the whole opening.
  have planned := builds.planned
  have head := planned.head?_cells prologue
  have head' := planned.head?_cells prologue'
  rw [Listing.cells_append, List.head?_append, done, head] at head'
  obtain rfl : function = caller.callee := Option.some.inj head'
  obtain rfl : opening = front ++ todo := prologue.unique prologue'
  have none : todo.cells = [] := by
    rw [Listing.cells_append] at done
    exact List.self_eq_append_right.mp done
  obtain rfl : todo = [] := by
    cases opens with
    | settled settled => rfl
    | allocates decoded named more => simp [Listing.cells, named] at none
  exact configured.next_frames sound isolated below

theorem frameIsolation (builds : Builds source unit) : FrameIsolation unit where
  resolves := by
    intro start steps width slot before m function index opening i after activation prologue placed
      decoded looks
    exact builds.resolves after activation prologue placed decoded looks
  isolates := by
    intro steps frame m after past below
    exact builds.isolates after past below

/-- A sum by recursion: behind the inner call, the outer one still finds its own argument, and the
return of the inner one leaves the outer frame alone. -/
theorem recursive_sum_isolated :
    ∃ before m last : Machine,
      Machine.Activation
        (compile "function f(int n) of int { f = n < 1 ? 0 : f(n - 1) + n } int r r = f(1)").unit 7
        before m 22 ∧
      Action.dynamicLocation 6 m = .ok (.frame before.frames.size 1) m ∧
      Machine.Allocated
        (compile "function f(int n) of int { f = n < 1 ? 0 : f(n - 1) + n } int r r = f(1)").unit
        before 22 6 1 ∧
      last.frames.size = 2 ∧
      (last.next
        (compile "function f(int n) of int { f = n < 1 ? 0 : f(n - 1) + n } int r r = f(1)").unit
          ).frames[0]? = last.frames[0]? := by
  have builds : Builds "function f(int n) of int { f = n < 1 ? 0 : f(n - 1) + n } int r r = f(1)"
      (compile "function f(int n) of int { f = n < 1 ? 0 : f(n - 1) + n } int r r = f(1)").unit :=
    .of_compile (by decide +kernel) (by decide +kernel) (by decide +kernel)
  generalize same :
    (compile "function f(int n) of int { f = n < 1 ? 0 : f(n - 1) + n } int r r = f(1)").unit = unit
    at builds ⊢
  -- The run is computed once, for all that it has to show.
  obtain ⟨toCall, toReturn, called, onwards, inside, top, decoded, frames, cells⟩ :
      (Machine.runFor unit 9 (.initial unit.table)).1 = .running ∧
      (Machine.runFor unit 31 (.initial unit.table)).1 = .running ∧
      unit.instructionAt? ((Machine.initial unit.table).later unit 9).ip = some (.call 7, 5) ∧
      (Machine.runFor unit 23 ((Machine.initial unit.table).later unit 9)).1 = .running ∧
      (∀ t ≤ 22, ((Machine.initial unit.table).later unit 9).frames.size <
        (((Machine.initial unit.table).later unit 9).later unit (t + 1)).frames.size) ∧
      (((Machine.initial unit.table).later unit 9).later unit 23).frames.size =
        ((Machine.initial unit.table).later unit 9).frames.size + 1 ∧
      unit.instructionAt? (((Machine.initial unit.table).later unit 9).later unit 23).ip =
        some (.putDAddr 6, 5) ∧
      ((Machine.initial unit.table).later unit 31).frames.size = 2 ∧
      ((Machine.initial unit.table).later unit 31).frames.back?.map
        (fun frame => frame.cells.map Prod.fst) = some [7, 6] := by
    subst same
    decide +kernel
  obtain ⟨listed, first, second, behind⟩ :
      unit.table[(7 : UInt32).toNat]?.map Entry.storage = some (.function [.int] 102) ∧
      unit.instructionAt? (102 : UInt32).toNat = some (.allocVar 7, 5) ∧
      unit.instructionAt? ((102 : UInt32).toNat + 5) = some (.allocVars 6, 5) ∧
      unit.instructionAt? ((102 : UInt32).toNat + 5 + 5) = some (.putDAddr 7, 5) := by
    subst same
    decide +kernel
  obtain ⟨entry, listed, storage⟩ := Option.map_eq_some_iff.mp listed
  obtain ⟨frame, back, owners⟩ := Option.map_eq_some_iff.mp cells
  have prologue : unit.Prologue 7 [.allocVar 7, .allocVars 6] :=
    ⟨entry, [.int], 102, listed, storage,
      .allocates first rfl (.allocates second rfl (.ends behind rfl))⟩
  have activation : Machine.Activation unit 7 ((Machine.initial unit.table).later unit 9) _ 22 :=
    { called := ⟨5, called⟩, run := Machine.runFor_later onwards, inside, top }
  have placed : (Listing.cells [.allocVar 7, .allocVars 6])[1]? = some 6 := rfl
  obtain ⟨resolved, allocated⟩ :=
    builds.frameIsolation.resolves (Machine.runFor_later toCall) activation prologue placed decoded
      rfl
  exact ⟨_, _, _, activation, resolved, allocated, frames,
    builds.frameIsolation.isolates (Machine.runFor_later toReturn)
      ⟨7, _, frame, prologue, back, owners⟩ (by rw [frames]; decide)⟩

end Builds

end StackScript
