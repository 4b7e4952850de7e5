import StackScript.Proofs.Addresses
import StackScript.Proofs.Openings

namespace StackScript

/-! Every body that waits is past its opening, the cells of a frame are those that the opening has
allocated so far, and an operand refers to no frame but that of the body it belongs to. -/

variable {unit : CodeUnit} {table : List Entry} {a : Activity} {m m' : Machine} {i : Instruction}
variable {ip width depth low high : Nat} {todo : Listing} {layout : Layout}
variable {waiting : List Pending}

/-- How many operands bodies that wait have. -/
def Pending.height (waiting : List Pending) : Nat :=
  (waiting.flatMap Pending.operands).length

theorem Pending.height_cons (caller : Pending) (waiting : List Pending) :
    height (caller :: waiting) = caller.operands.length + height waiting := by
  rw [height, List.flatMap_cons, List.length_append]
  rfl

namespace Machine

/-- Between two heights of the stack no address starts in a frame but the uppermost one of so
many. -/
def Rooted (m : Machine) (depth low high : Nat) : Prop :=
  ∀ position frame slot, low ≤ position → position < high →
    m.HoldsAt position (.frame frame slot) → frame + 1 = depth

theorem HoldsAt.lt_size {position : Nat} {root : Location} (held : m.HoldsAt position root) :
    position < m.stack.size := by
  obtain ⟨address, found, -⟩ := held
  exact (Array.getElem?_eq_some_iff.mp found).1

theorem Rooted.mono (rooted : m.Rooted depth low high)
    (held : ∀ position root, position < high → m'.HoldsAt position root → m.HoldsAt position root) :
    m'.Rooted depth low high :=
  fun position frame slot above below there =>
    rooted position frame slot above below (held position _ below there)

/-- The slots that the machine knows are those of the openings, and it knows those of all cells. -/
structure Slotted (unit : CodeUnit) (m : Machine) : Prop where
  placed : ∀ {index : UInt32} {slot : Nat}, (m.slots[index.toNat]?).join = some slot →
    ∃ (function : UInt32) (opening : Listing), unit.Prologue function opening ∧
      opening.cells[slot]? = some index
  known : ∀ outline ∈ m.layout, ∀ index ∈ outline.2,
    ∃ slot, (m.slots[index.toNat]?).join = some slot

end Machine

/-- Frames of the layout belong to the bodies that wait and to the active one, which has the
instructions `todo` of its opening before it. -/
inductive Arranged (unit : CodeUnit) (m : Machine) : Nat → Listing → Layout → List Pending → Prop
  | outside (ip : Nat) : Arranged unit m ip [] [] []
  | inside {ip : Nat} {caller : Pending} {waiting : List Pending} {layout : Layout}
      {front back : Listing} (below : Arranged unit m caller.resume [] layout waiting)
      (rooted : m.Rooted waiting.length (Pending.height waiting)
        (Pending.height (caller :: waiting)))
      (prologue : unit.Prologue caller.callee (front ++ back)) (opens : unit.Opens ip back) :
      Arranged unit m ip back (layout ++ [(caller.resume, front.cells)]) (caller :: waiting)

namespace Arranged

theorem mono (arranged : Arranged unit m ip todo layout waiting)
    (held : ∀ position root, position < Pending.height waiting → m'.HoldsAt position root →
      m.HoldsAt position root) : Arranged unit m' ip todo layout waiting := by
  induction arranged with
  | outside ip => exact .outside ip
  | inside below rooted prologue opens induction =>
      refine .inside (induction fun position root inside there => ?_) (rooted.mono held) prologue
        opens
      rw [Pending.height_cons] at held
      exact held position root (by omega) there

theorem goes_on (arranged : Arranged unit m ip [] layout waiting)
    (decoded : unit.instructionAt? ip = some (i, width)) {next : Nat}
    (on : next ∈ i.nexts ip width) : Arranged unit m next [] layout waiting := by
  generalize none : ([] : Listing) = todo at arranged
  cases arranged with
  | outside ip => exact .outside next
  | inside below rooted prologue opens =>
      subst none
      cases opens with
      | settled settled =>
          obtain ⟨decoded', -, ahead⟩ := settled
          rw [decoded] at decoded'
          cases decoded'
          exact .inside below rooted prologue (.settled (ahead next on))

theorem allocates?_eq (arranged : Arranged unit m ip [] layout waiting) (deep : waiting ≠ [])
    (decoded : unit.instructionAt? ip = some (i, width)) : i.allocates? = none := by
  generalize none : ([] : Listing) = todo at arranged
  cases arranged with
  | outside ip => exact absurd rfl deep
  | inside below rooted prologue opens =>
      subst none
      cases opens with
      | settled settled =>
          obtain ⟨decoded', other, -⟩ := settled
          rw [decoded] at decoded'
          cases decoded'
          exact other

end Arranged

/-- A body in its opening has the arguments that are still to take, and nothing else. -/
structure Isolated (unit : CodeUnit) (a : Activity) (todo : Listing) (m : Machine) : Prop where
  arranged : Arranged unit m a.ip todo m.layout a.waiting
  arguments : todo ≠ [] → a.operands.length = todo.takes
  rooted : todo = [] → m.Rooted a.waiting.length (Pending.height a.waiting) m.stack.size
  slotted : m.Slotted unit

theorem Configured.stack_size (configured : Configured unit unit.Stops a m) :
    m.stack.size = a.operands.length + Pending.height a.waiting := by
  rw [← Array.length_toList, configured.stack_eq, List.length_reverse, Activity.stack,
    List.length_append]
  rfl

/-- An instruction that allocates nothing is behind the opening. -/
theorem Isolated.todo_eq_nil (isolated : Isolated unit a todo m)
    (decoded : unit.instructionAt? a.ip = some (i, width)) (other : i.allocates? = none) :
    todo = [] := by
  obtain ⟨arranged, -⟩ := isolated
  generalize m.layout = layout at arranged
  generalize a.waiting = waiting at arranged
  cases arranged with
  | outside ip => rfl
  | inside below rooted prologue opens =>
      cases opens with
      | settled settled => rfl
      | allocates decoded' named more =>
          rw [decoded] at decoded'
          cases decoded'
          rw [other] at named
          cases named

/-! What the kinds of instructions do to the frames. -/

namespace Machine.Does

/-- An instruction that stays in its body goes on where its body goes on. -/
theorem ip_mem_nexts (does : Does table { m with ip := ip + width } i m')
    (stays : i.isLocal = true) (goes : i ≠ .stop) : m'.ip ∈ i.nexts ip width := by
  cases does with
  | stays plain steady =>
      have behind : m'.ip = ip + width := steady.ip_eq
      rw [behind]
      rcases plain with plain | ⟨target, rfl⟩
      · cases i with
        | jump target => cases plain
        | jumpIfFalse target => cases plain
        | stop => exact absurd rfl goes
        | ret index => cases stays
        | _ => exact List.mem_singleton_self _
      · exact List.mem_cons_self
  | jumps named steady =>
      have there := steady.ip_eq
      simp only at there
      rw [there]
      cases i with
      | jump target =>
          cases named
          exact List.mem_singleton_self _
      | jumpIfFalse target =>
          cases named
          exact List.mem_cons_of_mem _ (List.mem_singleton_self _)
      | _ => cases named
  | points named belongs active =>
      cases i with
      | putAddr index => exact List.mem_singleton_self _
      | putDAddr index => exact List.mem_singleton_self _
      | _ => cases named
  | allocates named steady size active listed =>
      have behind := steady.ip_eq
      simp only [allocated, behind]
      cases i with
      | allocVar index => exact List.mem_singleton_self _
      | allocVars index => exact List.mem_singleton_self _
      | _ => cases named
  | enters found storage => cases stays
  | leaves back => cases stays

theorem same_frames (does : Does table m i m') (stays : i.isLocal = true)
    (other : i.allocates? = none) : m'.layout = m.layout ∧ m'.slots = m.slots := by
  cases does with
  | stays plain steady => exact ⟨steady.layout_eq, steady.slots_eq⟩
  | jumps named steady => exact ⟨steady.layout_eq, steady.slots_eq⟩
  | points named belongs active => exact ⟨rfl, rfl⟩
  | allocates named steady size active listed =>
      rw [other] at named
      cases named
  | enters found storage => cases stays
  | leaves back => cases stays

theorem exists_allocated {index : UInt32} (does : Does table m i m')
    (named : i.allocates? = some index) :
    ∃ value m₀, m' = m₀.allocated index value ∧ m.Steady i.pops m₀ ∧
      m₀.stack.size + i.pops = m.stack.size ∧ m.frames.size ≠ 0 ∧
        index.toNat < m₀.slots.length := by
  cases does with
  | allocates named' steady size active listed =>
      obtain rfl := Option.some.inj (named.symm.trans named')
      exact ⟨_, _, rfl, steady, size, active, listed⟩
  | stays plain steady =>
      rcases plain with plain | ⟨target, rfl⟩
      · simp [Instruction.isPlain, named] at plain
      · cases named
  | @jumps _ target _ named' steady =>
      cases i with
      | jump _ => cases named
      | jumpIfFalse _ => cases named
      | _ => cases named'
  | points named' belongs active =>
      cases i with
      | putAddr _ => cases named
      | putDAddr _ => cases named
      | _ => cases named'
  | enters found storage => cases named
  | leaves back => cases named

theorem entered {index : UInt32} (does : Does table m (.call index) m') :
    ∃ entry params code, table[index.toNat]? = some entry ∧
      entry.storage = .function params code ∧
        m' = { m with
          ip := code.toNat
          frames := m.frames.push { resume := m.ip, cells := [] } } := by
  cases does with
  | enters found storage => exact ⟨_, _, _, found, storage, rfl⟩
  | stays plain steady => simp [Instruction.isPlain, Instruction.isLocal] at plain
  | jumps named steady => cases named
  | points named belongs active => cases named
  | allocates named steady size active listed => cases named

theorem left {index : UInt32} (does : Does table m (.ret index) m') :
    ∃ frame result, m.frames.back? = some frame ∧
      m' = { m with
        ip := frame.resume
        frames := m.frames.pop
        stack := m.stack.push (.value result) } := by
  cases does with
  | leaves back => exact ⟨_, _, back, rfl⟩
  | stays plain steady => simp [Instruction.isPlain, Instruction.isLocal] at plain
  | jumps named steady => cases named
  | points named belongs active => cases named
  | allocates named steady size active listed => cases named

theorem rooted (does : Does table m i m') (rooted : m.Rooted m.frames.size low m.stack.size) :
    m'.Rooted m.frames.size low m'.stack.size := by
  intro position frame slot above below held
  rcases does.holdsAt held with before | ⟨index, named, top, belongs, active⟩
  · exact rooted position frame slot above before.lt_size before
  · exact active frame slot rfl

end Machine.Does

theorem Machine.Slotted.same (slotted : m.Slotted unit) (layout : m'.layout = m.layout)
    (slots : m'.slots = m.slots) : m'.Slotted unit where
  placed := by
    rw [slots]
    exact slotted.placed
  known := by
    rw [layout, slots]
    exact slotted.known

theorem Machine.Slotted.allocated {index function : UInt32} {value : Value} {front : Layout}
    {resume : Nat} {opening back : Listing} (slotted : m.Slotted unit)
    (listed : index.toNat < m.slots.length) (frames : m.layout = front ++ [(resume, opening.cells)])
    (named : i.allocates? = some index)
    (prologue : unit.Prologue function (opening ++ i :: back)) :
    (m.allocated index value).Slotted unit := by
  obtain ⟨-, frame, -, last, -, outline⟩ := Machine.exists_active frames
  have slots : (m.allocated index value).slots =
      m.slots.set index.toNat (some opening.cells.length) := by
    have count := congrArg (fun outline => outline.2.length) outline
    simp only [Frame.outline, List.length_map] at count
    simp only [Machine.allocated, last, Option.map_some, count]
  constructor
  · intro index' slot found
    rw [slots, List.getElem?_set, if_pos listed] at found
    split at found
    · rename_i same
      obtain rfl := UInt32.toNat_inj.mp same
      obtain rfl : opening.cells.length = slot := Option.some.inj found
      refine ⟨function, _, prologue, ?_⟩
      rw [Listing.cells_append, List.getElem?_append_right (Nat.le_refl _), Nat.sub_self]
      simp [Listing.cells, named]
    · exact slotted.placed found
  · intro outline' member index' there
    rw [slots, List.getElem?_set, if_pos listed]
    split
    · exact ⟨_, rfl⟩
    · rename_i other
      rw [layout_allocated, List.mem_iff_getElem?] at member
      obtain ⟨place, found⟩ := member
      rw [List.getElem?_modify, Option.map_eq_map, Option.map_eq_some_iff] at found
      obtain ⟨before, held, rfl⟩ := found
      apply slotted.known before (List.mem_of_getElem? held)
      split at there
      · rcases List.mem_append.mp there with old | new
        · exact old
        · exact absurd (congrArg _ (List.mem_singleton.mp new).symm) other
      · exact there

/-- The only move of an instruction that allocates is the one to behind it. -/
theorem Activity.Moves.waiting_eq {b : Activity} {index : UInt32} (moves : a.Moves unit b)
    (decoded : unit.instructionAt? a.ip = some (i, width)) (named : i.allocates? = some index) :
    b.waiting = a.waiting := by
  cases moves with
  | forward decoded stays later => rfl
  | enter decoded' found storage room split all =>
      rw [decoded] at decoded'
      cases decoded'
      cases named
  | leave decoded' active found typed empty called =>
      rw [decoded] at decoded'
      cases decoded'
      cases named

/-- The active frame gets the cell that an instruction of its opening allocates. -/
theorem Machine.allocated_cells {index : UInt32} (value : Value) {front : Layout} {resume : Nat}
    {opening : Listing} (frames : m.layout = front ++ [(resume, opening.cells)])
    (named : i.allocates? = some index) :
    (m.allocated index value).layout =
      front ++ [(resume, Listing.cells (opening ++ [i]))] := by
  have last : m.frames.size - 1 = front.length := by
    have length := congrArg List.length frames
    rw [layout, List.length_map, Array.length_toList, List.length_append,
      List.length_singleton] at length
    omega
  rw [layout_allocated, frames, last, modify_last, Listing.cells_append]
  simp [Listing.cells, named]

/-! Steps. -/

namespace Configured

variable {todo : Listing}

theorem running_ne_stop (stepped : Machine.step unit m = .ok .running m')
    (decoded : unit.instructionAt? m.ip = some (i, width)) : i ≠ .stop := by
  rintro rfl
  rw [Machine.step_eq decoded] at stepped
  cases stepped

theorem next_in_opening (configured : Configured unit unit.Stops a m) (linked : unit.Linked)
    (sound : m.Sound unit.table) (isolated : Isolated unit a (i :: todo) m)
    (stepped : Machine.step unit m = .ok .running m') :
    ∃ b, Configured unit unit.Stops b m' ∧ (a.Moves unit b ∧ b.waiting = a.waiting) ∧
      Isolated unit b todo m' := by
  obtain ⟨b, configured', moves⟩ := configured.next linked stepped
  obtain ⟨arranged, arguments, -, slotted⟩ := isolated
  have count := arguments (List.cons_ne_nil _ _)
  have size := configured.stack_size
  have size' := configured'.stack_size
  generalize shape : m.layout = layout at arranged
  generalize bodies : a.waiting = waiting at arranged size
  cases arranged with
  | @inside _ caller waiting layout front _ below rooted prologue opens =>
      cases opens with
      | @allocates _ width _ index _ decoded named more =>
          rcases (Machine.step_does sound stepped).2 with ⟨-, stopped⟩ | ⟨i', width', decoded', does⟩
          · cases stopped
          rw [configured.ip_eq, decoded] at decoded'
          cases decoded'
          obtain ⟨value, m₀, rfl, steady, taken, active, listed⟩ := does.exists_allocated named
          have same := moves.waiting_eq decoded named
          have ip : b.ip = a.ip + width := by
            rw [← configured'.ip_eq, ← configured.ip_eq]
            exact steady.ip_eq
          have held (position : Nat) (root : Location)
              (there : (m₀.allocated index value).HoldsAt position root) :
              m.HoldsAt position root := steady.held there
          have frames : m₀.layout = layout ++ [(caller.resume, front.cells)] :=
            steady.layout_eq.trans shape
          have grown := Machine.allocated_cells value frames named
          have left : b.operands.length = todo.takes := by
            have total : Listing.takes (i :: todo) = i.pops + todo.takes := by
              simp [Listing.takes]
            have stack : (m₀.allocated index value).stack.size = m₀.stack.size := rfl
            rw [same, bodies] at size'
            simp only at taken
            omega
          refine ⟨b, configured', ⟨moves, same.trans bodies⟩, ?_, fun _ => left, ?_, ?_⟩
          · rw [grown, same, bodies, ip]
            apply Arranged.inside
            · exact below.mono fun position root _ there => held position root there
            · exact rooted.mono fun position root _ there => held position root there
            · rwa [List.append_assoc]
            · exact more
          · -- All arguments are taken, and the stack ends where the callers' operands end.
            rintro rfl position frame slot above below there
            have none : b.operands.length = 0 := left
            have inside := there.lt_size
            omega
          · have before : m₀.Slotted unit := slotted.same steady.layout_eq steady.slots_eq
            exact before.allocated listed frames named prologue

theorem forward_isolated {ip : Nat} {operands : List Operand}
    (configured : Configured unit unit.Stops a m)
    (configured' : Configured unit unit.Stops { a with ip, operands } m')
    (isolated : Isolated unit a [] m) (decoded : unit.instructionAt? a.ip = some (i, width))
    (does : Machine.Does unit.table { m with ip := a.ip + width } i m')
    (stays : i.isLocal = true) (goes : i ≠ .stop) :
    Isolated unit { a with ip, operands } [] m' := by
  obtain ⟨arranged, -, rooted, slotted⟩ := isolated
  have rooted := rooted rfl
  have size := configured.stack_size
  have depth := configured.frames_size
  have other : i.allocates? = none := by
    cases named : i.allocates? with
    | none => rfl
    | some index =>
        obtain ⟨_, _, _, _, _, active, _⟩ := does.exists_allocated named
        have deep : a.waiting ≠ [] := by
          intro none
          rw [none] at depth
          exact active depth
        rw [arranged.allocates?_eq deep decoded] at named
        cases named
  obtain ⟨frames, slots⟩ := does.same_frames stays other
  have next := does.ip_mem_nexts stays goes
  rw [configured'.ip_eq] at next
  have held (position : Nat) (root : Location) (inside : position < Pending.height a.waiting)
      (there : m'.HoldsAt position root) : m.HoldsAt position root := by
    rcases does.holdsAt there with before | ⟨_, _, top, _⟩
    · exact before
    · simp only at top
      omega
  refine ⟨?_, fun more => absurd rfl more, fun _ => ?_, slotted.same frames slots⟩
  · rw [frames]
    exact (arranged.goes_on decoded next).mono held
  · have start : Machine.Rooted { m with ip := a.ip + width } m.frames.size
        (Pending.height a.waiting) m.stack.size := depth ▸ rooted
    exact depth ▸ does.rooted start

theorem enter_isolated {index code : UInt32} {entry : Entry} {params : List Ty}
    {arguments rest : List Operand} {opening : Listing}
    (configured : Configured unit unit.Stops a m) (isolated : Isolated unit a [] m)
    (decoded : unit.instructionAt? a.ip = some (.call index, width))
    (does : Machine.Does unit.table { m with ip := a.ip + width } (.call index) m')
    (found : unit.table[index.toNat]? = some entry)
    (storage : entry.storage = .function params code) (split : a.operands = arguments ++ rest)
    (all : arguments.length = params.length) (opens : unit.Opens code.toNat opening)
    (nonempty : opening ≠ []) (takes : opening.takes = params.length) :
    Isolated unit
      { ip := code.toNat
        owner := some index
        operands := arguments
        waiting := { resume := a.ip + width, callee := index, operands := rest } :: a.waiting }
      opening m' := by
  obtain ⟨arranged, -, rooted, slotted⟩ := isolated
  obtain ⟨_, _, _, -, -, entered⟩ := does.entered
  have grown : m'.layout = m.layout ++ [(a.ip + width, [])] := by
    simp [entered, Machine.layout, Frame.outline]
  have slots : m'.slots = m.slots := by rw [entered]
  have held (position : Nat) (root : Location) (there : m'.HoldsAt position root) :
      m.HoldsAt position root := by
    rw [entered] at there
    exact there
  have ahead : Arranged unit m (a.ip + width) [] m.layout a.waiting :=
    arranged.goes_on decoded (List.mem_singleton_self _)
  have own : m'.Rooted a.waiting.length (Pending.height a.waiting)
      (Pending.height ({ resume := a.ip + width, callee := index, operands := rest } ::
        a.waiting)) := by
    intro position frame slot above below there
    apply rooted rfl position frame slot above _ (held position _ there)
    rw [configured.stack_size, split, List.length_append]
    rw [Pending.height_cons] at below
    simp only at below
    omega
  refine ⟨?_, fun _ => all.trans takes.symm, fun none => absurd none nonempty, ?_, ?_⟩
  · rw [grown]
    exact @Arranged.inside unit m' _ _ _ _ [] opening
      (ahead.mono fun position root _ there => held position root there) own
      ⟨entry, params, code, found, storage, opens.opening⟩ opens
  · rw [slots]
    exact slotted.placed
  · rw [grown, slots]
    intro outline member index there
    rcases List.mem_append.mp member with old | new
    · exact slotted.known outline old index there
    · rw [List.mem_singleton.mp new] at there
      cases there

theorem next_into {index : UInt32} (configured : Configured unit unit.Stops a m)
    (linked : unit.Linked) (planned : unit.Planned) (sound : m.Sound unit.table)
    (isolated : Isolated unit a [] m)
    (called : unit.instructionAt? m.ip = some (.call index, width))
    (stepped : Machine.step unit m = .ok .running m') :
    ∃ b opening caller, Configured unit unit.Stops b m' ∧ a.Moves unit b ∧
      Isolated unit b opening m' ∧ unit.Prologue index opening ∧
        b.waiting = caller :: a.waiting ∧ caller.callee = index := by
  obtain ⟨b, configured', moves⟩ := configured.next linked stepped
  rcases (Machine.step_does sound stepped).2 with ⟨-, stopped⟩ | ⟨i, width, decoded, does⟩
  · cases stopped
  rw [called] at decoded
  cases decoded
  rw [configured.ip_eq] at called does
  have moves' := moves
  cases moves with
  | forward decoded' stays later =>
      rw [called] at decoded'
      cases decoded'
      cases stays
  | leave decoded' active found typed empty called' =>
      rw [called] at decoded'
      cases decoded'
  | enter decoded' found storage room split all =>
      rw [called] at decoded'
      cases decoded'
      obtain ⟨opening, opens, head, takes⟩ := planned.opens found storage
      have nonempty : opening ≠ [] := by
        rintro rfl
        cases head
      exact ⟨_, opening, _, configured', moves',
        configured.enter_isolated isolated called does found storage split all opens nonempty takes,
        ⟨_, _, _, found, storage, opens.opening⟩, rfl, rfl⟩

theorem leave_isolated {index : UInt32} {owner : Option UInt32} {caller : Pending}
    {result : Value} (configured : Configured unit unit.Stops a m)
    (configured' : Configured unit unit.Stops
      { ip := caller.resume, owner, operands := .value result :: caller.operands, waiting } m')
    (isolated : Isolated unit a [] m)
    (does : Machine.Does unit.table { m with ip := a.ip + width } (.ret index) m')
    (empty : a.operands = []) (called : a.waiting = caller :: waiting) :
    Isolated unit
      { ip := caller.resume, owner, operands := .value result :: caller.operands, waiting } []
      m' := by
  obtain ⟨arranged, -, -, slotted⟩ := isolated
  have size := configured.stack_size
  rw [empty, called, List.length_nil, Nat.zero_add] at size
  have held (position : Nat) (root : Location) (there : m'.HoldsAt position root) :
      m.HoldsAt position root := by
    rcases does.holdsAt there with before | ⟨_, named, _⟩
    · exact before
    · cases named
  obtain ⟨frame, value, back, rfl⟩ := does.left
  have frames : Machine.layout
      { m with
        ip := frame.resume
        frames := m.frames.pop
        stack := m.stack.push (.value value) } = m.layout.dropLast := by
    simp [Machine.layout, List.map_dropLast]
  generalize shape : m.layout = layout at arranged
  rw [called] at arranged
  cases arranged with
  | inside below rooted prologue opens =>
      refine ⟨?_, fun more => absurd rfl more, fun _ => ?_, slotted.placed, ?_⟩
      · rw [frames, shape, List.dropLast_concat]
        exact below.mono fun position root _ there => held position root there
      · intro position frame slot above _ there
        have before := held position _ there
        exact rooted position frame slot above (size ▸ before.lt_size) before
      · rw [frames]
        exact fun outline member => slotted.known outline (List.dropLast_subset _ member)

theorem next_behind_opening (configured : Configured unit unit.Stops a m) (linked : unit.Linked)
    (planned : unit.Planned) (sound : m.Sound unit.table) (isolated : Isolated unit a [] m)
    (stepped : Machine.step unit m = .ok .running m') :
    ∃ b todo, Configured unit unit.Stops b m' ∧ a.Moves unit b ∧ Isolated unit b todo m' := by
  obtain ⟨b, configured', moves⟩ := configured.next linked stepped
  rcases (Machine.step_does sound stepped).2 with ⟨-, stopped⟩ | ⟨i, width, decoded, does⟩
  · cases stopped
  have goes := running_ne_stop stepped decoded
  rw [configured.ip_eq] at decoded does
  have moves' := moves
  cases moves with
  | forward decoded' stays later =>
      rw [decoded] at decoded'
      cases decoded'
      exact ⟨_, [], configured', moves',
        configured.forward_isolated configured' isolated decoded does stays goes⟩
  | enter decoded' found storage room split all =>
      rw [decoded] at decoded'
      cases decoded'
      rw [← configured.ip_eq] at decoded
      obtain ⟨b, opening, _, entered, moves, inside, -⟩ :=
        configured.next_into linked planned sound isolated decoded stepped
      exact ⟨b, opening, entered, moves, inside⟩
  | leave decoded' active found typed empty called =>
      rw [decoded] at decoded'
      cases decoded'
      exact ⟨_, [], configured', moves',
        configured.leave_isolated configured' isolated does empty called⟩

theorem next_isolated (configured : Configured unit unit.Stops a m) (linked : unit.Linked)
    (planned : unit.Planned) (sound : m.Sound unit.table) (isolated : Isolated unit a todo m)
    (stepped : Machine.step unit m = .ok .running m') :
    ∃ b todo', Configured unit unit.Stops b m' ∧ a.Moves unit b ∧ Isolated unit b todo' m' := by
  cases todo with
  | nil => exact configured.next_behind_opening linked planned sound isolated stepped
  | cons i todo =>
      obtain ⟨b, configured', moves, isolated'⟩ :=
        configured.next_in_opening linked sound isolated stepped
      exact ⟨b, todo, configured', moves.1, isolated'⟩

end Configured

/-! Runs. -/

/-- What holds of a compiled program at all times. -/
structure Orderly (unit : CodeUnit) (a : Activity) (m : Machine) : Prop where
  sound : m.Sound unit.table
  isolated : ∃ todo, Isolated unit a todo m

theorem Orderly.next (linked : unit.Linked) (planned : unit.Planned)
    (configured : Configured unit unit.Stops a m) (orderly : Orderly unit a m)
    (stepped : Machine.step unit m = .ok .running m') :
    ∃ b, Configured unit unit.Stops b m' ∧ a.Moves unit b ∧ Orderly unit b m' := by
  obtain ⟨sound, todo, isolated⟩ := orderly
  obtain ⟨b, todo', configured', moves, isolated'⟩ :=
    configured.next_isolated linked planned sound isolated stepped
  exact ⟨b, configured', moves, (Machine.step_does sound stepped).1, todo', isolated'⟩

theorem Configured.run_orderly {base : List Pending} {steps : Nat}
    (configured : Configured unit unit.Stops a m) (linked : unit.Linked) (planned : unit.Planned)
    (orderly : Orderly unit a m) (suffix : base <:+ a.waiting)
    (run : Machine.runFor unit steps m = (.running, m'))
    (deep : ∀ t ≤ steps, base.length ≤ (m.later unit t).frames.size) :
    ∃ b, Configured unit unit.Stops b m' ∧ Orderly unit b m' ∧ base <:+ b.waiting :=
  configured.run_suffix orderly
    (fun configured orderly stepped => Orderly.next linked planned configured orderly stepped)
    suffix run deep

theorem orderly_start (unit : CodeUnit) : Orderly unit .start (Machine.initial unit.table) := by
  refine ⟨Machine.initial_sound unit.table, [], .outside 0, fun more => absurd rfl more, ?_, ?_, ?_⟩
  · intro _ position frame slot _ inside _
    exact absurd inside (Nat.not_lt_zero position)
  · intro index slot known
    simp only [Machine.initial, List.getElem?_map] at known
    cases found : unit.table[index.toNat]? <;> simp [found] at known
  · exact fun outline member => absurd member List.not_mem_nil

theorem Builds.orderly {source : String} {steps : Nat} (builds : Builds source unit)
    (after : Machine.After unit steps m) :
    ∃ a, Configured unit unit.Stops a m ∧ Orderly unit a m := by
  obtain ⟨a, configured, orderly, -⟩ :=
    builds.configured.run_orderly builds.linked builds.planned (orderly_start unit)
      List.nil_suffix after (fun _ _ => Nat.zero_le _)
  exact ⟨a, configured, orderly⟩

end StackScript
