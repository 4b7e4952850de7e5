import Mathlib.Data.List.Induction
import StackScript.Proofs.Formula.Storing
import StackScript.Proofs.Machine.Missing
import StackScript.Proofs.Value.Path

namespace StackScript

/-! Access to elements by constant indexes: what an index instruction and a store behind it do to
the cell that they edit, and that they leave all other cells alone. -/

namespace Machine

variable {table : List Entry} {m m' m'' : Machine} {location other : Location} {value : Value}

theorem cell?_withCell (held : m.cell? location = some value) (value' : Value) :
    (m.withCell location value').cell? location = some value' := by
  cases location with
  | static index => exact List.getElem?_set_self (List.getElem?_eq_some_iff.mp held).1
  | frame frame slot =>
      simp only [cell?, Option.bind_eq_some_iff, Option.map_eq_some_iff] at held
      obtain ⟨f, active, cell, owned, -⟩ := held
      simp [cell?, withCell, Array.getElem?_modify, active, owned]

theorem cell?_withCell_ne (different : other ≠ location) :
    (m.withCell location value).cell? other = m.cell? other := by
  cases location with
  | static index =>
      cases other with
      | static index' =>
          exact List.getElem?_set_ne fun same => different (congrArg Location.static same.symm)
      | frame frame slot => rfl
  | frame frame slot =>
      cases other with
      | static index => rfl
      | frame frame' slot' =>
          by_cases same : frame = frame'
          · subst same
            have slots : slot ≠ slot' := fun equal => different (equal ▸ rfl)
            cases active : m.frames[frame]? <;>
              simp [cell?, withCell, Array.getElem?_modify, active, slots]
          · simp [cell?, withCell, Array.getElem?_modify, same]

/-- The second machine differs from the first in its place in the code, in its operands, and in the
value of one cell. -/
structure Edits (table : List Entry) (location : Location) (m m' : Machine) : Prop where
  typed : m'.Typed table
  layout_eq : m'.layout = m.layout
  slots_eq : m'.slots = m.slots
  others : ∀ other ≠ location, m'.cell? other = m.cell? other

theorem Edits.refl (typed : m.Typed table) (location : Location) : Edits table location m m where
  typed := typed
  layout_eq := rfl
  slots_eq := rfl
  others := fun _ _ => rfl

theorem Edits.trans (first : Edits table location m m') (second : Edits table location m' m'') :
    Edits table location m m'' where
  typed := second.typed
  layout_eq := second.layout_eq.trans first.layout_eq
  slots_eq := second.slots_eq.trans first.slots_eq
  others := fun other different =>
    (second.others other different).trans (first.others other different)

/-- Neither the place in the code nor the operands count. -/
theorem Edits.move (edits : Edits table location m m') (ip : Nat) (stack : Array Operand) :
    Edits table location m { m' with ip, stack } where
  typed := { edits.typed with }
  layout_eq := edits.layout_eq
  slots_eq := edits.slots_eq
  others := edits.others

theorem Typed.edits {ty : Ty} (typed : m.Typed table) (roots : location.Roots table m.layout ty)
    (valueTyped : value.HasTy ty) : Edits table location m (m.withCell location value) where
  typed := typed.withCell roots valueTyped
  layout_eq := withCell_layout
  slots_eq := withCell_slots
  others := fun _ => cell?_withCell_ne

/-- Where the cell of a symbol is: that of a dynamic one is in the active frame, if it is live. -/
def Locates (m : Machine) (symbol : Nat) (location : Location) : Lifetime → Prop
  | .static => location = .static symbol
  | .dynamic =>
      ∃ frame slot value, m.frames.back? = some frame ∧
        (m.slots[(UInt32.ofNat symbol).toNat]?).join = some slot ∧
          frame.cells[slot]? = some (UInt32.ofNat symbol, value) ∧
            location = .frame (m.frames.size - 1) slot

theorem exists_locates {symbol : Nat} {lifetime : Lifetime}
    (live : lifetime = .dynamic → m.Live (UInt32.ofNat symbol)) :
    ∃ location, m.Locates symbol location lifetime := by
  cases lifetime with
  | static => exact ⟨_, rfl⟩
  | dynamic =>
      obtain ⟨frame, slot, value, back, known, cell⟩ := live rfl
      exact ⟨_, frame, slot, value, back, known, cell, rfl⟩

theorem Locates.roots {symbol : Nat} {lifetime : Lifetime} {entry : Entry}
    (locates : m.Locates symbol location lifetime) (listed : table[symbol]? = some entry)
    (known : (UInt32.ofNat symbol).toNat = symbol) : location.Roots table m.layout entry.ty := by
  cases lifetime with
  | static =>
      obtain rfl := locates
      exact .static listed
  | dynamic =>
      obtain ⟨frame, slot, value, back, -, cell, rfl⟩ := locates
      have active : m.layout[m.frames.size - 1]? = some frame.outline := by
        rw [Array.back?_eq_getElem?] at back
        rw [layout, List.getElem?_map, Array.getElem?_toList, back]
        rfl
      have owned : frame.outline.2[slot]? = some (UInt32.ofNat symbol) := by
        simp [Frame.outline, cell]
      exact .frame active owned (known.symm ▸ listed)

end Machine

namespace Action

variable {m : Machine} {stack : Array Operand} {location : Location}
variable {start : Ty} {path : List Key} {key : Key} {index : List Scalar} {element : Ty}
variable {value : Value}

/-- Operands for the values of a key, the last one on top. -/
def operands (key : Key) : Array Operand :=
  (key.map fun a => Operand.value (.atom a)).toArray

theorem operands_concat (key : Key) (a : Atom) :
    operands (key ++ [a]) = (operands key).push (.value (.atom a)) := by
  simp [operands]

theorem operands_append (front back : Key) :
    operands (front ++ back) = operands front ++ operands back := by
  simp [operands]

theorem append_operands_cons (stack : Array Operand) (a : Atom) (key : Key) :
    stack ++ operands (a :: key) = stack.push (.value (.atom a)) ++ operands key := by
  simp [operands]

theorem bind_eq {α β : Type} {x : Action α} {next : α → Action β} {a : α} {m' : Machine}
    (run : x m = .ok a m') : (x >>= next) m = next a m' := by
  simp only [bind, EStateM.bind, run]

theorem editCell_ok {β : Type} {edit : Edit Value β} {result : β} {value' : Value}
    (held : m.cell? location = some value) (edited : edit value = .ok result value') :
    editCell location edit m = .ok result (m.withCell location value') := by
  simp only [editCell_eq, held, edited]

/-- A dynamic cell is found where it is. -/
theorem putDAddr_eq {table : List Entry} {symbol : Nat}
    (located : m.Locates symbol location .dynamic) (room : m.stack.size < Machine.stackLimit) :
    execute table (.putDAddr (UInt32.ofNat symbol)) m =
      .ok .running { m with stack := m.stack.push (.address (.ofLocation location)) } := by
  obtain ⟨frame, slot, value, back, known, cell, rfl⟩ := located
  have found : dynamicLocation (UInt32.ofNat symbol) m =
      .ok (.frame (m.frames.size - 1) slot) m := by
    simp only [dynamicLocation, back, known, cell, if_true]
  rw [execute, bind_eq found, bind_eq (push_eq room)]
  rfl

/-- Values are popped in reverse, which gives the key again. -/
theorem popIndexes_eq (top : m.stack = stack ++ operands key) :
    popIndexes key.length m = .ok (key.map .atom) { m with stack } := by
  induction key using List.reverseRecOn generalizing m with
  | nil =>
      obtain rfl : m.stack = stack := by simpa [operands] using top
      rfl
  | append_singleton key a induction =>
      rw [operands_concat, Array.append_push] at top
      rw [List.length_append, List.length_singleton, popIndexes]
      simp only [bind, EStateM.bind, popValue_eq top]
      rw [induction (m := { m with stack := stack ++ operands key }) rfl]
      simp [pure, EStateM.pure]

theorem indexAddress_eq (table : List Entry) {count : UInt8}
    (top : m.stack = stack.push (.address { root := location, path }) ++ operands key)
    (counted : key.length = count.toNat) (held : m.cell? location = some value)
    (leads : Ty.Path start path (.array index element)) (exact : key.map Atom.scalar = index)
    (typed : value.HasTy start) (room : stack.size < Machine.stackLimit) :
    ∃ value', value'.HasTy start ∧
      execute table (.putIndAddr count) m =
        .ok .running
          { m.withCell location value' with
            stack := stack.push (.address { root := location, path := path ++ [key] }) } := by
  obtain ⟨value', reached, typed'⟩ := Value.exists_reached leads exact typed
  refine ⟨value', typed', ?_⟩
  have edited : editAddress { root := location, path }
      (Value.editArray (Sparse.reach (key.map .atom))) { m with stack } =
        .ok key { m.withCell location value' with stack } := by
    have found := @editCell_ok { m with stack } location value Key _ key value' held reached
    rw [editAddress, found]
    cases location <;> rfl
  have popped : pop { m with stack := stack.push (.address { root := location, path }) } =
      .ok (.address { root := location, path }) { m with stack } := pop_eq rfl
  have pushed := @push_eq { m.withCell location value' with stack }
    (.address { root := location, path := path ++ [key] }) room
  have indexed : indexAddress count m = .ok ()
      { m.withCell location value' with
        stack := stack.push (.address { root := location, path := path ++ [key] }) } := by
    rw [indexAddress, ← counted, bind_eq (popIndexes_eq top), bind_eq popped]
    exact (bind_eq edited).trans pushed
  rw [execute, bind_eq indexed]
  rfl

/-- With more index values than are counted one of them stands where the address is expected. -/
theorem indexAddress_error (table : List Entry) {count : UInt8}
    (top : m.stack = stack ++ operands key) (wide : count.toNat < key.length) :
    ∃ m', execute table (.putIndAddr count) m = .error (.expectedAddress .putIndAddr) m' := by
  obtain ⟨front, back, rfl, counted⟩ : ∃ front back, key = front ++ back ∧
      back.length = count.toNat :=
    ⟨key.take (key.length - count.toNat), key.drop (key.length - count.toNat),
      (List.take_append_drop _ _).symm, by rw [List.length_drop]; omega⟩
  have nonempty : front ≠ [] := by
    rintro rfl
    simp only [List.nil_append] at wide
    omega
  obtain ⟨front, a, rfl⟩ := (List.eq_nil_or_concat' front).resolve_left nonempty
  rw [operands_append, ← Array.append_assoc] at top
  have popped : pop { m with stack := stack ++ operands (front ++ [a]) } =
      .ok (.value (.atom a)) { m with stack := stack ++ operands front } :=
    pop_eq (by rw [operands_concat, Array.append_push])
  refine ⟨{ m with stack := stack ++ operands front }, ?_⟩
  have indexed : indexAddress count m =
      .error (.expectedAddress .putIndAddr) { m with stack := stack ++ operands front } := by
    rw [indexAddress, ← counted, bind_eq (popIndexes_eq top), bind_eq popped]
    rfl
  simp only [execute, bind, EStateM.bind, indexed]

/-- A plain assignment of a constant to what an address refers to. -/
theorem assign_constant_eq (table : List Entry) {a : Atom} {t : Scalar}
    (top : m.stack =
      (stack.push (.address { root := location, path })).push (.value (.atom a)))
    (held : m.cell? location = some value) (leads : Ty.Path start path (.scalar t))
    (accepts : t.accepts a.scalar = true)
    (numbers : ∀ key ∈ path, key.hasNaN = false) (typed : value.HasTy start) :
    ∃ value', value'.HasTy start ∧ value'.find? path = some (.atom (a.widen t)) ∧
      execute table (.assign .set) m =
        .ok .running { m.withCell location value' with stack } := by
  obtain ⟨value', stored, typed', found⟩ := Value.exists_assigned leads accepts numbers typed
  refine ⟨value', typed', found, ?_⟩
  have edited : editAddress { root := location, path }
      (Value.assign Update.set.opcode (.atom a)) { m with stack } =
        .ok () { m.withCell location value' with stack } := by
    have found := @editCell_ok { m with stack } location value Unit _ () value' held stored
    rw [editAddress, found]
    cases location <;> rfl
  have popped : pop { m with stack := stack.push (.address { root := location, path }) } =
      .ok (.address { root := location, path }) { m with stack } := pop_eq rfl
  have assigned : assign Update.set.opcode m =
      .ok () { m.withCell location value' with stack } := by
    rw [assign, bind_eq (popValue_eq top), bind_eq popped]
    exact edited
  rw [execute, bind_eq assigned]
  rfl

end Action

end StackScript
