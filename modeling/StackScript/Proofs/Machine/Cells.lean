import StackScript.Proofs.Machine.Store

namespace StackScript

/-! One cell of a machine. An edit of a cell changes its value and nothing else. -/

theorem map_modify_of_eq {α β : Type} (items : List α) (position : Nat) (view : α → β)
    (change : α → α) (same : ∀ a, items[position]? = some a → view (change a) = view a) :
    (items.modify position change).map view = items.map view := by
  apply List.ext_getElem?
  intro i
  simp only [List.getElem?_map, List.getElem?_modify]
  split
  · rename_i equal
    subst equal
    cases found : items[position]? with
    | none => rfl
    | some a => simp [same a found]
  · simp

theorem mem_modify {α : Type} {items : List α} {position : Nat} {change : α → α} {b : α}
    (member : b ∈ items.modify position change) :
    b ∈ items ∨ ∃ a, items[position]? = some a ∧ b = change a := by
  obtain ⟨i, found⟩ := List.getElem?_of_mem member
  rw [List.getElem?_modify] at found
  split at found
  · rename_i equal
    subst equal
    cases inside : items[position]? with
    | none => simp [inside] at found
    | some a =>
        rw [inside] at found
        exact .inr ⟨a, rfl, (Option.some.inj found).symm⟩
  · exact .inl (List.mem_of_getElem? (by simpa using found))

namespace Machine

/-- The value in the cell at a location. -/
def cell? (m : Machine) : Location → Option Value
  | .static index => m.statics[index]?
  | .frame frame slot => (m.frames[frame]?).bind fun f => (f.cells[slot]?).map Prod.snd

/-- The machine with another value in the cell at a location. -/
def withCell (m : Machine) (location : Location) (value : Value) : Machine :=
  match location with
  | .static index => { m with statics := m.statics.set index value }
  | .frame frame slot =>
      { m with
        frames := m.frames.modify frame fun f =>
          { f with cells := f.cells.modify slot fun cell => (cell.1, value) } }

variable {m : Machine} {location : Location} {value : Value} {table : List Entry}

@[simp] theorem withCell_ip : (m.withCell location value).ip = m.ip := by
  cases location <;> rfl

@[simp] theorem withCell_stack : (m.withCell location value).stack = m.stack := by
  cases location <;> rfl

@[simp] theorem withCell_slots : (m.withCell location value).slots = m.slots := by
  cases location <;> rfl

@[simp] theorem withCell_layout : (m.withCell location value).layout = m.layout := by
  cases location with
  | static index => rfl
  | frame frame slot =>
      simp only [layout, withCell, Array.toList_modify]
      apply map_modify_of_eq
      intro f _
      simp only [Frame.outline]
      congr 1
      apply map_modify_of_eq
      exact fun _ _ => rfl

theorem withCell_frames {frame : Nat} (other : ∀ slot, location ≠ .frame frame slot) :
    (m.withCell location value).frames[frame]? = m.frames[frame]? := by
  cases location with
  | static index => rfl
  | frame frame' slot =>
      have different : frame' ≠ frame := by
        rintro rfl
        exact other slot rfl
      simp [withCell, Array.getElem?_modify, different]

theorem Typed.cell (typed : m.Typed table) (inside : m.cell? location = some value) :
    ∃ ty, location.Roots table m.layout ty ∧ value.HasTy ty := by
  cases location with
  | static index =>
      have bound := (List.getElem?_eq_some_iff.mp inside).1
      rw [typed.statics_length] at bound
      have found := List.getElem?_eq_getElem bound
      exact ⟨_, .static found, typed.statics index _ value found inside⟩
  | frame frame slot =>
      simp only [cell?, Option.bind_eq_some_iff, Option.map_eq_some_iff] at inside
      obtain ⟨f, active, ⟨owner, v⟩, owned, rfl⟩ := inside
      have listed : m.frames.toList[frame]? = some f := by simpa using active
      obtain ⟨entry, found, hasTy⟩ := typed.cells f (List.mem_of_getElem? listed) _
        (List.mem_of_getElem? owned)
      have active' : m.layout[frame]? = some f.outline := by
        rw [layout, List.getElem?_map, listed]
        rfl
      have owned' : f.outline.2[slot]? = some owner := by simp [Frame.outline, owned]
      exact ⟨entry.ty, .frame active' owned' found, hasTy⟩

theorem exists_cell {ty : Ty} (typed : m.Typed table)
    (roots : location.Roots table m.layout ty) :
    ∃ value, m.cell? location = some value ∧ value.HasTy ty := by
  cases roots with
  | @static index entry found =>
      have bound := (List.getElem?_eq_some_iff.mp found).1
      rw [← typed.statics_length] at bound
      have inside := List.getElem?_eq_getElem bound
      exact ⟨_, inside, typed.statics index entry _ found inside⟩
  | @frame frame slot outline owner entry active owned found =>
      rw [layout, List.getElem?_map] at active
      obtain ⟨f, listed, rfl⟩ := Option.map_eq_some_iff.mp active
      simp only [Frame.outline, List.getElem?_map] at owned
      obtain ⟨⟨_, value⟩, cell, rfl⟩ := Option.map_eq_some_iff.mp owned
      obtain ⟨other, found', hasTy⟩ := typed.cells f (List.mem_of_getElem? listed) _
        (List.mem_of_getElem? cell)
      rw [found] at found'
      obtain rfl := Option.some.inj found'
      have there : m.frames[frame]? = some f := by simpa using listed
      exact ⟨value, by simp [cell?, there, cell], hasTy⟩

theorem Typed.withCell {ty : Ty} (typed : m.Typed table)
    (roots : location.Roots table m.layout ty) (hasTy : value.HasTy ty) :
    (m.withCell location value).Typed table := by
  cases roots with
  | @static index entry found =>
      refine ⟨?_, ?_, typed.cells, typed.slots_length⟩
      · simpa [Machine.withCell] using typed.statics_length
      · intro i other v found' stored
        by_cases same : index = i
        · subst same
          have bound := (List.getElem?_eq_some_iff.mp stored).1
          simp only [Machine.withCell, List.length_set] at bound
          simp only [Machine.withCell, List.getElem?_set_self bound, Option.some.injEq] at stored
          rw [found] at found'
          obtain rfl := Option.some.inj found'
          exact stored ▸ hasTy
        · simp only [Machine.withCell, List.getElem?_set_ne same] at stored
          exact typed.statics i other v found' stored
  | @frame frame slot outline owner entry active owned found =>
      refine ⟨typed.statics_length, typed.statics, ?_, typed.slots_length⟩
      intro g member c inside
      simp only [Machine.withCell, Array.toList_modify] at member
      rcases mem_modify member with old | ⟨g', listed, rfl⟩
      · exact typed.cells g old c inside
      · rcases mem_modify inside with old | ⟨c', cell, rfl⟩
        · exact typed.cells g' (List.mem_of_getElem? listed) c old
        · rw [layout, List.getElem?_map, listed] at active
          obtain rfl := Option.some.inj active
          simp only [Frame.outline, List.getElem?_map, cell, Option.map_some,
            Option.some.injEq] at owned
          exact ⟨entry, owned ▸ found, hasTy⟩

end Machine

theorem Action.editCell_eq {β : Type} (location : Location) (edit : Edit Value β) (m : Machine) :
    editCell location edit m =
      match m.cell? location with
      | none => .error .invalidInstruction m
      | some value =>
          match edit value with
          | .ok result value' => .ok result (m.withCell location value')
          | .error fault value' => .error fault (m.withCell location value') := by
  cases location with
  | static index =>
      simp only [editCell, Machine.cell?]
      cases m.statics[index]? with
      | none => rfl
      | some value => cases edit value <;> rfl
  | frame frame slot =>
      cases there : m.frames[frame]? with
      | none => simp [editCell, Machine.cell?, there]
      | some f =>
          cases cell : f.cells[slot]? with
          | none => simp [editCell, Machine.cell?, there, cell]
          | some content =>
              obtain ⟨owner, value⟩ := content
              have same (value' : Value) :
                  m.frames.modify frame (fun f =>
                    { f with cells := f.cells.set slot (owner, value') }) =
                  (m.withCell (.frame frame slot) value').frames := by
                apply Array.ext_getElem?
                intro i
                simp only [Machine.withCell, Array.getElem?_modify]
                split
                · rename_i equal
                  subst equal
                  rw [there]
                  simp [List.modify_eq_set_getElem?, cell]
                · rfl
              simp only [editCell, Machine.cell?, there, cell, Option.bind_some, Option.map_some]
              cases edit value with
              | ok result value' => simp only [same]; rfl
              | error fault value' => simp only [same]; rfl

end StackScript
