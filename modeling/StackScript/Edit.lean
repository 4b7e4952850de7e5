import StackScript.Fault

namespace StackScript

/-! Changes of a state that may fault part way. A fault keeps the changes made before it. -/

abbrev Edit (σ α : Type) := EStateM Fault σ α

namespace Edit

/-- An outcome that changes nothing. -/
def ofExcept {σ α : Type} (result : Except Fault α) : Edit σ α := fun s =>
  match result with
  | .ok a => .ok a s
  | .error fault => .error fault s

theorem get_apply {σ : Type} (s : σ) : (get : Edit σ σ) s = .ok s s := rfl

theorem set_apply {σ : Type} (s' s : σ) : (set s' : Edit σ PUnit) s = .ok ⟨⟩ s' := rfl

/-- Edits the entry at a position of a list of pairs, leaving its first component alone. -/
def atPosition {κ α β : Type} (position : Nat) (edit : Edit α β) : Edit (List (κ × α)) β :=
  fun cells =>
    match cells[position]? with
    | none => .error .expectedArray cells
    | some (key, value) =>
        match edit value with
        | .ok result value' => .ok result (cells.set position (key, value'))
        | .error fault value' => .error fault (cells.set position (key, value'))

/-- Whether the edit faulted, and the state that it left. -/
def outcome {σ α : Type} (edit : Edit σ α) (s : σ) : Option Fault × σ :=
  match edit s with
  | .ok _ s' => (none, s')
  | .error fault s' => (some fault, s')

end Edit

end StackScript
