import Mathlib.Data.List.Forall2
import StackScript.Machine.Step
import StackScript.Proofs.Value.Operators

namespace StackScript

/-! Machines whose cells have the types of the variable table, and what addresses refer to. -/

/-- For each frame the place to resume the caller, and the records that own its cells. -/
abbrev Layout := List (Nat × List UInt32)

def Frame.outline (frame : Frame) : Nat × List UInt32 :=
  (frame.resume, frame.cells.map Prod.fst)

def Machine.layout (m : Machine) : Layout :=
  m.frames.toList.map Frame.outline

/-- The last outline is that of the active frame. -/
theorem Machine.exists_active {m : Machine} {front : Layout} {outline : Nat × List UInt32}
    (layout_eq : m.layout = front ++ [outline]) :
    ∃ below frame, m.frames.toList = below ++ [frame] ∧ m.frames.back? = some frame ∧
      below.map Frame.outline = front ∧ frame.outline = outline := by
  rcases List.eq_nil_or_concat m.frames.toList with none | ⟨below, frame, frames⟩
  · simp [layout, none] at layout_eq
  · rw [List.concat_eq_append] at frames
    rw [layout, frames, List.map_append] at layout_eq
    obtain ⟨same, last⟩ := List.append_inj' layout_eq rfl
    have back : m.frames.back? = some frame := by
      rw [← Array.getLast?_toList, frames, List.getLast?_concat]
    exact ⟨below, frame, frames, back, same, List.singleton_inj.mp last⟩

structure Machine.Typed (table : List Entry) (m : Machine) : Prop where
  statics_length : m.statics.length = table.length
  statics : ∀ (index : Nat) (entry : Entry) (value : Value), table[index]? = some entry →
    m.statics[index]? = some value → value.HasTy entry.ty
  cells : ∀ frame ∈ m.frames.toList, ∀ cell ∈ frame.cells,
    ∃ entry, table[cell.1.toNat]? = some entry ∧ cell.2.HasTy entry.ty
  slots_length : m.slots.length = table.length

/-- A location is a cell of the given type. -/
inductive Location.Roots (table : List Entry) (layout : Layout) : Location → Ty → Prop
  | static {index : Nat} {entry : Entry} (found : table[index]? = some entry) :
      Roots table layout (.static index) entry.ty
  | frame {frame slot : Nat} {outline : Nat × List UInt32} {owner : UInt32} {entry : Entry}
      (active : layout[frame]? = some outline) (owned : outline.2[slot]? = some owner)
      (found : table[owner.toNat]? = some entry) :
      Roots table layout (.frame frame slot) entry.ty

/-- An address refers to something of the given type. -/
def Address.Refers (table : List Entry) (layout : Layout) (address : Address) (ty : Ty) : Prop :=
  ∃ start, address.root.Roots table layout start ∧ Ty.Path start address.path ty

/-- What is expected of an operand: a value or something that can be read as one, or the address
of a place of exactly the type. -/
inductive Shape where
  | value (ty : Ty)
  | place (ty : Ty)

/-- Whatever has the second shape also has the first. -/
def Shape.Covers : Shape → Shape → Prop
  | .value target, .value ty | .value target, .place ty => target.assignable ty = true
  | .place target, .place ty => target = ty
  | .place _, .value _ => False

def Operand.Shaped (table : List Entry) (layout : Layout) : Operand → Shape → Prop
  | .value v, .value ty => v.Fits ty
  | .value _, .place _ => False
  | .address a, .value target =>
      ∃ ty, a.Refers table layout ty ∧ target.assignable ty = true
  | .address a, .place ty => a.Refers table layout ty

/-- What is read from an operand has exactly the type. -/
def Operand.Exact (table : List Entry) (layout : Layout) : Operand → Ty → Prop
  | .value v, ty => v.HasTy ty
  | .address a, ty => a.Refers table layout ty

/-- The first layout can become the second: frames keep their places and get further cells. -/
def Layout.Grows (layout layout' : Layout) : Prop :=
  ∀ (frame : Nat) (outline : Nat × List UInt32), layout[frame]? = some outline →
    ∃ more rest, layout'[frame]? = some (more, outline.2 ++ rest)

theorem Layout.grows_append (layout rest : Layout) : layout.Grows (layout ++ rest) := by
  intro frame outline active
  obtain ⟨inside, -⟩ := List.getElem?_eq_some_iff.mp active
  refine ⟨outline.1, [], ?_⟩
  rw [List.getElem?_append_left inside, active, List.append_nil]

theorem Layout.grows_allocate (front : Layout) (resume : Nat) (owners rest : List UInt32) :
    Grows (front ++ [(resume, owners)]) (front ++ [(resume, owners ++ rest)]) := by
  intro frame outline active
  by_cases inside : frame < front.length
  · rw [List.getElem?_append_left inside] at active
    refine ⟨outline.1, [], ?_⟩
    rw [List.getElem?_append_left inside, active, List.append_nil]
  · have last := (List.getElem?_eq_some_iff.mp active).1
    obtain rfl : frame = front.length := by
      simp only [List.length_append, List.length_singleton] at last
      omega
    rw [List.getElem?_concat_length] at active
    obtain rfl := Option.some.inj active
    exact ⟨resume, rest, List.getElem?_concat_length⟩

variable {table : List Entry} {layout layout' : Layout}

theorem Location.Roots.grow {location : Location} {ty : Ty}
    (roots : location.Roots table layout ty) (grows : layout.Grows layout') :
    location.Roots table layout' ty := by
  cases roots with
  | static found => exact .static found
  | @frame _ slot outline _ _ active owned found =>
      obtain ⟨_, rest, active'⟩ := grows _ _ active
      refine .frame active' ?_ found
      rw [List.getElem?_append_left (List.getElem?_eq_some_iff.mp owned).1, owned]

theorem Address.Refers.grow {address : Address} {ty : Ty}
    (refers : address.Refers table layout ty) (grows : layout.Grows layout') :
    address.Refers table layout' ty := by
  obtain ⟨start, roots, path⟩ := refers
  exact ⟨start, roots.grow grows, path⟩

theorem Operand.Shaped.grow {operand : Operand} {shape : Shape}
    (shaped : operand.Shaped table layout shape) (grows : layout.Grows layout') :
    operand.Shaped table layout' shape := by
  cases operand with
  | value v =>
      cases shape with
      | value ty => exact shaped
      | place ty => exact shaped
  | address address =>
      cases shape with
      | value target =>
          obtain ⟨ty, refers, assignable⟩ := shaped
          exact ⟨ty, refers.grow grows, assignable⟩
      | place ty => exact Address.Refers.grow shaped grows

theorem Operand.Exact.grow {operand : Operand} {ty : Ty} (exact : operand.Exact table layout ty)
    (grows : layout.Grows layout') : operand.Exact table layout' ty := by
  cases operand with
  | value v => exact exact
  | address address => exact Address.Refers.grow exact grows

theorem shaped_grow {operands : List Operand} {shapes : List Shape}
    (shaped : List.Forall₂ (Operand.Shaped table layout) operands shapes)
    (grows : layout.Grows layout') :
    List.Forall₂ (Operand.Shaped table layout') operands shapes :=
  shaped.imp fun _ _ shaped => shaped.grow grows

theorem shaped_split {operands : List Operand} {front back : List Shape}
    (shaped : List.Forall₂ (Operand.Shaped table layout) operands (front ++ back)) :
    ∃ taken others, operands = taken ++ others ∧
      List.Forall₂ (Operand.Shaped table layout) taken front ∧
      List.Forall₂ (Operand.Shaped table layout) others back :=
  ⟨operands.take front.length, operands.drop front.length,
    (List.take_append_drop front.length operands).symm,
    List.forall₂_take_append operands front back shaped,
    List.forall₂_drop_append operands front back shaped⟩

theorem Address.Refers.ofLocation {location : Location} {ty : Ty}
    (roots : location.Roots table layout ty) : (Address.ofLocation location).Refers table layout ty :=
  ⟨ty, roots, .nil ty⟩

theorem Address.Refers.element {address : Address} {index : List Scalar} {element : Ty}
    {key : Key} (refers : address.Refers table layout (.array index element))
    (exact : key.map Atom.scalar = index) :
    (address.element key).Refers table layout element := by
  obtain ⟨start, roots, path⟩ := refers
  exact ⟨start, roots, path.concat exact⟩

theorem Ty.assignable_refl (ty : Ty) : ty.assignable ty = true := by
  simp [Ty.assignable]

theorem Ty.assignable_trans {a b c : Ty} (first : a.assignable b = true)
    (second : b.assignable c = true) : a.assignable c = true := by
  simp only [assignable, Bool.or_eq_true, Bool.and_eq_true, decide_eq_true_eq] at first second ⊢
  rcases first with rfl | ⟨rfl, numeric⟩
  · exact second
  · rcases second with rfl | ⟨-, numeric'⟩
    · exact .inr ⟨rfl, numeric⟩
    · exact .inr ⟨rfl, numeric'⟩

theorem Ty.assignable_eq {target ty : Ty} (assignable : target.assignable ty = true)
    (other : target ≠ .float) : target = ty := by
  simp only [Ty.assignable, Bool.or_eq_true, Bool.and_eq_true, decide_eq_true_eq] at assignable
  rcases assignable with same | ⟨float, -⟩
  · exact same
  · exact absurd float other

theorem Operand.Exact.shaped {operand : Operand} {ty : Ty} (exact : operand.Exact table layout ty) :
    operand.Shaped table layout (.value ty) := by
  cases operand with
  | value v => exact Value.HasTy.fits exact
  | address address => exact ⟨ty, exact, ty.assignable_refl⟩

theorem Operand.Shaped.exists_exact {operand : Operand} {target : Ty}
    (shaped : operand.Shaped table layout (.value target)) :
    ∃ ty, operand.Exact table layout ty ∧ target.assignable ty = true := by
  cases operand with
  | value v =>
      rcases shaped with typed | ⟨rfl, int⟩
      · exact ⟨target, typed, target.assignable_refl⟩
      · exact ⟨.int, int, rfl⟩
  | address address => exact shaped

theorem Operand.Shaped.exact {operand : Operand} {ty : Ty}
    (shaped : operand.Shaped table layout (.value ty)) (other : ty ≠ .float) :
    operand.Exact table layout ty := by
  obtain ⟨content, exact, assignable⟩ := shaped.exists_exact
  rwa [Ty.assignable_eq assignable other]

theorem Shape.covers_refl (shape : Shape) : shape.Covers shape := by
  cases shape with
  | value ty => exact ty.assignable_refl
  | place ty => rfl

theorem Operand.Shaped.cover {operand : Operand} {shape shape' : Shape}
    (shaped : operand.Shaped table layout shape) (covers : shape'.Covers shape) :
    operand.Shaped table layout shape' := by
  cases operand with
  | value v =>
      cases shape with
      | place ty => exact shaped.elim
      | value ty =>
          cases shape' with
          | place target => exact covers.elim
          | value target => exact Value.Fits.assign shaped covers
  | address address =>
      cases shape with
      | value ty =>
          cases shape' with
          | place target => exact covers.elim
          | value target =>
              obtain ⟨content, refers, assignable⟩ := shaped
              exact ⟨content, refers, Ty.assignable_trans covers assignable⟩
      | place ty =>
          cases shape' with
          | place target =>
              obtain rfl : target = ty := covers
              exact shaped
          | value target => exact ⟨ty, shaped, covers⟩

/-- Everything about a machine that typed code depends on. -/
structure Machine.Rests (table : List Entry) (ip : Nat) (layout : Layout)
    (operands : List Operand) (m : Machine) : Prop where
  typed : m.Typed table
  ip_eq : m.ip = ip
  layout_eq : m.layout = layout
  stack_eq : m.stack.toList.reverse = operands

/-- All types in a variable table have at most 255 index positions at every depth. -/
def Ty.Narrow : Ty → Prop
  | .scalar _ => True
  | .array index element => index.length < 256 ∧ element.Narrow

instance Ty.decidableNarrow : (ty : Ty) → Decidable ty.Narrow
  | .scalar _ => isTrue trivial
  | .array index element =>
      have := decidableNarrow element
      inferInstanceAs (Decidable (index.length < 256 ∧ element.Narrow))

theorem Ty.Narrow.path {start ty : Ty} {path : List Key} (narrow : start.Narrow)
    (leads : Ty.Path start path ty) : ty.Narrow := by
  induction leads with
  | nil ty => exact narrow
  | cons exact rest induction => exact induction narrow.2

def Entry.Narrow (entry : Entry) : Prop :=
  entry.ty.Narrow

instance (entry : Entry) : Decidable entry.Narrow :=
  inferInstanceAs (Decidable entry.ty.Narrow)

theorem Address.Refers.narrow {address : Address} {ty : Ty}
    (refers : address.Refers table layout ty) (narrow : ∀ entry ∈ table, entry.Narrow) :
    ty.Narrow := by
  obtain ⟨start, roots, path⟩ := refers
  have declared : ∃ entry ∈ table, entry.ty = start := by
    generalize address.root = location at roots
    cases roots with
    | static found => exact ⟨_, List.mem_of_getElem? found, rfl⟩
    | frame active owned found => exact ⟨_, List.mem_of_getElem? found, rfl⟩
  obtain ⟨entry, member, rfl⟩ := declared
  exact Ty.Narrow.path (narrow entry member) path

end StackScript
