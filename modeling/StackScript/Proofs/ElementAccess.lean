import StackScript.Proofs.Machine.Indexing
import StackScript.Proofs.Tree.Element

namespace StackScript

/-! Runs of code that sets elements of variables to constants. -/

variable {r : Registry} {unit : CodeUnit} {m m' m'' : Machine} {location : Location}
variable {lifetime : Lifetime} {symbol : Nat} {path : List Key} {key : Key} {a : Atom} {ty : Ty}
variable {e : Expr} {indexes : List Expr}

namespace Machine

/-- A run through a piece of code, from its first instruction to what is behind it. -/
structure Traverses (unit : CodeUnit) (listing : Listing) (m m' : Machine) : Prop where
  reaches : Reaches unit listing.width m m'
  ip_eq : m'.ip = m.ip + listing.width

namespace Traverses

variable {front back : Listing} {i : Instruction}

theorem nil : Traverses unit [] m m where
  reaches := ⟨0, Nat.le_refl 0, rfl⟩
  ip_eq := rfl

theorem append (first : Traverses unit front m m') (second : Traverses unit back m' m'') :
    Traverses unit (front ++ back) m m'' where
  reaches := by
    rw [Listing.width_append]
    exact first.reaches.trans second.reaches
  ip_eq := by rw [second.ip_eq, first.ip_eq, Listing.width_append, Nat.add_assoc]

theorem behind (first : Traverses unit front m m')
    (stands : Stands unit.code m.ip (front ++ back)) : Stands unit.code m'.ip back :=
  first.ip_eq ▸ stands.append_right

theorem single (stands : Stands unit.code m.ip [i]) (clean : i.NulFree) (plain : i.shift m.ip = i)
    (executed : Action.execute unit.table i { m with ip := m.ip + i.width } = .ok .running m')
    (next : m'.ip = m.ip + i.width) : Traverses unit [i] m m' where
  reaches := by
    have decoded := stands.decode clean
    rw [plain] at decoded
    exact reaches_of_execute decoded executed
  ip_eq := next

end Traverses

/-- The machine between two statements outside of functions. -/
structure Idle (table : List Entry) (m : Machine) : Prop where
  typed : m.Typed table
  empty : m.stack = #[]

/-- Something is found behind a path of index tuples in a cell. -/
def Holds (m : Machine) (location : Location) (path : List Key) (value : Value) : Prop :=
  ∃ v, m.cell? location = some v ∧ v.find? path = some value

end Machine

open Machine

/-! Constants. -/

theorem Literal.instruction_clean {l : Literal} (clean : l.NulFree) : l.instruction.NulFree := by
  cases l <;> exact clean

theorem Literal.execute_eq (table : List Entry) (l : Literal)
    (room : m.stack.size < Machine.stackLimit) :
    Action.execute table l.instruction m =
      .ok .running { m with stack := m.stack.push (.value (.atom l.atom)) } := by
  have pushed := @Action.push_eq m (.value (.atom l.atom)) room
  cases l <;> exact (Action.bind_eq pushed).trans rfl

namespace Expr

/-- The code of a constant puts its value on the stack. -/
theorem Constant.traverses (constant : e.Constant a) (typed : e.Typed r ty)
    (stands : Stands unit.code m.ip e.listing) (room : m.stack.size < Machine.stackLimit) :
    Traverses unit e.listing m (m.pushed e.listing.width a) := by
  induction constant generalizing ty with
  | literal l =>
      rw [listing] at stands ⊢
      exact .single stands (Literal.instruction_clean typed.2) (by cases l <;> rfl)
        (l.execute_eq unit.table room) rfl
  | @negate e a b inner negative induction =>
      rw [listing] at stands ⊢
      have operand := induction typed.1 stands.append_left
      have negated := @Action.neg_ok
        { m.pushed e.listing.width a with ip := m.ip + e.listing.width + Instruction.neg.width }
        m.stack unit.table _ _ rfl negative room
      have whole := operand.append
        (.single (operand.behind stands) trivial rfl negated rfl)
      rw [pushed, Listing.width_append, ← Nat.add_assoc]
      exact whole

/-- The code of constants puts their values on the stack, the last one on top. -/
theorem constants_traverse {tys : List Ty} (constants : List.Forall₂ Constant indexes key)
    (all : TypedAll r indexes tys) (stands : Stands unit.code m.ip (listings indexes))
    (room : m.stack.size + key.length ≤ Machine.stackLimit) :
    Traverses unit (listings indexes) m
      { m with
        ip := m.ip + (listings indexes).width
        stack := m.stack ++ Action.operands key } := by
  induction constants generalizing m tys with
  | nil => exact ⟨⟨0, Nat.le_refl 0, by simp [runFor, listings, Action.operands]⟩, rfl⟩
  | @cons e a indexes key constant others induction =>
      cases tys with
      | nil => exact all.elim
      | cons ty tys =>
          rw [listings] at stands ⊢
          rw [List.length_cons] at room
          have front := constant.traverses all.1 stands.append_left (by omega)
          have back := induction all.2 (front.behind stands) (by
            simp only [pushed, Array.size_push]
            omega)
          rw [Listing.width_append, Action.append_operands_cons, ← Nat.add_assoc]
          exact front.append back

theorem Element.exists_start (element : e.Element lifetime symbol path)
    (describes : unit.Describes r) (typed : e.Typed r ty)
    (located : m.Locates symbol location lifetime) :
    ∃ start, location.Roots unit.table m.layout start ∧ Ty.Path start path ty := by
  obtain ⟨s, found, -, leads⟩ := element.exists_symbol typed
  obtain ⟨entry, listed, same, -⟩ := describes.entry symbol s found
  exact ⟨entry.ty, located.roots listed (describes.toNat found), same ▸ leads⟩

/-- The code of an element puts its address on the stack; on the way only the variable is edited. -/
theorem Element.traverses (element : e.Element lifetime symbol path)
    (describes : unit.Describes r) (typed : e.Typed r ty)
    (narrow : ∀ key ∈ path, key.length < 256) (cells : m.Typed unit.table)
    (located : m.Locates symbol location lifetime) (stands : Stands unit.code m.ip e.listing)
    (room : m.stack.size + 256 ≤ stackLimit) :
    ∃ m', Traverses unit e.listing m m' ∧
      m'.stack = m.stack.push (.address { root := location, path }) ∧
        Edits unit.table location m m' := by
  have free : m.stack.size < stackLimit := by omega
  induction element generalizing ty with
  | root =>
      obtain ⟨s, found, isStatic, -⟩ := Element.root.exists_symbol typed
      obtain ⟨entry, listed, -, data, -⟩ := describes.entry symbol s found
      have unread := Edits.refl cells location
      cases lifetime with
      | static =>
          obtain rfl := located
          have small : symbol < 2 ^ 32 :=
            describes.toNat found ▸ (UInt32.ofNat symbol).toNat_lt
          exact ⟨_, .single stands trivial rfl
            (Action.putAddr_eq (m := { m with ip := _ }) small listed (data (isStatic rfl)) free)
            rfl, rfl, unread.move _ _⟩
      | dynamic =>
          exact ⟨_, .single stands trivial rfl
            (Action.putDAddr_eq (m := { m with ip := _ }) located free) rfl, rfl, unread.move _ _⟩
  | @index array indexes path key inner constants induction =>
      obtain ⟨index, -, typedA, all⟩ := typed
      obtain ⟨outer, last⟩ := List.forall_mem_append.mp narrow
      have short : key.length < 256 := last key (List.mem_singleton.mpr rfl)
      rw [listing] at stands ⊢
      obtain ⟨m₁, front, stack₁, edits₁⟩ := induction typedA outer stands.append_left.append_left
      have middle := constants_traverse constants all (front.behind stands.append_left) (by
        rw [stack₁, Array.size_push]
        omega)
      have whole := front.append middle
      have place := whole.behind stands
      have counted : key.length = (UInt8.ofNat indexes.length).toNat := by
        rw [← constants.length_eq] at short
        rw [UInt8.toNat_ofNat_of_lt' short, constants.length_eq]
      obtain ⟨start, roots, leads⟩ := inner.exists_start describes typedA located
      rw [← edits₁.layout_eq] at roots
      obtain ⟨value, held, valueTyped⟩ := Machine.exists_cell edits₁.typed roots
      let m₂ : Machine :=
        { m₁ with
          ip := m₁.ip + (listings indexes).width
          stack := m₁.stack ++ Action.operands key }
      let operator := Instruction.putIndAddr (UInt8.ofNat indexes.length)
      obtain ⟨value', typed', executed⟩ := @Action.indexAddress_eq
        { m₂ with ip := m₂.ip + operator.width } m.stack location start path key index ty value
        unit.table _ (congrArg (· ++ _) stack₁) counted held leads (constants_exact constants all)
        valueTyped free
      have read : Edits unit.table location m₁ { m₂ with ip := m₂.ip + operator.width } :=
        (Edits.refl edits₁.typed location).move _ _
      refine ⟨_, whole.append (.single place trivial rfl executed withCell_ip), rfl,
        edits₁.trans (read.trans ((read.typed.edits roots typed').move _ _))⟩

/-- More indexes than a byte counts leave one of them where the address is expected. -/
theorem Element.fails (inner : e.Element lifetime symbol path)
    (constants : List.Forall₂ Constant indexes key) (describes : unit.Describes r)
    (typed : (Expr.element e indexes).Typed r ty) (narrow : e.Narrow) (wide : 256 ≤ key.length)
    (cells : m.Typed unit.table) (located : m.Locates symbol location lifetime)
    (stands : Stands unit.code m.ip (Expr.element e indexes).listing)
    (room : m.stack.size + 256 + key.length ≤ stackLimit) :
    ∃ steps ≤ (Expr.element e indexes).listing.width, ∃ m',
      runFor unit steps m = (.failed (.expectedAddress .putIndAddr), m') := by
  obtain ⟨index, -, typedA, all⟩ := typed
  rw [listing] at stands ⊢
  obtain ⟨m₁, front, stack₁, -⟩ := inner.traverses describes typedA (inner.narrow narrow) cells
    located stands.append_left.append_left (by omega)
  have whole := front.append (constants_traverse constants all (front.behind stands.append_left) (by
    rw [stack₁, Array.size_push]
    omega))
  let operator := Instruction.putIndAddr (UInt8.ofNat indexes.length)
  let m₂ : Machine :=
    { m₁ with
      ip := m₁.ip + (listings indexes).width
      stack := m₁.stack ++ Action.operands key }
  have decoded : unit.instructionAt? m₂.ip = some (operator, operator.width) :=
    (whole.behind stands).decode trivial
  have uncounted : (UInt8.ofNat indexes.length).toNat < key.length :=
    Nat.lt_of_lt_of_le (UInt8.toNat_lt _) wide
  obtain ⟨m', failed⟩ := @Action.indexAddress_error { m₂ with ip := m₂.ip + operator.width }
    m₁.stack key unit.table _ rfl uncounted
  obtain ⟨steps, bound, run⟩ := whole.reaches
  refine ⟨steps + 1, ?_, m', (runFor_add run 1).trans ?_⟩
  · rw [Listing.width_append]
    exact Nat.add_le_add bound (Instruction.decode?_width_pos decoded)
  · rw [runFor, (step_eq decoded).trans failed]

end Expr

namespace Stmt

variable {target value : Expr} {scope : Scope} {stmts : List Stmt}

/-- What a constant is assigned to has the type of a scalar that accepts it. -/
theorem exists_scalar (constant : value.Constant a)
    (typed : (Stmt.assign target .set value).Typed r scope) :
    ∃ t, target.Typed r (.scalar t) ∧ t.accepts a.scalar = true := by
  obtain ⟨ty, source, -, typedT, typedV, update⟩ := typed
  have assignable : ty.assignable (.scalar a.scalar) = true := by
    rw [constant.exact typedV]
    exact (Bool.and_eq_true_iff.mp update).1
  obtain ⟨t, rfl, accepts⟩ := Value.exists_scalar_of_assignable assignable
  exact ⟨t, typedT, accepts⟩

/-- An assignment of a constant edits one cell, in which the constant is found afterwards under the
given indexes. -/
theorem assign_traverses {t : Scalar} (element : target.Element lifetime symbol path)
    (constant : value.Constant a) (describes : unit.Describes r)
    (typed : (Stmt.assign target .set value).Typed r scope) (typedT : target.Typed r (.scalar t))
    (narrow : target.Narrow) (numbers : target.AllLiterals fun l => l.atom.isNaN = false)
    (cells : m.Typed unit.table) (located : m.Locates symbol location lifetime)
    (stands : Stands unit.code m.ip (Stmt.assign target .set value).listing)
    (room : m.stack.size + 256 ≤ stackLimit) :
    ∃ m', Traverses unit (Stmt.assign target .set value).listing m m' ∧ m'.stack = m.stack ∧
      Edits unit.table location m m' ∧ m'.Holds location path (.atom (a.widen t)) := by
  obtain ⟨t', typedT', accepts⟩ := exists_scalar constant typed
  obtain rfl := Ty.scalar.inj (Expr.Typed.unique target typedT typedT')
  obtain ⟨-, source, -, -, typedV, -⟩ := typed
  rw [listing] at stands ⊢
  obtain ⟨m₁, front, stack₁, edits₁⟩ := element.traverses describes typedT
    (element.narrow narrow) cells located stands.append_left.append_left room
  have room₁ : m₁.stack.size < stackLimit := by
    rw [stack₁, Array.size_push]
    omega
  have middle := constant.traverses typedV (front.behind stands.append_left) room₁
  have whole := front.append middle
  obtain ⟨start, roots, leads⟩ := element.exists_start describes typedT located
  rw [← edits₁.layout_eq] at roots
  obtain ⟨v, held, vTyped⟩ := Machine.exists_cell edits₁.typed roots
  let m₂ : Machine :=
    { m₁.pushed value.listing.width a with
      ip := m₁.ip + value.listing.width + (Instruction.assign .set).width }
  have top : m₂.stack =
      (m.stack.push (.address { root := location, path })).push (.value (.atom a)) := by
    rw [← stack₁]
    rfl
  obtain ⟨v', vTyped', found, executed⟩ := Action.assign_constant_eq unit.table top held leads
    accepts (element.numbers numbers) vTyped
  have read : Edits unit.table location m₁ m₂ := (Edits.refl edits₁.typed location).move _ _
  refine ⟨_, whole.append (.single (whole.behind stands) trivial rfl executed withCell_ip), rfl,
    edits₁.trans (read.trans ((read.typed.edits roots vTyped').move _ _)), v', ?_, found⟩
  have there : (m₂.withCell location v').cell? location = some v' :=
    @cell?_withCell m₂ location v held v'
  cases location <;> exact there

/-! Statements that stand one after the other. -/

/-- Straight statements as a program has them. -/
structure Ready (r : Registry) (scope : Scope) (stmts : List Stmt) : Prop where
  straight : StraightAll stmts
  typed : TypedAll r scope stmts
  static : ∀ cell ∈ resetsOf stmts, ∃ s, r.get? cell = some s ∧ s.kind.isStatic = true
  numbers : AllLiterals (fun l => l.atom.isNaN = false) stmts

namespace Ready

variable {stmt : Stmt} {rest stmts : List Stmt} {inside : Scope} {cells : List Nat}

theorem head (ready : Ready r scope (stmt :: rest)) : Ready r scope [stmt] where
  straight := ⟨ready.straight.1, trivial⟩
  typed := ⟨ready.typed.1, trivial⟩
  static := fun cell member =>
    ready.static cell (List.mem_append_left _ (by simpa [resetsOf] using member))
  numbers := fun l member =>
    ready.numbers l (List.mem_append_left _ (by simpa [expressionsOf] using member))

theorem tail (ready : Ready r scope (stmt :: rest)) : Ready r scope rest where
  straight := ready.straight.2
  typed := ready.typed.2
  static := fun cell member => ready.static cell (List.mem_append_right _ member)
  numbers := fun l member => ready.numbers l (List.mem_append_right _ member)

theorem body (ready : Ready r scope [.block inside cells stmts]) : Ready r inside stmts where
  straight := ready.straight.1
  typed := ready.typed.1.2.2
  static := fun cell member =>
    ready.static cell (List.mem_append_left _ (List.mem_append_right _ member))
  numbers := fun l member => ready.numbers l (List.mem_append_left _ member)

theorem declared (ready : Ready r scope [.block inside cells stmts]) :
    ∀ cell ∈ cells, ∃ s, r.get? cell = some s ∧ s.kind.isStatic = true :=
  fun cell member => ready.static cell (List.mem_append_left _ (List.mem_append_left _ member))

/-- The run of the last of some statements. -/
theorem assign_traverses {t : Scalar} (ready : Ready r scope [.assign target .set value])
    (element : target.Element .static symbol path) (constant : value.Constant a)
    (describes : unit.Describes r) (typed : target.Typed r (.scalar t)) (idle : m.Idle unit.table)
    (stands : Stands unit.code m.ip (Stmt.assign target .set value).listing) :
    ∃ m', Traverses unit (Stmt.assign target .set value).listing m m' ∧ m'.Idle unit.table ∧
      m'.Holds (.static symbol) path (.atom (a.widen t)) := by
  have room : m.stack.size + 256 ≤ stackLimit := by
    rw [idle.empty]
    decide
  obtain ⟨m', passed, stack, edits, holds⟩ := Stmt.assign_traverses element constant describes
    ready.typed.1 typed ready.straight.1.2.1
    (fun l member => ready.numbers l
      (List.mem_append_left _ (List.mem_append_left _ member)))
    idle.typed rfl stands room
  exact ⟨m', passed, ⟨edits.typed, stack.trans idle.empty⟩, holds⟩

end Ready

theorem resets_traverse {cells : List Nat} (describes : unit.Describes r)
    (static : ∀ cell ∈ cells, ∃ s, r.get? cell = some s ∧ s.kind.isStatic = true)
    (stands : Stands unit.code m.ip (cells.map fun cell => .initVar (UInt32.ofNat cell)))
    (idle : m.Idle unit.table) :
    ∃ m', Traverses unit (cells.map fun cell => .initVar (UInt32.ofNat cell)) m m' ∧
      m'.Idle unit.table := by
  induction cells generalizing m with
  | nil => exact ⟨m, .nil, idle⟩
  | cons cell cells induction =>
      obtain ⟨⟨s, found, isStatic⟩, others⟩ := List.forall_mem_cons.mp static
      obtain ⟨entry, listed, -, data, -⟩ := describes.entry cell s found
      obtain ⟨v, held, -⟩ := Machine.exists_cell idle.typed (.static listed)
      have small : cell < 2 ^ 32 := describes.toNat found ▸ (UInt32.ofNat cell).toNat_lt
      have whole : Stands unit.code m.ip
          ([.initVar (UInt32.ofNat cell)] ++
            cells.map fun cell => .initVar (UInt32.ofNat cell)) := stands
      have edits := idle.typed.edits (.static listed) (Value.hasTy_default entry.ty)
      have first := Traverses.single whole.append_left trivial rfl
        (Action.initVar_eq (m := { m with ip := _ }) small listed (data isStatic) held) rfl
      obtain ⟨m', rest, idle'⟩ := induction others (first.behind whole)
        ⟨(edits.move _ _).typed, idle.empty⟩
      exact ⟨m', first.append rest, idle'⟩

mutual

/-- Straight statements run from the first to the last. -/
theorem traverses (describes : unit.Describes r) : (stmt : Stmt) → ∀ {scope : Scope} {m : Machine},
    Ready r scope [stmt] → Stands unit.code m.ip stmt.listing → m.Idle unit.table →
      ∃ m', Traverses unit stmt.listing m m' ∧ m'.Idle unit.table
  | .assign target update value, _, _, ready, stands, idle => by
      obtain ⟨⟨rfl, -, ⟨symbol, path, element⟩, a, constant⟩, -⟩ := ready.straight
      obtain ⟨t, typed, -⟩ := exists_scalar constant ready.typed.1
      obtain ⟨m', passed, idle', -⟩ :=
        ready.assign_traverses element constant describes typed idle stands
      exact ⟨m', passed, idle'⟩
  | .declare _, _, m, _, _, idle => ⟨m, .nil, idle⟩
  | .function _ _ _ _, _, m, _, _, idle => ⟨m, .nil, idle⟩
  | .block _ declared body, _, _, ready, stands, idle => by
      rw [listing] at stands ⊢
      obtain ⟨m₁, front, idle₁⟩ :=
        resets_traverse describes ready.declared stands.append_left idle
      obtain ⟨m₂, back, idle₂⟩ :=
        traverses_all describes body ready.body (front.behind stands) idle₁
      exact ⟨m₂, front.append back, idle₂⟩

theorem traverses_all (describes : unit.Describes r) : (stmts : List Stmt) →
    ∀ {scope : Scope} {m : Machine}, Ready r scope stmts →
      Stands unit.code m.ip (listingOf stmts) → m.Idle unit.table →
        ∃ m', Traverses unit (listingOf stmts) m m' ∧ m'.Idle unit.table
  | [], _, m, _, _, idle => ⟨m, .nil, idle⟩
  | stmt :: rest, _, _, ready, stands, idle => by
      rw [listingOf] at stands ⊢
      obtain ⟨m₁, front, idle₁⟩ := traverses describes stmt ready.head stands.append_left idle
      obtain ⟨m₂, back, idle₂⟩ :=
        traverses_all describes rest ready.tail (front.behind stands) idle₁
      exact ⟨m₂, front.append back, idle₂⟩

end

/-- Behind straight statements the constant is found that the last of them assigns. -/
theorem Ends.traverses {t : Scalar} (ends : Ends (.assign target .set value) stmts)
    (ready : Ready r scope stmts) (element : target.Element .static symbol path)
    (constant : value.Constant a) (describes : unit.Describes r)
    (typed : target.Typed r (.scalar t))
    (stands : Stands unit.code m.ip (listingOf stmts)) (idle : m.Idle unit.table) :
    ∃ m', Traverses unit (listingOf stmts) m m' ∧ m'.Idle unit.table ∧
      m'.Holds (.static symbol) path (.atom (a.widen t)) := by
  induction ends generalizing m scope with
  | here silent =>
      rw [listingOf, silent, List.append_nil] at stands ⊢
      exact ready.head.assign_traverses element constant describes typed idle stands
  | inside inner silent induction =>
      rw [listingOf, silent, List.append_nil, listing] at stands ⊢
      obtain ⟨m₁, front, idle₁⟩ :=
        resets_traverse describes ready.head.declared stands.append_left idle
      obtain ⟨m₂, back, idle₂, holds⟩ :=
        induction ready.head.body (front.behind stands) idle₁
      exact ⟨m₂, front.append back, idle₂, holds⟩
  | @later stmt rest behind induction =>
      rw [listingOf] at stands ⊢
      obtain ⟨m₁, front, idle₁⟩ :=
        Stmt.traverses describes stmt ready.head stands.append_left idle
      obtain ⟨m₂, back, idle₂, holds⟩ := induction ready.tail (front.behind stands) idle₁
      exact ⟨m₂, front.append back, idle₂, holds⟩

end Stmt

end StackScript
