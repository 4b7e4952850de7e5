import StackScript.Proofs.Evaluation

namespace StackScript

/-! Static types are exact at run time where no int comes out of a choice between an int and a
float. -/

variable {r : Registry} {stmts : List Stmt} {unit : CodeUnit} {source : String}
variable {before last m : Machine} {start steps : Nat} {listing : Listing} {e : Expr} {ty : Ty}

/-- A run that evaluates a piece of code: from its start to the first time that the same invocation
is behind it. -/
structure Machine.Evaluation (unit : CodeUnit) (listing : Listing) (start : Nat)
    (before last : Machine) (steps : Nat) : Prop extends Stretch unit before last steps where
  reached : After unit start before
  stands : Stands unit.code before.ip listing
  arrived : last.ip = before.ip + listing.width
  first : ∀ t < steps, (before.later unit t).ip = before.ip + listing.width →
    (before.later unit t).frames.size ≠ before.frames.size

namespace Machine.Evaluation

/-- A run that comes by the end of the code is there at its end. -/
theorem exists_wanted (wanted : Layout → List Operand → Prop) (builds : Builds source unit)
    (evaluation : Evaluation unit listing start before last steps)
    (passes : unit.Passes (before.ip + listing.width) wanted before.ip before.layout
      before.stack.toList.reverse)
    (within : ∀ layout operands, wanted layout operands → before.layout.Within layout) :
    ∃ operands, wanted last.layout operands ∧
      last.Rests unit.table last.ip last.layout operands := by
  obtain ⟨a, configured⟩ := builds.exists_configured evaluation.reached
  obtain ⟨t, bound, layout, operands, fine, rests⟩ :=
    passes evaluation.reached ⟨configured.typed, rfl, rfl, rfl⟩ evaluation.toStretch
      (Nat.le_of_eq evaluation.arrived.symm)
  obtain rfl : t = steps := by
    by_contra other
    apply evaluation.first t (Nat.lt_of_le_of_ne bound other) rests.ip_eq
    rw [frames_size rests, (within layout operands fine).length_eq, layout_length]
  rw [later, evaluation.run] at rests
  obtain rfl : layout = last.layout := rests.layout_eq.symm
  exact ⟨operands, fine, evaluation.arrived ▸ rests⟩

theorem exists_left (builds : Builds source unit) (describes : unit.Describes r)
    (typed : e.Typed r ty) (evaluation : Evaluation unit e.listing start before last steps) :
    ∃ operand, last.stack = before.stack.push operand ∧
      e.Leaves r unit.table last.layout ty operand := by
  obtain ⟨operands, ⟨operand, -, leaves, rfl⟩, rests⟩ :=
    evaluation.exists_wanted
      (fun layout operands => ∃ operand, before.layout.Within layout ∧
        e.Leaves r unit.table layout ty operand ∧
          operands = operand :: before.stack.toList.reverse)
      builds
      (e.passes builds describes typed evaluation.stands (Nat.le_refl _)
        fun layout operand within leaves => .arrive ⟨operand, within, leaves, rfl⟩)
      (fun layout operands ⟨_, within, _⟩ => within)
  refine ⟨operand, ?_, leaves⟩
  have stack := congrArg List.reverse rests.stack_eq
  rw [List.reverse_reverse, List.reverse_cons, List.reverse_reverse] at stack
  rw [← Array.toList_inj, stack, Array.toList_push]

/-- Behind the code of the index values of an element they lie on the address of the array. -/
theorem exists_indexes {array : Expr} {indexes : List Expr} {tys : List Ty}
    (builds : Builds source unit) (describes : unit.Describes r) (typed : array.Typed r ty)
    (all : Expr.TypedAll r indexes tys)
    (evaluation :
      Evaluation unit (array.listing ++ Expr.listings indexes) start before last steps) :
    ∃ address taken, array.Leaves r unit.table last.layout ty address ∧
      Expr.LeavesAll r unit.table last.layout indexes tys taken ∧
        last.Rests unit.table last.ip last.layout
          (taken.reverse ++ address :: before.stack.toList.reverse) := by
  have width := Nat.add_assoc before.ip array.listing.width (Expr.listings indexes).width
  rw [← Listing.width_append] at width
  obtain ⟨operands, ⟨address, taken, -, leaves, left, rfl⟩, rests⟩ :=
    evaluation.exists_wanted
      (fun layout operands => ∃ address taken, before.layout.Within layout ∧
        array.Leaves r unit.table layout ty address ∧
          Expr.LeavesAll r unit.table layout indexes tys taken ∧
            operands = taken.reverse ++ address :: before.stack.toList.reverse)
      builds
      (array.passes builds describes typed evaluation.stands.append_left (by omega)
        fun layout address within leaves =>
          Expr.passes_all builds describes indexes all evaluation.stands.append_right
            (Nat.le_of_eq width) fun layout' taken within' left => width ▸
              .arrive ⟨address, taken, within.trans within', leaves.grow within'.grows, left, rfl⟩)
      (fun layout operands ⟨_, _, within, _⟩ => within)
  exact ⟨address, taken, leaves, left, rests⟩

/-- Outside of functions no other invocation has to be told apart. -/
theorem of_outermost {place : Nat}
    (run : (runFor unit (start + steps) (.initial unit.table)).1 = .running)
    (stands : Stands unit.code place listing)
    (starts : ((Machine.initial unit.table).later unit start).ip = place)
    (outside : ((Machine.initial unit.table).later unit start).frames.size = 0)
    (outside' : ((Machine.initial unit.table).later unit (start + steps)).frames.size = 0)
    (ends : ((Machine.initial unit.table).later unit (start + steps)).ip = place + listing.width)
    (first : ∀ t < steps,
      ((Machine.initial unit.table).later unit (start + t)).ip ≠ place + listing.width) :
    Evaluation unit listing start ((Machine.initial unit.table).later unit start)
      ((Machine.initial unit.table).later unit (start + steps)) steps := by
  obtain ⟨middle, reached, onwards⟩ := runFor_split (runFor_later run)
  have same : (Machine.initial unit.table).later unit start = middle :=
    congrArg Prod.snd reached
  subst starts
  rw [same] at stands outside ends first ⊢
  exact
    { run := onwards
      inside := fun t _ => outside ▸ Nat.zero_le _
      top := outside'.trans outside.symm
      reached
      stands
      arrived := ends
      first := by
        intro t sooner arrived
        rw [← later_add reached] at arrived
        exact absurd arrived (first t sooner) }

end Machine.Evaluation

/-- However the run goes on in its invocation, the operand is read as a value of exactly the type,
whatever it lies on then. -/
def Machine.ReadsAs (unit : CodeUnit) (last : Machine) (operand : Operand) (ty : Ty) : Prop :=
  ∀ ⦃more : Nat⦄ ⦃m : Machine⦄, Remains unit last m more → ∀ stack : Array Operand,
    ∃ v m', Action.popValue { m with stack := stack.push operand } = .ok v m' ∧ v.HasTy ty

theorem Operand.Exact.readsAs {operand : Operand} (exact : operand.Exact unit.table last.layout ty)
    (builds : Builds source unit) (after : Machine.After unit start last) :
    last.ReadsAs unit operand ty := by
  intro more m remains stack
  obtain ⟨a, configured⟩ := builds.exists_configured (after.add remains.run)
  have later := exact.grow (remains.grows after)
  have rests : Machine.Rests unit.table m.ip m.layout (operand :: stack.toList.reverse)
      { m with stack := stack.push operand } :=
    { typed := { configured.typed with }
      ip_eq := rfl
      layout_eq := rfl
      stack_eq := by simp }
  obtain ⟨v, m', read, typed, -⟩ := (Action.popValue_exact later).exists_ok rests
  exact ⟨v, m', read, typed⟩

/-- What the static types of a program promise for its runs. -/
structure ExactTypes (r : Registry) (stmts : List Stmt) (unit : CodeUnit) : Prop where
  /-- All expressions of the program have a type and can be evaluated. -/
  covers : ∀ e ∈ Stmt.expressionsOf stmts,
    (∃! ty, e.Typed r ty) ∧ ∃ place, Stands unit.code place e.listing
  /-- The types are those that expressions are read with. -/
  assigned : ∀ {levels : Nat} {scope : Scope} {s s' : Grammar.ParseState} {t : Grammar.Typed},
    s.registry.Extends r → '\x00' ∉ s.cursor.rest →
      (Grammar.nestedWithin levels).conditional scope s = .ok t s' → t.expr.Typed r t.ty
  value : ∀ {e : Expr} {ty : Ty} {start steps : Nat} {before last : Machine}, e.Typed r ty →
    (ty = .float → e.LeavesFloat r) →
      Machine.Evaluation unit e.listing start before last steps →
        ∃ operand, last.stack = before.stack.push operand ∧ last.ReadsAs unit operand ty
  index : ∀ {array : Expr} {indexes : List Expr} {ty : Ty} {start steps : Nat}
      {before last : Machine}, (Expr.element array indexes).Typed r ty →
    (∀ e ∈ indexes, e.Typed r .float → e.LeavesFloat r) →
      Stands unit.code before.ip (Expr.element array indexes).listing →
      Machine.Evaluation unit (array.listing ++ Expr.listings indexes) start before last steps →
        ∀ m, Machine.step unit last ≠ .error .inconsistentIndexDatatypes m
  operation : ∀ {e : Expr} {start steps : Nat} {before last : Machine}, e.isOperation = true →
    e.Typed r .float → e.LeavesFloat r →
      Machine.Evaluation unit e.listing start before last steps →
        ∃ x, last.stack = before.stack.push (.value (.float x))

/-- The literals of a choice between an int and a float. -/
def Expr.chosenLiterals? : Expr → Option (Bool × Int64 × UInt64)
  | .choice (.literal (.bool b)) (.literal (.int n)) (.literal (.float bits)) => some (b, n, bits)
  | _ => none

theorem Expr.chosenLiterals?_eq {b : Bool} {n : Int64} {bits : UInt64}
    (known : e.chosenLiterals? = some (b, n, bits)) :
    e = .choice (.literal (.bool b)) (.literal (.int n)) (.literal (.float bits)) := by
  unfold chosenLiterals? at known
  split at known
  · cases known
    rfl
  · cases known

/-- The int that an operand is. -/
def Operand.int? : Operand → Option Int64
  | .value (.int n) => some n
  | _ => none

theorem Operand.int?_eq {operand : Operand} {n : Int64} (known : operand.int? = some n) :
    operand = .value (.int n) := by
  unfold int? at known
  split at known
  · cases known
    rfl
  · cases known

namespace Builds

theorem step_ne_inconsistent {array : Expr} {indexes : List Expr} (builds : Builds source unit)
    (describes : unit.Describes r) (typed : (Expr.element array indexes).Typed r ty)
    (widened : ∀ e ∈ indexes, e.Typed r .float → e.LeavesFloat r)
    (stands : Stands unit.code before.ip (Expr.element array indexes).listing)
    (evaluation :
      Machine.Evaluation unit (array.listing ++ Expr.listings indexes) start before last steps) :
    Machine.step unit last ≠ .error .inconsistentIndexDatatypes m := by
  intro failed
  obtain ⟨index, isPlace, typedA, all⟩ := typed
  obtain ⟨address, taken, leaves, left, rests⟩ :=
    evaluation.exists_indexes builds describes typedA all
  have length := (Expr.TypedAll.length indexes _ all).trans (List.length_map ..)
  have decoded := stands.append_right.decode trivial
  rw [← evaluation.arrived, length] at decoded
  rw [Machine.step_eq decoded] at failed
  have place := leaves.shaped
  rw [Expr.shape, if_pos isPlace] at place
  have exact := List.forall₂_reverse_iff.mpr (left.exact all widened)
  rw [← List.map_reverse] at exact
  have executes : Meets
      (Machine.Rests unit.table (last.ip + (Instruction.putIndAddr (UInt8.ofNat index.length)).width)
        last.layout (taken.reverse ++ address :: before.stack.toList.reverse))
      (Action.execute unit.table (.putIndAddr (UInt8.ofNat index.length))) (fun _ _ => True)
      (fun fault _ => fault ≠ Fault.inconsistentIndexDatatypes) :=
    Meets.seq (Action.indexAddress_accepts exact place) (Meets.pure fun _ _ => trivial)
  exact executes.error (rests.fetch _) failed rfl

/-- Whatever type the parser gives to an expression, its code leaves a value of exactly that type, if
every float of it is computed as one. -/
theorem exactTypes (builds : Builds source unit) (compiled : Compiled source r stmts unit) :
    ExactTypes r stmts unit := by
  have program := compiled.typedProgram builds.clean
  have describes : unit.Describes r := by
    obtain rfl := compiled.linked
    exact program.describes builds.addressable
  refine ⟨?_, ?_, ?_, ?_, ?_⟩
  · intro e member
    obtain ⟨⟨ty, typed⟩, placed⟩ := program.placed member
    obtain rfl := compiled.linked
    exact ⟨⟨ty, typed, fun _ typed' => Expr.Typed.unique e typed' typed⟩, placed⟩
  · intro levels scope s s' t grown clean read
    have sound := ((Grammar.nestedWithin_sound levels).conditional scope).ok ⟨rfl, clean⟩ read
    exact Expr.Typed.extend grown t.expr t.ty sound.1
  · intro e ty start steps before last typed widened evaluation
    obtain ⟨operand, stack, leaves⟩ := evaluation.exists_left builds describes typed
    exact ⟨operand, stack,
      (leaves.exact widened).readsAs builds (evaluation.reached.add evaluation.run)⟩
  · intro array indexes ty start steps before last typed widened stands evaluation m
    exact builds.step_ne_inconsistent describes typed widened stands evaluation
  · intro e start steps before last operation typed float evaluation
    obtain ⟨operand, stack, leaves⟩ := evaluation.exists_left builds describes typed
    obtain ⟨v, rfl⟩ := leaves.computed operation
    obtain ⟨x, rfl⟩ := Value.HasTy.exists_float (leaves.float float)
    exact ⟨x, stack⟩

/-- The index `1 + 0.5` is computed as a float. -/
theorem sum_index_accepted :
    ∃ before middle last : Machine,
      Machine.Evaluation (compile "array [float] of int a a[1 + 0.5] = 7").unit
        ((Expr.cell .static 6).listing ++ Expr.listings
          [.arith .add (.literal (.int 1)) (.literal (.float 0x3fe0000000000000))]) 7 before last 4 ∧
      (∀ m, Machine.step (compile "array [float] of int a a[1 + 0.5] = 7").unit last ≠
        .error .inconsistentIndexDatatypes m) ∧
      Machine.Evaluation (compile "array [float] of int a a[1 + 0.5] = 7").unit
        (Expr.arith .add (.literal (.int 1)) (.literal (.float 0x3fe0000000000000))).listing 8
        middle last 3 ∧
      ∃ x, last.stack = middle.stack.push (.value (.float x)) := by
  have builds : Builds "array [float] of int a a[1 + 0.5] = 7"
      (compile "array [float] of int a a[1 + 0.5] = 7").unit :=
    .of_compile (by decide +kernel) (by decide +kernel) (by decide +kernel)
  obtain ⟨r, stmts, compiled⟩ := exists_compiled builds.success
  have types := builds.exactTypes compiled
  obtain ⟨s, found, declared⟩ : ∃ s, r.get? 6 = some s ∧
      (s.kind, s.ty) = (.var, .array [.float] .int) := by
    have known : (read? "array [float] of int a a[1 + 0.5] = 7").bind
        (fun known => (known.2.get? 6).map fun s => (s.kind, s.ty)) =
          some (.var, .array [.float] .int) := by
      decide +kernel
    rw [compiled.read?_eq] at known
    exact Option.map_eq_some_iff.mp known
  obtain ⟨kind, ty⟩ := Prod.mk.inj declared
  generalize same : (compile "array [float] of int a a[1 + 0.5] = 7").unit = unit at types ⊢
  generalize sum_eq :
    Expr.arith .add (.literal (.int 1)) (.literal (.float 0x3fe0000000000000)) = sum
  have widened : sum.LeavesFloat r := sum_eq ▸ .inr (.inr ⟨rfl, trivial⟩)
  have typed : sum.Typed r .float :=
    sum_eq ▸ ⟨.int, .float, ⟨rfl, trivial⟩, ⟨rfl, trivial⟩, rfl⟩
  have element : (Expr.element (.cell .static 6) [sum]).Typed r .int :=
    ⟨[.float], rfl, ⟨s, found, kind ▸ rfl, ty⟩, typed, trivial⟩
  -- The run is computed once, for all that it has to show.
  obtain ⟨run, starts, starts', ends, outside, outside', outside'', first, first', width, width',
      operation, placed, length⟩ :
      (Machine.runFor unit 11 (.initial unit.table)).1 = .running ∧
      ((Machine.initial unit.table).later unit 7).ip = 21 ∧
      ((Machine.initial unit.table).later unit 8).ip = 26 ∧
      ((Machine.initial unit.table).later unit 11).ip = 49 ∧
      ((Machine.initial unit.table).later unit 7).frames.size = 0 ∧
      ((Machine.initial unit.table).later unit 8).frames.size = 0 ∧
      ((Machine.initial unit.table).later unit 11).frames.size = 0 ∧
      (∀ t < 4, ((Machine.initial unit.table).later unit (7 + t)).ip ≠ 49) ∧
      (∀ t < 3, ((Machine.initial unit.table).later unit (8 + t)).ip ≠ 49) ∧
      ((Expr.cell .static 6).listing ++ Expr.listings [sum]).width = 28 ∧
      sum.listing.width = 23 ∧ sum.isOperation = true ∧
      unit.code = unit.code.take 21 ++ ((Expr.element (.cell .static 6) [sum]).listing.bytes 21 ++
        unit.code.drop 51) ∧ (unit.code.take 21).length = 21 := by
    subst same sum_eq
    decide +kernel
  have stands : Stands unit.code 21 (Expr.element (.cell .static 6) [sum]).listing :=
    ⟨_, _, placed, length⟩
  have whole : Machine.Evaluation unit _ 7 _ _ 4 :=
    .of_outermost run stands.append_left starts outside outside'' (by rw [width]; exact ends)
      (by rw [width]; exact first)
  have inner : Machine.Evaluation unit sum.listing 8 _ _ 3 :=
    .of_outermost run stands.append_left.append_right.append_left starts' outside' outside''
      (by rw [width']; exact ends) (by rw [width']; exact first')
  exact ⟨_, _, _, whole, types.index element (List.forall_mem_singleton.mpr fun _ => widened)
    (starts ▸ stands) whole, inner, types.operation operation typed widened inner⟩

/-- The index `true ? 1 : 2.5` has the type of a float, and is an int. -/
theorem choice_index_refused :
    ∃ (e : Expr) (r : Registry) (stmts : List Stmt) (before last : Machine),
      e = .choice (.literal (.bool true)) (.literal (.int 1))
        (.literal (.float 0x4004000000000000)) ∧
      Builds "array [float] of int a a[true ? 1 : 2.5] = 7"
        (compile "array [float] of int a a[true ? 1 : 2.5] = 7").unit ∧
      Compiled "array [float] of int a a[true ? 1 : 2.5] = 7" r stmts
        (compile "array [float] of int a a[true ? 1 : 2.5] = 7").unit ∧
      e ∈ Stmt.expressionsOf stmts ∧ e.Typed r .float ∧
      Machine.Evaluation (compile "array [float] of int a a[true ? 1 : 2.5] = 7").unit e.listing 8
        before last 4 ∧
      last.stack.back? = some (.value (.int 1)) ∧
      (Machine.runFor (compile "array [float] of int a a[true ? 1 : 2.5] = 7").unit 1 last).1 =
        .failed .inconsistentIndexDatatypes := by
  have builds : Builds "array [float] of int a a[true ? 1 : 2.5] = 7"
      (compile "array [float] of int a a[true ? 1 : 2.5] = 7").unit :=
    .of_compile (by decide +kernel) (by decide +kernel) (by decide +kernel)
  obtain ⟨r, stmts, compiled⟩ := exists_compiled builds.success
  have member :
      Expr.choice (.literal (.bool true)) (.literal (.int 1))
        (.literal (.float 0x4004000000000000)) ∈ Stmt.expressionsOf stmts := by
    have known : (read? "array [float] of int a a[true ? 1 : 2.5] = 7").bind
        (fun known => (Stmt.expressionsOf known.1)[2]?.bind Expr.chosenLiterals?) =
          some (true, 1, 0x4004000000000000) := by
      decide +kernel
    rw [compiled.read?_eq, Option.bind_some] at known
    obtain ⟨e, listed, parts⟩ := Option.bind_eq_some_iff.mp known
    rw [← Expr.chosenLiterals?_eq parts]
    exact List.mem_of_getElem? listed
  generalize same : (compile "array [float] of int a a[true ? 1 : 2.5] = 7").unit = unit
    at builds compiled ⊢
  -- The run is computed once, for all that it has to show.
  obtain ⟨run, starts, ends, outside, outside', first, width, placed, length, pushed, refused⟩ :
      (Machine.runFor unit 12 (.initial unit.table)).1 = .running ∧
      ((Machine.initial unit.table).later unit 8).ip = 26 ∧
      ((Machine.initial unit.table).later unit 12).ip = 60 ∧
      ((Machine.initial unit.table).later unit 8).frames.size = 0 ∧
      ((Machine.initial unit.table).later unit 12).frames.size = 0 ∧
      (∀ t < 4, ((Machine.initial unit.table).later unit (8 + t)).ip ≠ 60) ∧
      (Expr.choice (.literal (.bool true)) (.literal (.int 1))
        (.literal (.float 0x4004000000000000))).listing.width = 34 ∧
      unit.code = unit.code.take 26 ++
        ((Expr.choice (.literal (.bool true)) (.literal (.int 1))
          (.literal (.float 0x4004000000000000))).listing.bytes 26 ++ unit.code.drop 60) ∧
      (unit.code.take 26).length = 26 ∧
      ((Machine.initial unit.table).later unit 12).stack.back?.bind Operand.int? = some 1 ∧
      (Machine.runFor unit 1 ((Machine.initial unit.table).later unit 12)).1 =
        .failed .inconsistentIndexDatatypes := by
    subst same
    decide +kernel
  have evaluation : Machine.Evaluation unit _ 8 _ _ 4 :=
    .of_outermost run ⟨_, _, placed, length⟩ starts outside outside' (by rw [width]; exact ends)
      (by rw [width]; exact first)
  obtain ⟨operand, top, int⟩ := Option.bind_eq_some_iff.mp pushed
  obtain rfl := Operand.int?_eq int
  exact ⟨_, r, stmts, _, _, rfl, builds, compiled, member,
    ⟨.int, .float, ⟨rfl, trivial⟩, ⟨rfl, trivial⟩, ⟨rfl, trivial⟩, rfl, rfl⟩, evaluation, top,
    refused⟩

end Builds

end StackScript
