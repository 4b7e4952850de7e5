import StackScript.Proofs.Passage
import StackScript.Proofs.Tree.Parts

namespace StackScript

/-! What the code of an expression leaves on the stack: an operand of the static type, and exactly of
that type unless it comes out of a choice between an int and a float. -/

variable {r : Registry} {unit : CodeUnit} {table : List Entry} {layout layout' : Layout}

namespace Expr

/-- Whichever branches it takes, the expression leaves a float. -/
def LeavesFloat (r : Registry) : Expr → Prop
  | .negate operand => operand.LeavesFloat r
  | .arith operation lhs rhs => operation = .divide ∨ lhs.LeavesFloat r ∨ rhs.LeavesFloat r
  | .choice _ whenTrue whenFalse => whenTrue.LeavesFloat r ∧ whenFalse.LeavesFloat r
  | e => e.Typed r .float

/-- Whether the last instruction of an expression computes a number. -/
def isOperation : Expr → Bool
  | .negate _ | .arith _ _ _ => true
  | _ => false

theorem LeavesFloat.ty_eq : (e : Expr) → ∀ {ty : Ty}, e.LeavesFloat r → e.Typed r ty → ty = .float
  | .literal l, _, float, typed => Typed.unique (.literal l) typed float
  | .cell lifetime symbol, _, float, typed => Typed.unique (.cell lifetime symbol) typed float
  | .element array indexes, _, float, typed => Typed.unique (.element array indexes) typed float
  | .call function arguments, _, float, typed => Typed.unique (.call function arguments) typed float
  | .compare relation lhs rhs, _, float, typed =>
      Typed.unique (.compare relation lhs rhs) typed float
  | .negate operand, _, float, typed => LeavesFloat.ty_eq operand float typed.1
  | .arith operation lhs rhs, ty, float, typed => by
      obtain ⟨left, right, typedL, typedR, result⟩ := typed
      have numbers (numeric : left.isNumeric = true ∧ right.isNumeric = true)
          (one : left = .float ∨ right = .float) : Grammar.numericResult left right = .float := by
        rcases Value.numericResult_cases numeric.1 numeric.2 with ⟨rfl, rfl, -⟩ | common
        · simp at one
        · exact common
      have one : operation = .divide ∨ left = .float ∨ right = .float :=
        float.imp_right (Or.imp (LeavesFloat.ty_eq lhs · typedL) (LeavesFloat.ty_eq rhs · typedR))
      rcases Arithmetic.resultTy?_cases result with ⟨numericL, numericR, rfl⟩ |
        ⟨rfl, rfl, -, which⟩ | ⟨rfl, rfl, -, which⟩
      · rcases one with rfl | one
        · rfl
        · rw [numbers ⟨numericL, numericR⟩ one, ite_self]
      · rcases which with rfl | rfl <;> simp at one
      · rcases which with rfl | rfl <;> simp at one
  | .choice condition whenTrue whenFalse, _, ⟨floatT, floatF⟩, typed => by
      obtain ⟨accepted, refused, typedC, typedT, typedF, consistent, rfl⟩ := typed
      rw [LeavesFloat.ty_eq whenTrue floatT typedT, LeavesFloat.ty_eq whenFalse floatF typedF]
      rfl

/-- An operand that an expression of a type has left. -/
structure Leaves (r : Registry) (table : List Entry) (layout : Layout) (e : Expr) (ty : Ty)
    (operand : Operand) : Prop where
  shaped : operand.Shaped table layout (e.shape ty)
  float : e.LeavesFloat r → operand.Exact table layout .float
  computed : e.isOperation = true → ∃ v, operand = .value v

namespace Leaves

variable {e : Expr} {ty : Ty} {operand : Operand}

theorem grow (leaves : e.Leaves r table layout ty operand) (grows : layout.Grows layout') :
    e.Leaves r table layout' ty operand where
  shaped := leaves.shaped.grow grows
  float := fun float => (leaves.float float).grow grows
  computed := leaves.computed

theorem of_value {v : Value} (typed : e.Typed r ty) (value : e.isPlace = false)
    (exact : v.HasTy ty) : e.Leaves r table layout ty (.value v) where
  shaped := by
    rw [shape_value value]
    exact exact.fits
  float := by
    intro float
    rw [LeavesFloat.ty_eq e float typed] at exact
    exact exact
  computed := fun _ => ⟨v, rfl⟩

theorem of_place (typed : e.Typed r ty) (place : e.isPlace = true)
    (shaped : operand.Shaped table layout (.place ty)) : e.Leaves r table layout ty operand where
  shaped := by
    rw [shape, if_pos place]
    exact shaped
  float := by
    intro float
    rw [LeavesFloat.ty_eq e float typed] at shaped
    cases operand with
    | value v => exact shaped.elim
    | address a => exact shaped
  computed := by
    intro operation
    cases e with
    | negate operand => cases place
    | arith operation lhs rhs => cases place
    | _ => cases operation

theorem of_operation {v : Value} (value : e.isPlace = false) (fits : v.Fits ty)
    (float : e.LeavesFloat r → v.HasTy .float) : e.Leaves r table layout ty (.value v) where
  shaped := by
    rw [shape_value value]
    exact fits
  float
  computed := fun _ => ⟨v, rfl⟩

theorem readable (leaves : e.Leaves r table layout ty operand) :
    operand.Shaped table layout (.value ty) :=
  leaves.shaped.cover (e.covers_shape ty.assignable_refl)

theorem exact (leaves : e.Leaves r table layout ty operand)
    (widened : ty = .float → e.LeavesFloat r) : operand.Exact table layout ty := by
  by_cases float : ty = .float
  · subst float
    exact leaves.float (widened rfl)
  · exact leaves.readable.exact float

theorem reads (leaves : e.Leaves r table layout ty operand) :
    Action.Reads table layout operand
      fun v => v.Fits ty ∧ (e.LeavesFloat r → v.HasTy .float) := by
  intro ip operands
  have fits : Meets (Machine.Rests table ip layout (operand :: operands)) Action.popValue
      (fun v m => v.Fits ty ∧ m.Rests table ip layout operands) (fun _ _ => False) :=
    Action.popValue_meets leaves.readable
  by_cases float : e.LeavesFloat r
  · refine (fits.and (Action.popValue_exact (leaves.float float))).mono
      (fun _ rests => ⟨rests, rests⟩) ?_ (fun _ _ impossible => impossible.1)
    rintro v m ⟨⟨fits, rests⟩, exact, -⟩
    exact ⟨⟨fits, fun _ => exact⟩, rests⟩
  · refine fits.mono (fun _ rests => rests) ?_ (fun _ _ impossible => impossible)
    rintro v m ⟨fits, rests⟩
    exact ⟨⟨fits, fun float' => absurd float' float⟩, rests⟩

end Leaves

/-- The operands that expressions have left, one for each. -/
inductive LeavesAll (r : Registry) (table : List Entry) (layout : Layout) :
    List Expr → List Ty → List Operand → Prop
  | nil : LeavesAll r table layout [] [] []
  | cons {e : Expr} {es : List Expr} {ty : Ty} {tys : List Ty} {operand : Operand}
      {operands : List Operand} (first : e.Leaves r table layout ty operand)
      (rest : LeavesAll r table layout es tys operands) :
      LeavesAll r table layout (e :: es) (ty :: tys) (operand :: operands)

namespace LeavesAll

variable {es : List Expr} {tys : List Ty} {operands : List Operand}

theorem readable (all : LeavesAll r table layout es tys operands) :
    List.Forall₂ (Operand.Shaped table layout) operands (tys.map .value) := by
  induction all with
  | nil => exact .nil
  | cons first rest induction => exact .cons first.readable induction

theorem exact (all : LeavesAll r table layout es tys operands) (typed : TypedAll r es tys)
    (widened : ∀ e ∈ es, e.Typed r .float → e.LeavesFloat r) :
    List.Forall₂ (Operand.Exact table layout) operands tys := by
  induction all with
  | nil => exact .nil
  | cons first rest induction =>
      obtain ⟨typed, others⟩ := typed
      obtain ⟨here, there⟩ := List.forall_mem_cons.mp widened
      refine .cons (first.exact ?_) (induction others there)
      rintro rfl
      exact here typed

end LeavesAll

end Expr

namespace CodeUnit.Passes

variable {target place : Nat} {wanted : Layout → List Operand → Prop} {operands : List Operand}
variable {source : String}

theorem literal {l : Literal} {rest : Listing} (clean : l.NulFree)
    (stands : Stands unit.code place (l.instruction :: rest))
    (behind : place + l.instruction.width ≤ target)
    (onwards : ∀ v, v.HasTy l.ty →
      unit.Passes target wanted (place + l.instruction.width) layout (.value v :: operands)) :
    unit.Passes target wanted place layout operands := by
  have put {i : Instruction} {v : Value} (decoded : unit.instructionAt? place = some (i, i.width))
      (behind : place + i.width ≤ target)
      (executed : Action.execute unit.table i = do Action.push (.value v); pure .running)
      (onwards : unit.Passes target wanted (place + i.width) layout (.value v :: operands)) :
      unit.Passes target wanted place layout operands := by
    refine .gives decoded behind executed
      ((Action.push_meets (.value v)).mono (fun _ rests => rests)
        (fun _ _ rests => ⟨v, rfl, rests⟩) (fun _ _ overflow => overflow)) ?_
    rintro _ rfl
    exact onwards
  cases l with
  | int n => exact put (stands.decode trivial) behind rfl (onwards _ (Value.hasTy_int n))
  | float bits => exact put (stands.decode trivial) behind rfl (onwards _ (Value.hasTy_float _))
  | str s => exact put (stands.decode clean) behind rfl (onwards _ (Value.hasTy_str s))
  | bool b => exact put (stands.decode trivial) behind rfl (onwards _ (Value.hasTy_bool b))

end CodeUnit.Passes

namespace Expr

/-- Runs that get past the code of an expression, of whatever type it is, come by its end, with an
operand that it has left on the stack. -/
def Passed (unit : CodeUnit) (r : Registry) (e : Expr) : Prop :=
  ∀ ⦃ty : Ty⦄ ⦃target place : Nat⦄ ⦃wanted : Layout → List Operand → Prop⦄ ⦃layout : Layout⦄
      ⦃operands : List Operand⦄,
    e.Typed r ty → Stands unit.code place e.listing → place + e.listing.width ≤ target →
    (∀ layout' operand, layout.Within layout' → e.Leaves r unit.table layout' ty operand →
      unit.Passes target wanted (place + e.listing.width) layout' (operand :: operands)) →
    unit.Passes target wanted place layout operands

/-- Runs that get past the code of some expressions come by its end, with an operand from each. -/
def PassedAll (unit : CodeUnit) (r : Registry) (es : List Expr) : Prop :=
  ∀ ⦃tys : List Ty⦄ ⦃target place : Nat⦄ ⦃wanted : Layout → List Operand → Prop⦄
      ⦃layout : Layout⦄ ⦃operands : List Operand⦄,
    TypedAll r es tys → Stands unit.code place (listings es) →
    place + (listings es).width ≤ target →
    (∀ layout' taken, layout.Within layout' → LeavesAll r unit.table layout' es tys taken →
      unit.Passes target wanted (place + (listings es).width) layout'
        (taken.reverse ++ operands)) →
    unit.Passes target wanted place layout operands

namespace Passed

variable {source : String} {target place : Nat} {wanted : Layout → List Operand → Prop}
variable {operands : List Operand}

theorem literal (l : Literal) : (literal l).Passed unit r := by
  intro ty target place wanted layout operands typed stands behind rest
  obtain ⟨rfl, clean⟩ := id typed
  exact .literal clean stands behind fun v exact =>
    rest layout (.value v) (.refl layout) (.of_value typed rfl exact)

theorem static (describes : unit.Describes r) (symbol : Nat) :
    (cell .static symbol).Passed unit r := by
  intro ty target place wanted layout operands typed stands behind rest
  obtain ⟨s, found, isStatic, rfl⟩ := id typed
  obtain ⟨entry, listed, same, data, -⟩ := describes.entry symbol s found
  rw [← describes.toNat found] at listed
  have pushed : (Operand.address (.ofLocation (.static _))).Shaped unit.table layout
      (.place entry.ty) := Address.Refers.ofLocation (.static listed)
  refine .leaves (stands.decode trivial) behind rfl ?_ fun operand shaped =>
    rest layout operand (.refl layout) (.of_place typed rfl shaped)
  simp only [Action.putAddr, Action.entry_eq listed, data isStatic, pure_bind]
  exact (Action.push_meets _).mono (fun _ rests => rests)
    (fun _ _ rests => ⟨_, same ▸ pushed, rests⟩) (fun _ _ _ => trivial)

theorem dynamic (describes : unit.Describes r) (symbol : Nat) :
    (cell .dynamic symbol).Passed unit r := by
  intro ty target place wanted layout operands typed stands behind rest
  obtain ⟨s, found, rfl⟩ := id typed
  obtain ⟨entry, listed, same, -⟩ := describes.entry symbol s found
  rw [← describes.toNat found] at listed
  refine .leaves (stands.decode trivial) behind (Action.execute_putDAddr _ _) ?_
    fun operand shaped => rest layout operand (.refl layout) (.of_place typed rfl shaped)
  apply Meets.bind ((Action.dynamicLocation_meets listed).mono (fun _ rests => rests)
    (fun _ _ done => done) (fun _ _ _ => trivial))
  intro location
  apply Meets.of_start (fun _ start => start.1)
  intro roots
  have pushed : (Operand.address (.ofLocation location)).Shaped unit.table layout
      (.place entry.ty) := Address.Refers.ofLocation roots
  exact (Action.push_meets _).mono (fun _ start => start.2)
    (fun _ _ rests => ⟨_, same ▸ pushed, rests⟩) (fun _ _ _ => trivial)

theorem element {array : Expr} {indexes : List Expr} (first : array.Passed unit r)
    (others : PassedAll unit r indexes) : (array.element indexes).Passed unit r := by
  intro ty target place wanted layout operands typed stands behind rest
  obtain ⟨index, isPlace, typedA, all⟩ := id typed
  simp only [listing, Listing.width_append, ← Nat.add_assoc] at behind rest
  rw [listing] at stands
  have last := stands.behind_both
  refine first typedA stands.append_left.append_left (by omega) ?_
  intro layout₁ address within₁ leaves
  refine others all stands.append_left.append_right (by omega) ?_
  intro layout₂ taken within₂ left
  have length := (TypedAll.length indexes _ all).trans (List.length_map ..)
  have element : (array.element indexes).isPlace = true := isPlace
  have arrayed := (leaves.grow within₂.grows).shaped
  rw [shape, if_pos isPlace] at arrayed
  have indexed := List.forall₂_reverse_iff.mpr left.readable
  rw [← List.map_reverse, ← List.map_reverse] at indexed
  rw [length] at last behind rest
  refine .leaves (last.decode trivial) (by simpa using behind) rfl
    ((Action.indexAddress_meets indexed arrayed (Shape.covers_refl _)).mono
      (fun _ rests => rests) (fun _ _ done => done) (fun _ _ _ => trivial)) ?_
  intro operand shaped
  simpa using rest layout₂ operand (within₁.trans within₂) (.of_place typed element shaped)

theorem call (builds : Builds source unit) (describes : unit.Describes r) (function : Nat)
    {arguments : List Expr} (passed : PassedAll unit r arguments) :
    (call function arguments).Passed unit r := by
  intro ty target place wanted layout operands typed stands behind rest
  obtain ⟨s, tys, found, isFunction, rfl, all, callable⟩ := id typed
  obtain ⟨entry, listed, same, -, -, storage⟩ := describes.entry function s found
  obtain ⟨code, storage⟩ := storage isFunction
  rw [← describes.toNat found] at listed
  simp only [listing, Listing.width_append, ← Nat.add_assoc] at stands behind rest
  refine passed all stands.append_left (by omega) ?_
  intro layout₁ taken within₁ left
  have count : taken.reverse.length = s.params.length := by
    rw [List.length_reverse, left.readable.length_eq, List.length_map,
      (callable_iff.mp callable).length_eq]
  refine .call builds (stands.append_right.decode trivial) listed storage count
    (by simpa using behind) ?_
  intro layout₂ v exact within₂
  simpa using rest layout₂ (.value v) (within₁.trans within₂)
    (.of_value typed rfl (same ▸ exact))

theorem negate {operand : Expr} (passed : operand.Passed unit r) :
    operand.negate.Passed unit r := by
  intro ty target place wanted layout operands typed stands behind rest
  obtain ⟨typedO, negatable⟩ := id typed
  simp only [listing, Listing.width_append, ← Nat.add_assoc] at stands behind rest
  refine passed typedO stands.append_left (by omega) ?_
  intro layout₁ number within leaves
  have negates (a : Value) (number : a.Fits ty ∧ (operand.LeavesFloat r → a.HasTy .float)) :
      ∃ v, a.neg = .ok v ∧ v.Fits ty ∧ (operand.LeavesFloat r → v.HasTy .float) := by
    obtain ⟨v, negated, fits⟩ := Value.neg_fits negatable number.1
    refine ⟨v, negated, fits, fun float => ?_⟩
    obtain ⟨v', negated', exact⟩ := Value.neg_hasTy (.inl rfl) (number.2 float)
    rw [negated] at negated'
    rwa [Except.ok.inj negated']
  refine .gives (stands.append_right.decode trivial) (by simpa using behind)
    (Action.execute_neg _) (Action.neg_gives leaves.reads negates) ?_
  rintro v ⟨fits, float⟩
  simpa using rest layout₁ (.value v) within (.of_operation rfl fits float)

/-- What two expressions have left goes to an instruction that gives a value for it. -/
theorem binary {lhs rhs : Expr} {left right : Ty} {i : Instruction}
    {operator : Value → Value → Except Fault Value} {given : Value → Prop}
    (first : lhs.Passed unit r) (second : rhs.Passed unit r) (typedL : lhs.Typed r left)
    (typedR : rhs.Typed r right)
    (stands : Stands unit.code place (lhs.listing ++ rhs.listing ++ [i]))
    (behind : place + (lhs.listing ++ rhs.listing ++ [i]).width ≤ target)
    (plain : i.target? = none) (clean : i.NulFree)
    (executed : Action.execute unit.table i = do Action.binary operator; pure .running)
    (outcome : ∀ a b, a.Fits left ∧ (lhs.LeavesFloat r → a.HasTy .float) →
      b.Fits right ∧ (rhs.LeavesFloat r → b.HasTy .float) →
        Outcome (operator a b) given (fun _ => True))
    (rest : ∀ layout' v, layout.Within layout' → given v →
      unit.Passes target wanted (place + (lhs.listing ++ rhs.listing ++ [i]).width) layout'
        (.value v :: operands)) :
    unit.Passes target wanted place layout operands := by
  have last := stands.behind_both.decode clean
  rw [Instruction.shift_eq_self plain] at last
  simp only [Listing.width_append, ← Nat.add_assoc] at behind rest
  refine first typedL stands.append_left.append_left (by omega) ?_
  intro layout₁ operandL within₁ leavesL
  refine second typedR stands.append_left.append_right (by omega) ?_
  intro layout₂ operandR within₂ leavesR
  refine .gives last (by simpa using behind) executed
    (Action.binary_gives leavesR.reads (leavesL.grow within₂.grows).reads outcome) ?_
  intro v fine
  simpa using rest layout₂ v (within₁.trans within₂) fine

theorem arith (operation : Arithmetic) {lhs rhs : Expr} (first : lhs.Passed unit r)
    (second : rhs.Passed unit r) : (arith operation lhs rhs).Passed unit r := by
  intro ty target place wanted layout operands typed stands behind rest
  obtain ⟨left, right, typedL, typedR, result⟩ := id typed
  have outcome (a b : Value) (numberA : a.Fits left ∧ (lhs.LeavesFloat r → a.HasTy .float))
      (numberB : b.Fits right ∧ (rhs.LeavesFloat r → b.HasTy .float)) :
      Outcome (operation.apply a b)
        (fun v => v.Fits ty ∧ ((Expr.arith operation lhs rhs).LeavesFloat r → v.HasTy .float))
        (fun _ => True) := by
    have applied := Arithmetic.apply_outcome result numberA.1 numberB.1
    cases run : operation.apply a b with
    | error fault => trivial
    | ok v =>
        rw [run] at applied
        exact ⟨applied, fun float => Arithmetic.apply_float result numberA.1 numberB.1
          (float.imp_right (Or.imp numberA.2 numberB.2)) run⟩
  refine binary first second typedL typedR stands behind rfl trivial rfl outcome ?_
  rintro layout' v within ⟨fits, float⟩
  exact rest layout' (.value v) within (.of_operation rfl fits float)

theorem compare (relation : Relation) {lhs rhs : Expr} (first : lhs.Passed unit r)
    (second : rhs.Passed unit r) : (compare relation lhs rhs).Passed unit r := by
  intro ty target place wanted layout operands typed stands behind rest
  obtain ⟨left, right, typedL, typedR, consistent, rfl⟩ := id typed
  have outcome (a b : Value) (_ : a.Fits left ∧ (lhs.LeavesFloat r → a.HasTy .float))
      (_ : b.Fits right ∧ (rhs.LeavesFloat r → b.HasTy .float)) :
      Outcome ((Value.compare relation.opcode a b).map Value.bool) (·.HasTy .bool)
        (fun _ => True) := by
    cases Value.compare relation.opcode a b with
    | error fault => trivial
    | ok truth => exact Value.hasTy_bool truth
  refine binary first second typedL typedR stands behind rfl trivial rfl outcome ?_
  intro layout' v within exact
  exact rest layout' (.value v) within (.of_value typed rfl exact)

theorem choice (describes : unit.Describes r) {condition whenTrue whenFalse : Expr}
    (tested : condition.Passed unit r) (onTrue : whenTrue.Passed unit r)
    (onFalse : whenFalse.Passed unit r) : (choice condition whenTrue whenFalse).Passed unit r := by
  intro ty target place wanted layout operands typed stands behind rest
  obtain ⟨accepted, refused, typedC, typedT, typedF, consistent, rfl⟩ := id typed
  obtain ⟨fromTrue, fromFalse⟩ := Ty.assignable_join consistent
  rw [listing] at stands
  simp only [listing, Listing.width_append, Listing.width_cons, Listing.width_nil,
    Nat.add_zero, Instruction.width_jump, Instruction.width_jumpIfFalse, ← Nat.add_assoc]
    at behind rest
  have placed := CodeUnit.choiceAt describes.length stands
  obtain ⟨first, test, away⟩ := placed.test
  obtain ⟨second, jump, past⟩ := placed.jump
  refine tested typedC placed.tested (by omega) ?_
  intro layout₁ truth within₁ leavesC
  refine .branch test (by simp only [jumpSize] at behind ⊢; omega) leavesC.readable ?_ ?_
  · refine onTrue typedT placed.accepted (by omega) ?_
    intro layout₂ operand within₂ leaves
    refine .jump jump (by simp only [jumpSize] at behind ⊢; omega) ?_
    rw [past]
    exact rest layout₂ operand (within₁.trans within₂)
      { shaped := leaves.shaped.cover (whenTrue.covers_shape fromTrue)
        float := fun float => leaves.float float.1
        computed := fun operation => absurd operation Bool.false_ne_true }
  · rw [away]
    refine onFalse typedF placed.refused (by omega) ?_
    intro layout₂ operand within₂ leaves
    exact rest layout₂ operand (within₁.trans within₂)
      { shaped := leaves.shaped.cover (whenFalse.covers_shape fromFalse)
        float := fun float => leaves.float float.2
        computed := fun operation => absurd operation Bool.false_ne_true }

end Passed

namespace PassedAll

theorem nil : PassedAll unit r [] := by
  intro tys target place wanted layout operands all _ _ rest
  cases tys with
  | nil => exact rest layout [] (.refl layout) .nil
  | cons ty tys => exact all.elim

theorem cons {e : Expr} {es : List Expr} (first : e.Passed unit r)
    (others : PassedAll unit r es) : PassedAll unit r (e :: es) := by
  intro tys target place wanted layout operands all stands behind rest
  cases tys with
  | nil => exact all.elim
  | cons ty tys =>
      obtain ⟨typed, all⟩ := all
      simp only [listings, Listing.width_append, ← Nat.add_assoc] at stands behind rest
      refine first typed stands.append_left (by omega) ?_
      intro layout₁ operand within₁ leaves
      refine others all stands.append_right (by omega) ?_
      intro layout₂ taken within₂ left
      simpa using rest layout₂ (operand :: taken) (within₁.trans within₂)
        (.cons (leaves.grow within₂.grows) left)

end PassedAll

mutual

theorem passes {source : String} (builds : Builds source unit) (describes : unit.Describes r) :
    (e : Expr) → e.Passed unit r
  | .literal l => .literal l
  | .cell .static symbol => .static describes symbol
  | .cell .dynamic symbol => .dynamic describes symbol
  | .element array indexes =>
      .element (passes builds describes array) (passes_all builds describes indexes)
  | .call function arguments =>
      .call builds describes function (passes_all builds describes arguments)
  | .negate operand => .negate (passes builds describes operand)
  | .arith operation lhs rhs =>
      .arith operation (passes builds describes lhs) (passes builds describes rhs)
  | .compare relation lhs rhs =>
      .compare relation (passes builds describes lhs) (passes builds describes rhs)
  | .choice condition whenTrue whenFalse =>
      .choice describes (passes builds describes condition) (passes builds describes whenTrue)
        (passes builds describes whenFalse)

theorem passes_all {source : String} (builds : Builds source unit)
    (describes : unit.Describes r) : (es : List Expr) → PassedAll unit r es
  | [] => .nil
  | e :: es => .cons (passes builds describes e) (passes_all builds describes es)

end

end Expr

end StackScript
