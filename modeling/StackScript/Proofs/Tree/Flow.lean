import Mathlib.Algebra.Group.Nat.Defs
import StackScript.Proofs.Machine.Flow
import StackScript.Proofs.Tree.Listing
import StackScript.Proofs.Tree.Typing

namespace StackScript

/-! The code of typed trees is typed code. -/

/-- The variable table has the symbols of a registry, and all of it is in reach of words. -/
structure CodeUnit.Describes (unit : CodeUnit) (r : Registry) : Prop where
  size : r.size ≤ 2 ^ 32
  length : unit.code.length < 2 ^ 32
  entry : ∀ (index : Nat) (s : Symbol), r.get? index = some s →
    ∃ entry, unit.table[index]? = some entry ∧ entry.ty = s.ty ∧
      (s.kind.isStatic = true → entry.storage = .data) ∧
      (s.kind = .dynamicVar → entry.storage = .ddata) ∧
      (s.kind.isFunction = true → ∃ code, entry.storage = .function s.params code)

namespace CodeUnit

variable {unit : CodeUnit} {r : Registry}

theorem Describes.toNat {index : Nat} {s : Symbol} (describes : unit.Describes r)
    (found : r.get? index = some s) : (UInt32.ofNat index).toNat = index := by
  have inside : index < r.size := (List.getElem?_eq_some_iff.mp found).1
  exact UInt32.toNat_ofNat_of_lt' (Nat.lt_of_lt_of_le inside describes.size)

theorem LeadsTo.stands {goal : Nat → List Shape → Prop} {ip : Nat} {i : Instruction}
    {rest : Listing} {before after : List Shape} (stands : Stands unit.code ip (i :: rest))
    (clean : i.NulFree) (effect : (i.shift ip).Effect unit.table before after)
    (leads : unit.LeadsTo goal (ip + i.width) after) : unit.LeadsTo goal ip before :=
  .step (stands.decode clean) effect leads

end CodeUnit

namespace Expr

/-- What an expression leaves on the stack. -/
def shape (e : Expr) (ty : Ty) : Shape :=
  if e.isPlace then .place ty else .value ty

theorem covers_shape (e : Expr) {target ty : Ty} (assignable : target.assignable ty = true) :
    (Shape.value target).Covers (e.shape ty) := by
  rw [shape]
  split <;> exact assignable

theorem shape_place {e : Expr} (place : e.isPlace = true) (ty : Ty) :
    (Shape.place ty).Covers (e.shape ty) := by
  rw [shape, place]
  rfl

theorem shape_value {e : Expr} (value : e.isPlace = false) (ty : Ty) : e.shape ty = .value ty := by
  rw [shape, value]
  rfl

end Expr

theorem Ty.assignable_join {a b : Ty} (consistent : a.consistent b = true) :
    ((a.join? b).getD a).assignable a = true ∧ ((a.join? b).getD a).assignable b = true := by
  simp only [Ty.consistent, Bool.or_eq_true, Bool.and_eq_true, decide_eq_true_eq] at consistent
  rcases consistent with rfl | ⟨left, right⟩
  · simp [join?, assignable]
  · by_cases same : a = b
    · subst same
      simp [join?, assignable]
    · simp [join?, same, left, right, assignable]

theorem argumentShapes_cons (param : Ty) (params : List Ty) (shapes : List Shape) :
    argumentShapes (param :: params) ++ shapes =
      argumentShapes params ++ (.value param :: shapes) := by
  simp [argumentShapes]

theorem argumentShapes_scalars (index : List Scalar) :
    argumentShapes (index.map .scalar) = indexShapes index := by
  simp [argumentShapes, indexShapes]

theorem Instruction.width_jump (target : UInt32) : (Instruction.jump target).width = jumpSize := by
  simp [width_eq, operands, jumpSize]

theorem Instruction.width_jumpIfFalse (target : UInt32) :
    (Instruction.jumpIfFalse target).width = jumpSize := by
  simp [width_eq, operands, jumpSize]

theorem toNat_ofNat_add {target base : Nat} (inside : base + target < 2 ^ 32) :
    (UInt32.ofNat target + UInt32.ofNat base).toNat = base + target := by
  rw [← UInt32.ofNat_add, Nat.add_comm, UInt32.toNat_ofNat_of_lt' inside]

/-- A jump that stands in the code leads as far as it says. -/
theorem exists_jump {unit : CodeUnit} {ip distance : Nat} {rest : Listing}
    (stands : Stands unit.code ip (.jump (UInt32.ofNat distance) :: rest))
    (inside : ip + distance < 2 ^ 32) :
    ∃ target : UInt32, unit.instructionAt? ip = some (.jump target, jumpSize) ∧
      target.toNat = ip + distance := by
  have decoded := stands.decode trivial
  rw [Instruction.width_jump] at decoded
  exact ⟨_, decoded, toNat_ofNat_add inside⟩

theorem exists_jumpIfFalse {unit : CodeUnit} {ip distance : Nat} {rest : Listing}
    (stands : Stands unit.code ip (.jumpIfFalse (UInt32.ofNat distance) :: rest))
    (inside : ip + distance < 2 ^ 32) :
    ∃ target : UInt32, unit.instructionAt? ip = some (.jumpIfFalse target, jumpSize) ∧
      target.toNat = ip + distance := by
  have decoded := stands.decode trivial
  rw [Instruction.width_jumpIfFalse] at decoded
  exact ⟨_, decoded, toNat_ofNat_add inside⟩

/-- A choice stands in the code: its first jump leads behind the second one to the branch for false,
and the second one behind the whole. -/
structure CodeUnit.ChoiceAt (unit : CodeUnit) (ip : Nat) (condition whenTrue whenFalse : Listing) :
    Prop where
  tested : Stands unit.code ip condition
  test : ∃ target : UInt32,
    unit.instructionAt? (ip + condition.width) = some (.jumpIfFalse target, jumpSize) ∧
      target.toNat = ip + condition.width + jumpSize + whenTrue.width + jumpSize
  accepted : Stands unit.code (ip + condition.width + jumpSize) whenTrue
  jump : ∃ target : UInt32,
    unit.instructionAt? (ip + condition.width + jumpSize + whenTrue.width) =
        some (.jump target, jumpSize) ∧
      target.toNat =
        ip + condition.width + jumpSize + whenTrue.width + jumpSize + whenFalse.width
  refused : Stands unit.code (ip + condition.width + jumpSize + whenTrue.width + jumpSize) whenFalse

theorem CodeUnit.choiceAt {unit : CodeUnit} {condition whenTrue whenFalse : Listing} {ip : Nat}
    (length : unit.code.length < 2 ^ 32)
    (stands : Stands unit.code ip
      (condition ++
        [.jumpIfFalse (UInt32.ofNat (jumpSize + whenTrue.width + jumpSize))] ++ whenTrue ++
        [.jump (UInt32.ofNat (jumpSize + whenFalse.width))] ++ whenFalse)) :
    unit.ChoiceAt ip condition whenTrue whenFalse := by
  have bound := stands.le_length
  have atFalse := stands.append_right
  have atJump := stands.append_left.append_right
  have atTrue := stands.append_left.append_left.append_right
  have atTest := stands.append_left.append_left.append_left.append_right
  simp only [Listing.width_append, Listing.width_cons, Listing.width_nil, Nat.add_zero,
    Instruction.width_jump, Instruction.width_jumpIfFalse, ← Nat.add_assoc]
    at bound atFalse atJump atTrue atTest
  obtain ⟨first, test, onFalse⟩ := exists_jumpIfFalse atTest (by omega)
  obtain ⟨second, jump, behind⟩ := exists_jump atJump (by omega)
  exact ⟨stands.append_left.append_left.append_left.append_left,
    ⟨first, test, by simp only [onFalse, Nat.add_assoc]⟩, atTrue,
    ⟨second, jump, by simp only [behind, Nat.add_assoc]⟩, atFalse⟩

variable {unit : CodeUnit} {r : Registry} {goal : Nat → List Shape → Prop}

namespace CodeUnit.LeadsTo

theorem literal {l : Literal} {ip : Nat} {shape : Shape} {shapes : List Shape} {rest : Listing}
    (clean : l.NulFree) (stands : Stands unit.code ip (l.instruction :: rest))
    (covers : shape.Covers (.value l.ty))
    (leads : unit.LeadsTo goal (ip + l.instruction.width) (shape :: shapes)) :
    unit.LeadsTo goal ip shapes := by
  cases l with
  | int n => exact .stands stands trivial (.putInt covers) leads
  | float bits => exact .stands stands trivial (.putFloat covers) leads
  | str s => exact .stands stands clean (.putString covers) leads
  | bool b => exact .stands stands trivial (.putBoolean covers) leads

theorem choice {condition whenTrue whenFalse : Listing} {ip : Nat} {shapes : List Shape}
    (placed : unit.ChoiceAt ip condition whenTrue whenFalse)
    (tested : unit.LeadsTo goal (ip + condition.width) (.value .bool :: shapes) →
      unit.LeadsTo goal ip shapes)
    {shape : Shape}
    (leads : unit.LeadsTo goal
      (ip + condition.width + jumpSize + whenTrue.width + jumpSize + whenFalse.width)
      (shape :: shapes))
    (accepted : ∀ ip, Stands unit.code ip whenTrue →
      unit.LeadsTo goal (ip + whenTrue.width) (shape :: shapes) → unit.LeadsTo goal ip shapes)
    (refused : ∀ ip, Stands unit.code ip whenFalse →
      unit.LeadsTo goal (ip + whenFalse.width) (shape :: shapes) → unit.LeadsTo goal ip shapes) :
    unit.LeadsTo goal ip shapes := by
  obtain ⟨first, test, onFalse⟩ := placed.test
  obtain ⟨second, jump, behind⟩ := placed.jump
  refine tested (.branch test (by simp only [onFalse, jumpSize]; omega) ?_ ?_)
  · apply accepted _ placed.accepted
    exact .jump jump (by simp only [behind, jumpSize]; omega) (behind ▸ leads)
  · rw [onFalse]
    exact refused _ placed.refused leads

end CodeUnit.LeadsTo

namespace Expr

/-- An expression leaves one operand of its type, read as whatever the code behind it expects. -/
def Leads (unit : CodeUnit) (r : Registry) (e : Expr) : Prop :=
  ∀ ⦃ty : Ty⦄ ⦃ip : Nat⦄ ⦃goal : Nat → List Shape → Prop⦄ ⦃shape : Shape⦄ ⦃shapes : List Shape⦄,
    e.Typed r ty → Stands unit.code ip e.listing → shape.Covers (e.shape ty) →
    unit.LeadsTo goal (ip + e.listing.width) (shape :: shapes) → unit.LeadsTo goal ip shapes

/-- Arguments leave one operand each, read as the parameters that they are assignable to. -/
def LeadsAll (unit : CodeUnit) (r : Registry) (es : List Expr) : Prop :=
  ∀ ⦃params tys : List Ty⦄ ⦃ip : Nat⦄ ⦃goal : Nat → List Shape → Prop⦄ ⦃shapes : List Shape⦄,
    TypedAll r es tys →
    List.Forall₂ (fun param arg : Ty => param.assignable arg = true) params tys →
    Stands unit.code ip (listings es) →
    unit.LeadsTo goal (ip + (listings es).width) (argumentShapes params ++ shapes) →
    unit.LeadsTo goal ip shapes

namespace Leads

theorem literal (l : Literal) : (literal l).Leads unit r := by
  intro ty ip goal shape shapes typed stands covers rest
  obtain ⟨rfl, clean⟩ := typed
  exact .literal clean stands covers rest

theorem cell (describes : unit.Describes r) (lifetime : Lifetime) (symbol : Nat) :
    (cell lifetime symbol).Leads unit r := by
  intro ty ip goal shape shapes typed stands covers rest
  cases lifetime with
  | static =>
      obtain ⟨s, found, isStatic, rfl⟩ := typed
      obtain ⟨entry, listed, same, data, -⟩ := describes.entry symbol s found
      rw [← describes.toNat found] at listed
      exact .stands stands trivial (.putAddr listed (data isStatic) (same ▸ covers)) rest
  | dynamic =>
      obtain ⟨s, found, rfl⟩ := typed
      obtain ⟨entry, listed, same, -⟩ := describes.entry symbol s found
      rw [← describes.toNat found] at listed
      exact .stands stands trivial (.putDAddr listed (same ▸ covers)) rest

theorem element {array : Expr} {indexes : List Expr} (first : array.Leads unit r)
    (others : LeadsAll unit r indexes) : (array.element indexes).Leads unit r := by
  intro ty ip goal shape shapes typed stands covers rest
  obtain ⟨index, place, typedA, all⟩ := typed
  rw [listing] at stands
  have last := stands.behind_both
  simp only [listing, Listing.width_append] at rest
  have exact : List.Forall₂ (fun param arg : Ty => param.assignable arg = true)
      (index.map .scalar) (index.map .scalar) :=
    List.forall₂_same.mpr fun ty _ => ty.assignable_refl
  have length := (TypedAll.length indexes _ all).trans (List.length_map ..)
  have shape : (array.element indexes).shape ty = .place ty := by
    simp [Expr.shape, isPlace, place]
  rw [shape] at covers
  refine first typedA stands.append_left.append_left (shape_place place _) ?_
  refine others all exact stands.append_left.append_right ?_
  rw [length] at last rest
  rw [argumentShapes_scalars]
  refine .stands last trivial (.putIndAddr covers) ?_
  simpa [Nat.add_assoc] using rest

theorem call (describes : unit.Describes r) (function : Nat) {arguments : List Expr}
    (leads : LeadsAll unit r arguments) : (call function arguments).Leads unit r := by
  intro ty ip goal shape shapes typed stands covers rest
  obtain ⟨s, tys, found, isFunction, rfl, all, callable⟩ := typed
  obtain ⟨entry, listed, same, -, -, storage⟩ := describes.entry function s found
  obtain ⟨code, storage⟩ := storage isFunction
  rw [← describes.toNat found] at listed
  simp only [listing, Listing.width_append] at stands rest
  refine leads all (callable_iff.mp callable) stands.append_left ?_
  refine .call (stands.append_right.decode trivial) listed storage (same ▸ covers) ?_
  simpa [Nat.add_assoc] using rest

theorem negate {operand : Expr} (leads : operand.Leads unit r) : operand.negate.Leads unit r := by
  intro ty ip goal shape shapes typed stands covers rest
  obtain ⟨typed, negatable⟩ := typed
  simp only [listing, Listing.width_append] at stands rest
  refine leads typed stands.append_left (operand.covers_shape (Ty.assignable_refl _)) ?_
  refine .stands stands.append_right trivial (.neg negatable covers) ?_
  simpa [Nat.add_assoc] using rest

/-- Two values that an instruction makes one of. -/
theorem binary {lhs rhs : Expr} {left right : Ty} {i : Instruction} {ip : Nat} {shape : Shape}
    {shapes : List Shape} (first : lhs.Leads unit r) (second : rhs.Leads unit r)
    (typedL : lhs.Typed r left) (typedR : rhs.Typed r right)
    (stands : Stands unit.code ip (lhs.listing ++ rhs.listing ++ [i]))
    (plain : i.target? = none) (clean : i.NulFree)
    (effect : i.Effect unit.table (.value right :: .value left :: shapes) (shape :: shapes))
    (rest : unit.LeadsTo goal (ip + (lhs.listing ++ rhs.listing ++ [i]).width)
      (shape :: shapes)) : unit.LeadsTo goal ip shapes := by
  refine first typedL stands.append_left.append_left (lhs.covers_shape left.assignable_refl) ?_
  refine second typedR stands.append_left.append_right
    (rhs.covers_shape right.assignable_refl) ?_
  have last := stands.behind_both
  rw [← Instruction.shift_eq_self plain (ip + lhs.listing.width + rhs.listing.width)] at effect
  refine .stands last clean effect ?_
  simpa [Nat.add_assoc] using rest

theorem arith (operation : Arithmetic) {lhs rhs : Expr} (first : lhs.Leads unit r)
    (second : rhs.Leads unit r) : (arith operation lhs rhs).Leads unit r := by
  intro ty ip goal shape shapes typed stands covers rest
  obtain ⟨left, right, typedL, typedR, result⟩ := typed
  exact binary first second typedL typedR stands rfl trivial (.arith result covers) rest

theorem compare (relation : Relation) {lhs rhs : Expr} (first : lhs.Leads unit r)
    (second : rhs.Leads unit r) : (compare relation lhs rhs).Leads unit r := by
  intro ty ip goal shape shapes typed stands covers rest
  obtain ⟨left, right, typedL, typedR, consistent, rfl⟩ := typed
  exact binary first second typedL typedR stands rfl trivial (.compare consistent covers) rest

theorem choice (describes : unit.Describes r) {condition whenTrue whenFalse : Expr}
    (tested : condition.Leads unit r) (onTrue : whenTrue.Leads unit r)
    (onFalse : whenFalse.Leads unit r) : (choice condition whenTrue whenFalse).Leads unit r := by
  intro ty ip goal shape shapes typed stands covers rest
  obtain ⟨accepted, refused, typedC, typedT, typedF, consistent, rfl⟩ := typed
  obtain ⟨fromTrue, fromFalse⟩ := Ty.assignable_join consistent
  rw [listing] at stands rest
  -- The branches leave what the choice leaves, so the code behind reads both alike.
  obtain ⟨target, rfl, assignable⟩ : ∃ target, shape = .value target ∧
      target.assignable ((accepted.join? refused).getD accepted) = true := by
    rw [shape_value rfl] at covers
    cases shape with
    | value target => exact ⟨target, rfl, covers⟩
    | place target => exact covers.elim
  simp only [Listing.width_append, Listing.width_cons, Listing.width_nil, Nat.add_zero,
    Instruction.width_jump, Instruction.width_jumpIfFalse] at rest
  have placed := CodeUnit.choiceAt describes.length stands
  simp only [← Nat.add_assoc] at rest
  refine .choice placed (fun ahead => tested typedC placed.tested
    (condition.covers_shape (Ty.assignable_refl _)) ahead) rest ?_ ?_
  · exact fun ip stands => onTrue typedT stands
      (whenTrue.covers_shape (Ty.assignable_trans assignable fromTrue))
  · exact fun ip stands => onFalse typedF stands
      (whenFalse.covers_shape (Ty.assignable_trans assignable fromFalse))

end Leads

namespace LeadsAll

theorem nil : LeadsAll unit r [] := by
  intro params tys ip goal shapes all assignable _ rest
  cases tys with
  | nil =>
      cases assignable
      exact rest
  | cons ty tys => exact all.elim

theorem cons {e : Expr} {es : List Expr} (first : e.Leads unit r)
    (others : LeadsAll unit r es) : LeadsAll unit r (e :: es) := by
  intro params tys ip goal shapes all assignable stands rest
  cases assignable with
  | nil => exact all.elim
  | cons accepts assignable =>
      obtain ⟨typed, all⟩ := all
      rw [listings] at stands rest
      rw [argumentShapes_cons, Listing.width_append, ← Nat.add_assoc] at rest
      exact first typed stands.append_left (e.covers_shape accepts)
        (others all assignable stands.append_right rest)

end LeadsAll

mutual

theorem leads (describes : unit.Describes r) : (e : Expr) → e.Leads unit r
  | .literal l => .literal l
  | .cell lifetime symbol => .cell describes lifetime symbol
  | .element array indexes => .element (leads describes array) (leads_all describes indexes)
  | .call function arguments => .call describes function (leads_all describes arguments)
  | .negate operand => .negate (leads describes operand)
  | .arith operation lhs rhs => .arith operation (leads describes lhs) (leads describes rhs)
  | .compare relation lhs rhs => .compare relation (leads describes lhs) (leads describes rhs)
  | .choice condition whenTrue whenFalse =>
      .choice describes (leads describes condition) (leads describes whenTrue)
        (leads describes whenFalse)

theorem leads_all (describes : unit.Describes r) : (es : List Expr) → LeadsAll unit r es
  | [] => .nil
  | e :: es => .cons (leads describes e) (leads_all describes es)

end

end Expr

namespace CodeUnit.LeadsTo

theorem cells {listing : Listing} {ip : Nat} {shapes : List Shape}
    (each : ∀ i ∈ listing, i.target? = none ∧ i.NulFree ∧ i.Effect unit.table shapes shapes)
    (stands : Stands unit.code ip listing)
    (rest : unit.LeadsTo goal (ip + listing.width) shapes) : unit.LeadsTo goal ip shapes := by
  induction listing generalizing ip with
  | nil => exact rest
  | cons i listing induction =>
      obtain ⟨plain, clean, effect⟩ := each i List.mem_cons_self
      rw [← Instruction.shift_eq_self plain ip] at effect
      refine .stands stands clean effect ?_
      refine induction (fun j member => each j (List.mem_cons_of_mem i member)) stands.tail ?_
      simpa [Nat.add_assoc] using rest

theorem params (describes : unit.Describes r) {params : List Nat} {tys : List Ty}
    (typed : Stmt.ParamsTyped r params tys) {ip : Nat} {shapes : List Shape}
    (stands : Stands unit.code ip (params.map fun param => .allocVars (UInt32.ofNat param)))
    (rest : unit.LeadsTo goal
      (ip + Listing.width (params.map fun param => .allocVars (UInt32.ofNat param))) shapes) :
    unit.LeadsTo goal ip (tys.map .value ++ shapes) := by
  induction typed generalizing ip with
  | nil => exact rest
  | cons first others induction =>
      obtain ⟨s, found, -, rfl⟩ := first
      obtain ⟨entry, listed, same, -⟩ := describes.entry _ s found
      rw [← describes.toNat found] at listed
      rw [← same]
      refine .stands stands trivial (.allocVars listed) ?_
      refine induction stands.tail ?_
      simpa [Nat.add_assoc] using rest

end CodeUnit.LeadsTo

namespace Stmt

theorem allocVar_effect (describes : unit.Describes r) {symbol : Nat} {s : Symbol}
    (found : r.get? symbol = some s) (shapes : List Shape) :
    (Instruction.allocVar (UInt32.ofNat symbol)).Effect unit.table shapes shapes := by
  obtain ⟨entry, listed, -⟩ := describes.entry symbol s found
  rw [← describes.toNat found] at listed
  exact .allocVar listed

theorem initVar_effect (describes : unit.Describes r) {symbol : Nat} {s : Symbol}
    (found : r.get? symbol = some s) (isVariable : s.kind.isVariable = true)
    (shapes : List Shape) :
    (Instruction.initVar (UInt32.ofNat symbol)).Effect unit.table shapes shapes := by
  obtain ⟨entry, listed, -, data, ddata, -⟩ := describes.entry symbol s found
  rw [← describes.toNat found] at listed
  refine .initVar listed ?_
  cases kind : s.kind with
  | var => exact .inl (data (by rw [kind]; rfl))
  | dynamicVar => exact .inr (ddata kind)
  | _ => simp [kind, Symbol.Kind.isVariable] at isVariable

theorem initVars_effect (describes : unit.Describes r) {cells : List Nat}
    (resets : ∀ cell ∈ cells, ∃ s, r.get? cell = some s ∧ s.kind.isVariable = true)
    (shapes : List Shape) :
    ∀ i ∈ cells.map (fun cell => Instruction.initVar (UInt32.ofNat cell)),
      i.target? = none ∧ i.NulFree ∧ i.Effect unit.table shapes shapes := by
  intro i member
  obtain ⟨cell, inside, rfl⟩ := List.mem_map.mp member
  obtain ⟨s, found, isVariable⟩ := resets cell inside
  exact ⟨rfl, trivial, initVar_effect describes found isVariable shapes⟩

mutual

theorem leads (describes : unit.Describes r) {scope : Scope} :
    (stmt : Stmt) → ∀ {ip : Nat} {shapes : List Shape}, stmt.Typed r scope →
      Stands unit.code ip stmt.listing →
      unit.LeadsTo goal (ip + stmt.listing.width) shapes → unit.LeadsTo goal ip shapes
  | .assign target update value, ip, shapes, typed, stands, rest => by
      obtain ⟨ty, ty', place, typedT, typedV, allowed⟩ := typed
      simp only [listing, Listing.width_append] at stands rest
      have last := stands.behind_both
      refine target.leads describes typedT stands.append_left.append_left
        (Expr.shape_place place ty) ?_
      refine value.leads describes typedV stands.append_left.append_right
        (value.covers_shape ty'.assignable_refl) ?_
      refine .stands last trivial (.assign allowed) ?_
      simpa [Nat.add_assoc] using rest
  | .declare _, _, _, _, _, rest => rest
  | .block _ declared body, ip, shapes, ⟨resets, _, all⟩, stands, rest => by
      rw [listing] at stands rest
      rw [Listing.width_append, ← Nat.add_assoc] at rest
      exact .cells (initVars_effect describes resets shapes) stands.append_left
        (leadsOf describes body all stands.append_right rest)
  | .function _ _ _ _, _, _, _, _, rest => rest

theorem leadsOf (describes : unit.Describes r) {scope : Scope} :
    (stmts : List Stmt) → ∀ {ip : Nat} {shapes : List Shape}, TypedAll r scope stmts →
      Stands unit.code ip (listingOf stmts) →
      unit.LeadsTo goal (ip + (listingOf stmts).width) shapes → unit.LeadsTo goal ip shapes
  | [], _, _, _, _, rest => rest
  | stmt :: others, _, _, ⟨first, all⟩, stands, rest => by
      rw [listingOf] at stands rest
      rw [Listing.width_append, ← Nat.add_assoc] at rest
      exact leads describes stmt first stands.append_left
        (leadsOf describes others all stands.append_right rest)

end

theorem routine_leads (describes : unit.Describes r) {scope : Scope} {symbol : Nat}
    {params : List Nat} {body : List Stmt} {ip : Nat} {s : Symbol}
    (found : r.get? symbol = some s) (typed : ParamsTyped r params s.params)
    (all : TypedAll r scope body)
    (stands : Stands unit.code ip (routine symbol params body).listing) :
    unit.LeadsTo (unit.Returns (UInt32.ofNat symbol)) ip (argumentShapes s.params) := by
  simp only [routine] at stands
  have atReturn := stands.append_right
  have atBody := stands.append_left.append_right
  have atLocals := stands.append_left.append_left.append_right
  have atParams := stands.append_left.append_left.append_left.append_right
  simp only [Listing.width_append, ← Nat.add_assoc] at atReturn atBody atLocals atParams
  have allocated : ∀ i ∈ (localsOf body).map fun cell => Instruction.allocVar (UInt32.ofNat cell),
      i.target? = none ∧ i.NulFree ∧ i.Effect unit.table [] [] := by
    intro i member
    obtain ⟨cell, inside, rfl⟩ := List.mem_map.mp member
    obtain ⟨t, found, -⟩ := TypedAll.locals _ all cell inside
    exact ⟨rfl, trivial, allocVar_effect describes found []⟩
  have arrived : unit.Returns (UInt32.ofNat symbol) _ [] := ⟨rfl, _, atReturn.decode trivial⟩
  have locals := CodeUnit.LeadsTo.cells allocated atLocals
    (leadsOf describes body all atBody (.arrive arrived))
  have reversed : ParamsTyped r params.reverse s.params.reverse :=
    List.forall₂_reverse_iff.mpr typed
  have arguments := CodeUnit.LeadsTo.params describes reversed atParams locals
  rw [List.append_nil] at arguments
  exact .stands stands.append_left.append_left.append_left.append_left trivial
    (allocVar_effect describes found _) (by simpa [argumentShapes] using arguments)

theorem exists_of_forall₂ {α β : Type} {related : α → β → Prop} {front : List α} {back : List β}
    (all : List.Forall₂ related front back) {a : α} (member : a ∈ front) : ∃ b, related a b := by
  induction all with
  | nil => cases member
  | cons first rest induction =>
      rcases List.mem_cons.mp member with rfl | member
      · exact ⟨_, first⟩
      · exact induction member

/-- A function of a typed program: its symbol, its parameters and its body. -/
structure TypedRoutine (r : Registry) (symbol : Nat) (params : List Nat) (body : List Stmt)
    (s : Symbol) : Prop where
  found : r.get? symbol = some s
  kind : s.kind = .fn
  params : ParamsTyped r params s.params
  body : ∃ scope, TypedAll r scope body

/-- The code of a function of a typed program, whose cells are among some outlines. -/
def IsRoutine (r : Registry) (outlines : List (List Nat)) (r' : Routine) : Prop :=
  ∃ symbol params body s, r' = routine symbol params body ∧ TypedRoutine r symbol params body s ∧
    outline symbol params body ∈ outlines

mutual

theorem typedRoutine_of_mem {scope : Scope} : (stmt : Stmt) → stmt.Typed r scope →
    ∀ d ∈ stmt.definitions, ∃ s, TypedRoutine r d.symbol d.params d.body s
  | .assign _ _ _, _ => List.forall_mem_nil _
  | .declare _, _ => List.forall_mem_nil _
  | .block _ _ body, ⟨_, _, all⟩ => typedRoutine_of_memOf body all
  | .function _ _ _ body, ⟨s, found, kind, arguments, all⟩ =>
      List.forall_mem_cons.mpr
        ⟨⟨s, found, kind, arguments, _, all⟩, typedRoutine_of_memOf body all⟩

theorem typedRoutine_of_memOf {scope : Scope} : (stmts : List Stmt) → TypedAll r scope stmts →
    ∀ d ∈ definitionsOf stmts, ∃ s, TypedRoutine r d.symbol d.params d.body s
  | [], _ => List.forall_mem_nil _
  | stmt :: rest, ⟨first, others⟩ =>
      List.forall_mem_append.mpr
        ⟨typedRoutine_of_mem stmt first, typedRoutine_of_memOf rest others⟩

end

theorem mem_routinesOf {scope : Scope} (stmts : List Stmt) (all : TypedAll r scope stmts) :
    ∀ r' ∈ routinesOf stmts, IsRoutine r (outlinesOf stmts) r' := by
  intro r' member
  rw [routinesOf_eq] at member
  obtain ⟨d, defined, rfl⟩ := List.mem_map.mp member
  obtain ⟨s, typed⟩ := typedRoutine_of_memOf stmts all d defined
  rw [outlinesOf_eq]
  exact ⟨d.symbol, d.params, d.body, s, rfl, typed, List.mem_map_of_mem defined⟩

theorem not_isVariable {index : Nat} {s t : Symbol} (found : r.get? index = some s)
    (isFunction : s.kind.isFunction = true) (other : r.get? index = some t) :
    t.kind.isVariable = false := by
  rw [found] at other
  obtain rfl := Option.some.inj other
  cases kind : s.kind <;> simp_all [Symbol.Kind.isFunction, Symbol.Kind.isVariable]

mutual

theorem exists_routine {scope : Scope} {index : Nat} {s : Symbol} (found : r.get? index = some s)
    (isFunction : s.kind.isFunction = true) :
    (stmt : Stmt) → stmt.Typed r scope → index ∈ stmt.declares →
      ∃ r' ∈ stmt.routines, r'.symbol = index
  | .assign _ _ _, _, member => absurd member List.not_mem_nil
  | .declare symbol, ⟨t, found', isVariable, _⟩, member => by
      obtain rfl := List.mem_singleton.mp member
      rw [not_isVariable found isFunction found'] at isVariable
      cases isVariable
  | .block _ _ body, ⟨_, _, all⟩, member => exists_routineOf found isFunction body all member
  | .function _ symbol params body, ⟨_, _, _, arguments, all⟩, member => by
      rcases List.mem_append.mp member with own | inside
      · rcases List.mem_cons.mp own with rfl | param
        · exact ⟨_, List.mem_cons_self, rfl⟩
        · obtain ⟨ty, t, found', dynamic, -⟩ := exists_of_forall₂ arguments param
          have never := not_isVariable found isFunction found'
          rw [dynamic] at never
          cases never
      · obtain ⟨r', member, same⟩ := exists_routineOf found isFunction body all inside
        exact ⟨r', List.mem_cons_of_mem _ member, same⟩

theorem exists_routineOf {scope : Scope} {index : Nat} {s : Symbol}
    (found : r.get? index = some s) (isFunction : s.kind.isFunction = true) :
    (stmts : List Stmt) → TypedAll r scope stmts → index ∈ declaresOf stmts →
      ∃ r' ∈ routinesOf stmts, r'.symbol = index
  | [], _, member => absurd member List.not_mem_nil
  | stmt :: rest, ⟨first, others⟩, member => by
      rcases List.mem_append.mp member with here | there
      · obtain ⟨r', inside, same⟩ := exists_routine found isFunction stmt first here
        exact ⟨r', List.mem_append_left _ inside, same⟩
      · obtain ⟨r', inside, same⟩ := exists_routineOf found isFunction rest others there
        exact ⟨r', List.mem_append_right _ inside, same⟩

end

end Stmt

end StackScript
