import StackScript.Proofs.Calls
import StackScript.Proofs.Tree.Cells

namespace StackScript

/-! Where control goes within code: it leaves the code of expressions and statements only behind
them, and meets nothing but what they emit and the jumps of choices. -/

theorem Instruction.mem_nexts {i : Instruction} {ip width next : Nat} (plain : i.target? = none)
    (member : next ∈ i.nexts ip width) : next = ip + width := by
  cases i with
  | jump target => cases plain
  | jumpIfFalse target => cases plain
  | stop => cases member
  | ret index => cases member
  | _ => exact List.mem_singleton.mp member

namespace CodeUnit

variable {unit : CodeUnit} {fine : Nat → Instruction → Prop} {ip : Nat}

/-- From a place on, a body comes by fine instructions only, and it comes to an end. -/
inductive Confined (unit : CodeUnit) (fine : Nat → Instruction → Prop) : Nat → Prop
  | goes {ip width : Nat} {i : Instruction} (decoded : unit.instructionAt? ip = some (i, width))
      (here : fine ip i) (on : ∀ next ∈ i.nexts ip width, Confined unit fine next) :
      Confined unit fine ip

theorem Confined.stands {i : Instruction} {rest : Listing}
    (stands : Stands unit.code ip (i :: rest)) (clean : i.NulFree) (plain : i.target? = none)
    (here : fine ip i) (more : unit.Confined fine (ip + i.width)) : unit.Confined fine ip := by
  have decoded := stands.decode clean
  rw [Instruction.shift_eq_self plain] at decoded
  apply Confined.goes decoded here
  intro next member
  rw [Instruction.mem_nexts plain member]
  exact more

/-- What the instructions of a listing and all jumps are at each place of the listing. -/
def Fits (fine : Nat → Instruction → Prop) (ip : Nat) (listing : Listing) : Prop :=
  ∀ place i, ip ≤ place → place < ip + listing.width →
    (i ∈ listing ∨ i.target?.isSome = true) → fine place i

/-- Control that comes into the code and is confined behind it is confined at once. -/
def Confines (unit : CodeUnit) (listing : Listing) : Prop :=
  ∀ (fine : Nat → Instruction → Prop) (ip : Nat), Stands unit.code ip listing →
    Fits fine ip listing → unit.Confined fine (ip + listing.width) → unit.Confined fine ip

variable {front back : Listing}

theorem Fits.append_left (fits : Fits fine ip (front ++ back)) : Fits fine ip front := by
  intro place i later earlier known
  rw [Fits, Listing.width_append] at fits
  exact fits place i later (by omega) (known.imp_left (List.mem_append_left back))

theorem Fits.append_right (fits : Fits fine ip (front ++ back)) :
    Fits fine (ip + front.width) back := by
  intro place i later earlier known
  rw [Fits, Listing.width_append] at fits
  exact fits place i (by omega) (by omega) (known.imp_left (List.mem_append_right front))

namespace Confines

theorem nil : unit.Confines [] :=
  fun _ _ _ _ confined => confined

theorem append (first : unit.Confines front) (second : unit.Confines back) :
    unit.Confines (front ++ back) := by
  intro fine ip stands fits confined
  rw [Listing.width_append, ← Nat.add_assoc] at confined
  apply first fine ip stands.append_left fits.append_left
  exact second fine _ stands.append_right fits.append_right confined

theorem single {i : Instruction} (clean : i.NulFree) (plain : i.target? = none) :
    unit.Confines [i] := by
  intro fine ip stands fits confined
  rw [Listing.width_cons, Listing.width_nil, Nat.add_zero] at confined
  have here : fine ip i := by
    apply fits ip i (Nat.le_refl ip) _ (.inl (List.mem_singleton_self i))
    exact CodeUnit.lt_next (stands.decode clean)
  exact .stands stands clean plain here confined

theorem plain {listing : Listing} (each : ∀ i ∈ listing, i.NulFree ∧ i.target? = none) :
    unit.Confines listing := by
  induction listing with
  | nil => exact nil
  | cons i listing induction =>
      obtain ⟨clean, plain⟩ := each i List.mem_cons_self
      exact (single clean plain).append
        (induction fun j member => each j (List.mem_cons_of_mem i member))

theorem choice {condition whenTrue whenFalse : Listing} (length : unit.code.length < 2 ^ 32)
    (tested : unit.Confines condition) (accepted : unit.Confines whenTrue)
    (refused : unit.Confines whenFalse) :
    unit.Confines
      (condition ++
        [.jumpIfFalse (UInt32.ofNat (jumpSize + whenTrue.width + jumpSize))] ++ whenTrue ++
        [.jump (UInt32.ofNat (jumpSize + whenFalse.width))] ++ whenFalse) := by
  intro fine ip stands fits confined
  have placed := choiceAt length stands
  obtain ⟨first, test, onFalse⟩ := placed.test
  obtain ⟨second, jump, behind⟩ := placed.jump
  have inFalse := fits.append_right
  have inTrue := fits.append_left.append_left.append_right
  have inTest := fits.append_left.append_left.append_left.append_left
  simp only [Listing.width_append, Listing.width_cons, Listing.width_nil, Nat.add_zero,
    Instruction.width_jump, Instruction.width_jumpIfFalse, ← Nat.add_assoc]
    at confined inFalse inTrue
  have size : jumpSize = 5 := rfl
  have jumps (place : Nat) (i : Instruction) (later : ip ≤ place)
      (earlier : place < ip + condition.width + jumpSize + whenTrue.width + jumpSize)
      (named : i.target?.isSome = true) : fine place i := by
    apply fits place i later _ (.inr named)
    simp only [Listing.width_append, Listing.width_cons, Listing.width_nil, Nat.add_zero,
      Instruction.width_jump, Instruction.width_jumpIfFalse, ← Nat.add_assoc]
    omega
  have atFalse := refused fine _ placed.refused inFalse confined
  have atTrue := accepted fine _ placed.accepted inTrue
    (.goes jump (jumps _ _ (by omega) (by omega) rfl)
      (List.forall_mem_singleton.mpr (behind ▸ confined)))
  apply tested fine ip placed.tested inTest
  exact .goes test (jumps _ _ (by omega) (by omega) rfl)
    (List.forall_mem_cons.mpr ⟨atTrue, List.forall_mem_singleton.mpr (onFalse ▸ atFalse)⟩)

/-- An instruction behind the code ends the body. -/
theorem confined {last : Instruction} (confines : unit.Confines front) (clean : last.NulFree)
    (plain : last.target? = none) (ends : ∀ place width, last.nexts place width = [])
    (stands : Stands unit.code ip (front ++ [last])) (fits : Fits fine ip (front ++ [last])) :
    unit.Confined fine ip := by
  have decoded := stands.append_right.decode clean
  rw [Instruction.shift_eq_self plain] at decoded
  have here : fine (ip + front.width) last := by
    apply fits.append_right _ last (Nat.le_refl _) _ (.inl (List.mem_singleton_self last))
    exact CodeUnit.lt_next decoded
  apply confines fine ip stands.append_left fits.append_left
  apply Confined.goes decoded here
  rw [ends]
  exact List.forall_mem_nil _

end Confines

end CodeUnit

variable {unit : CodeUnit} {r : Registry}

namespace Expr

mutual

theorem confines (length : unit.code.length < 2 ^ 32) :
    (e : Expr) → ∀ {ty : Ty}, e.Typed r ty → unit.Confines e.listing
  | .literal l, _, ⟨_, clean⟩ => by
      cases l with
      | str s => exact .single clean rfl
      | _ => exact .single trivial rfl
  | .cell .static _, _, _ => .single trivial rfl
  | .cell .dynamic _, _, _ => .single trivial rfl
  | .element array indexes, _, ⟨_, _, typed, all⟩ =>
      ((confines length array typed).append (confines_all length indexes all)).append
        (.single trivial rfl)
  | .call _ arguments, _, ⟨_, _, _, _, _, all, _⟩ =>
      (confines_all length arguments all).append (.single trivial rfl)
  | .negate operand, _, ⟨typed, _⟩ =>
      (confines length operand typed).append (.single trivial rfl)
  | .arith _ lhs rhs, _, ⟨_, _, typedL, typedR, _⟩ =>
      ((confines length lhs typedL).append (confines length rhs typedR)).append
        (.single trivial rfl)
  | .compare _ lhs rhs, _, ⟨_, _, typedL, typedR, _⟩ =>
      ((confines length lhs typedL).append (confines length rhs typedR)).append
        (.single trivial rfl)
  | .choice condition whenTrue whenFalse, _, ⟨_, _, typedC, typedT, typedF, _⟩ =>
      .choice length (confines length condition typedC) (confines length whenTrue typedT)
        (confines length whenFalse typedF)

theorem confines_all (length : unit.code.length < 2 ^ 32) :
    (es : List Expr) → ∀ {tys : List Ty}, TypedAll r es tys → unit.Confines (listings es)
  | [], _, _ => .nil
  | e :: rest, _ :: _, ⟨typed, all⟩ =>
      (confines length e typed).append (confines_all length rest all)

end

end Expr

namespace Stmt

mutual

theorem confines (length : unit.code.length < 2 ^ 32) {scope : Scope} :
    (stmt : Stmt) → stmt.Typed r scope → unit.Confines stmt.listing
  | .assign target _ value, ⟨_, _, _, typedT, typedV, _⟩ =>
      ((target.confines length typedT).append (value.confines length typedV)).append
        (.single trivial rfl)
  | .declare _, _ => .nil
  | .block _ _ body, ⟨_, _, all⟩ => by
      refine .append (.plain fun i member => ?_) (confinesOf length body all)
      obtain ⟨cell, -, rfl⟩ := List.mem_map.mp member
      exact ⟨trivial, rfl⟩
  | .function _ _ _ _, _ => .nil

theorem confinesOf (length : unit.code.length < 2 ^ 32) {scope : Scope} :
    (stmts : List Stmt) → TypedAll r scope stmts → unit.Confines (listingOf stmts)
  | [], _ => .nil
  | stmt :: rest, ⟨first, others⟩ =>
      (confines length stmt first).append (confinesOf length rest others)

end

theorem routine_confined {fine : Nat → Instruction → Prop} (length : unit.code.length < 2 ^ 32)
    {scope : Scope} {symbol : Nat} {params : List Nat} {body : List Stmt} {ip : Nat}
    (all : TypedAll r scope body)
    (stands : Stands unit.code ip (routine symbol params body).listing)
    (fits : CodeUnit.Fits fine ip (routine symbol params body).listing) :
    unit.Confined fine ip := by
  have opening : unit.Confines ([.allocVar (UInt32.ofNat symbol)] ++
      params.reverse.map (fun param => .allocVars (UInt32.ofNat param)) ++
      (localsOf body).map fun cell => .allocVar (UInt32.ofNat cell)) := by
    refine .plain fun i member => ?_
    simp only [List.mem_append, List.mem_singleton, List.mem_map] at member
    rcases member with (rfl | ⟨param, -, rfl⟩) | ⟨cell, -, rfl⟩ <;> exact ⟨trivial, rfl⟩
  have clean : (Instruction.ret (UInt32.ofNat symbol)).NulFree := trivial
  exact (opening.append (confinesOf length body all)).confined clean rfl (fun _ _ => rfl) stands
    fits

end Stmt

/-! What expressions and statements emit. -/

/-- An instruction that names no record, except for that of a function that it calls. -/
def Instruction.isOperation : Instruction → Bool
  | .putAddr _ | .putDAddr _ | .syscall _ _ | .ret _ | .initVar _ | .allocVar _ | .allocVars _ =>
      false
  | _ => true

/-- What expressions emit. -/
inductive Expr.Emits (r : Registry) : Instruction → Prop
  | operation {i : Instruction} (operation : i.isOperation = true) : Emits r i
  | static {symbol : Nat} {s : Symbol} (found : r.get? symbol = some s)
      (isStatic : s.kind.isStatic = true) : Emits r (.putAddr (UInt32.ofNat symbol))
  | dynamic (symbol : Nat) : Emits r (.putDAddr (UInt32.ofNat symbol))

/-- What statements emit that reset the variables of some blocks. -/
def Stmt.Emits (r : Registry) (resets : List Nat) (i : Instruction) : Prop :=
  Expr.Emits r i ∨ ∃ cell ∈ resets, i = .initVar (UInt32.ofNat cell)

namespace Expr

mutual

theorem emits : (e : Expr) → ∀ {ty : Ty}, e.Typed r ty → ∀ i ∈ e.listing, Emits r i
  | .literal l, _, _ =>
      List.forall_mem_singleton.mpr (.operation (by cases l <;> rfl))
  | .cell .static _, _, ⟨_, found, isStatic, _⟩ =>
      List.forall_mem_singleton.mpr (.static found isStatic)
  | .cell .dynamic symbol, _, _ => List.forall_mem_singleton.mpr (.dynamic symbol)
  | .element array indexes, _, ⟨_, _, typed, all⟩ =>
      forall_mem_concat
        (List.forall_mem_append.mpr ⟨emits array typed, emits_all indexes all⟩) (.operation rfl)
  | .call _ arguments, _, ⟨_, _, _, _, _, all, _⟩ =>
      forall_mem_concat (emits_all arguments all) (.operation rfl)
  | .negate operand, _, ⟨typed, _⟩ => forall_mem_concat (emits operand typed) (.operation rfl)
  | .arith _ lhs rhs, _, ⟨_, _, typedL, typedR, _⟩ =>
      forall_mem_concat (List.forall_mem_append.mpr ⟨emits lhs typedL, emits rhs typedR⟩)
        (.operation rfl)
  | .compare _ lhs rhs, _, ⟨_, _, typedL, typedR, _⟩ =>
      forall_mem_concat (List.forall_mem_append.mpr ⟨emits lhs typedL, emits rhs typedR⟩)
        (.operation rfl)
  | .choice condition whenTrue whenFalse, _, ⟨_, _, typedC, typedT, typedF, _⟩ =>
      List.forall_mem_append.mpr
        ⟨forall_mem_concat
          (List.forall_mem_append.mpr
            ⟨forall_mem_concat (emits condition typedC) (.operation rfl), emits whenTrue typedT⟩)
          (.operation rfl), emits whenFalse typedF⟩

theorem emits_all :
    (es : List Expr) → ∀ {tys : List Ty}, TypedAll r es tys → ∀ i ∈ listings es, Emits r i
  | [], _, _ => List.forall_mem_nil _
  | e :: rest, _ :: _, ⟨typed, all⟩ =>
      List.forall_mem_append.mpr ⟨emits e typed, emits_all rest all⟩

end

end Expr

namespace Stmt

variable {front back : List Nat} {i : Instruction}

theorem Emits.mono (emits : Emits r front i) (subset : front ⊆ back) : Emits r back i :=
  emits.imp_right fun ⟨cell, member, same⟩ => ⟨cell, subset member, same⟩

mutual

theorem emits {scope : Scope} :
    (stmt : Stmt) → stmt.Typed r scope → ∀ i ∈ stmt.listing, Emits r stmt.resets i
  | .assign target _ value, ⟨_, _, _, typedT, typedV, _⟩ => fun i member =>
      .inl (forall_mem_concat
        (List.forall_mem_append.mpr ⟨target.emits typedT, value.emits typedV⟩) (.operation rfl)
        i member)
  | .declare _, _ => List.forall_mem_nil _
  | .block _ declared body, ⟨_, _, all⟩ => by
      refine List.forall_mem_append.mpr ⟨fun i member => ?_, fun i member => ?_⟩
      · obtain ⟨cell, inside, rfl⟩ := List.mem_map.mp member
        exact .inr ⟨cell, List.mem_append_left _ inside, rfl⟩
      · exact (emitsOf body all i member).mono (List.subset_append_right _ _)
  | .function _ _ _ _, _ => List.forall_mem_nil _

theorem emitsOf {scope : Scope} :
    (stmts : List Stmt) → TypedAll r scope stmts →
      ∀ i ∈ listingOf stmts, Emits r (resetsOf stmts) i
  | [], _ => List.forall_mem_nil _
  | stmt :: rest, ⟨first, others⟩ =>
      List.forall_mem_append.mpr
        ⟨fun i member => (emits stmt first i member).mono (List.subset_append_left _ _),
          fun i member => (emitsOf rest others i member).mono (List.subset_append_right _ _)⟩

end

end Stmt

end StackScript
