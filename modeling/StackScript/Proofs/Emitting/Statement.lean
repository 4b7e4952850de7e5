import StackScript.Emitting.Statement
import StackScript.Proofs.Emitting.Expression

namespace StackScript

namespace Emitting

/-! Rules of statements write the code of the tree that is read, and keep count of what it
declares. -/

open Grammar (ParseState maxNesting)

/-- What has to be allocated of some variables that are declared. -/
def allocated : Lifetime → List Nat → List Nat
  | .static, _ => []
  | .dynamic, cells => cells

namespace Workspace

/-- With more written and declared behind. -/
def after (w : Workspace) (lifetime : Lifetime) (emission : Emission) (cells : List Nat)
    (scopes : Nat) : Workspace :=
  { w with
    code := w.code ++ emission.inline
    functions := w.functions ++ emission.functions
    locals := w.locals ++ allocated lifetime cells
    opened := w.opened + scopes }

/-- Behind a statement. -/
def ran (w : Workspace) (lifetime : Lifetime) (stmt : Stmt) : Workspace :=
  w.after lifetime stmt.emission stmt.locals (if stmt.opensScope then 1 else 0)

/-- Behind some statements, that open so many scopes. -/
def ranAll (w : Workspace) (lifetime : Lifetime) (stmts : List Stmt) (scopes : Nat) : Workspace :=
  w.after lifetime (Stmt.emissionOf stmts) (Stmt.localsOf stmts) scopes

end Workspace

/-- How many scopes some statements open. -/
def scopesOf (stmts : List Stmt) : Nat :=
  stmts.countP Stmt.opensScope

variable {depth : Nat} {w start : Workspace} {tree : Grammar.Nested} {rule : Nested}
variable {lifetime : Lifetime} {scope : Scope}

theorem allocated_nil (lifetime : Lifetime) : allocated lifetime [] = [] := by
  cases lifetime <;> rfl

theorem allocated_append (lifetime : Lifetime) (front back : List Nat) :
    allocated lifetime (front ++ back) = allocated lifetime front ++ allocated lifetime back := by
  cases lifetime <;> rfl

namespace Workspace

theorem ranAll_nil (w : Workspace) (lifetime : Lifetime) : w.ranAll lifetime [] 0 = w := by
  simp only [ranAll, after, Stmt.emissionOf, Emission.empty, Stmt.localsOf, allocated_nil,
    CodeUnit.append_empty, List.append_nil, Nat.add_zero]

theorem ran_assign (w : Workspace) (lifetime : Lifetime) (target : Expr) (update : Update)
    (value : Expr) :
    w.ran lifetime (.assign target update value) =
      w.write (target.unit ++ value.unit ++ .single (.assign update)) := by
  simp only [ran, after, Stmt.emission, Stmt.locals, allocated_nil, CodeUnit.append_empty,
    List.append_nil]
  rfl

theorem ran_declare (w : Workspace) (lifetime : Lifetime) (symbol : Nat) :
    w.ran lifetime (.declare symbol) =
      { w with locals := w.locals ++ allocated lifetime [symbol] } := by
  simp only [ran, after, Stmt.emission, Emission.empty, Stmt.locals, CodeUnit.append_empty]
  rfl

theorem ran_function (w : Workspace) (lifetime : Lifetime) (inside : Scope) (symbol : Nat)
    (params : List Nat) (body : List Stmt) :
    w.ran lifetime (.function inside symbol params body) =
      { w with
        functions := w.functions ++
          functionUnit symbol params (Stmt.localsOf body) (Stmt.emissionOf body)
        opened := w.opened + 1 } := by
  simp only [ran, after, Stmt.emission, Stmt.locals, allocated_nil, CodeUnit.append_empty,
    List.append_nil]
  rfl

theorem ran_block (w : Workspace) (lifetime : Lifetime) (inside : Scope) (declared : List Nat)
    (body : List Stmt) :
    w.ran lifetime (.block inside declared body) =
      { w with
        code := w.code ++
          .ofInstructions (declared.map fun cell => .initVar (UInt32.ofNat cell)) ++
            (Stmt.emissionOf body).inline
        functions := w.functions ++ (Stmt.emissionOf body).functions
        locals := w.locals ++ allocated lifetime (Stmt.localsOf body)
        opened := w.opened + 1 } := by
  have emitted := Stmt.emissionOf_holds body
  have resets : (CodeUnit.ofInstructions
      (declared.map fun cell => .initVar (UInt32.ofNat cell))).Holds _ :=
    CodeUnit.holds_ofInstructions (by simp [Instruction.target?])
  rw [resets.append_assoc emitted.inline, ← emitted.functions.holds.append_empty_append]
  rfl

theorem ran_ranAll (w : Workspace) (lifetime : Lifetime) (stmt : Stmt) (rest : List Stmt) :
    (w.ran lifetime stmt).ranAll lifetime rest (scopesOf rest) =
      w.ranAll lifetime (stmt :: rest) (scopesOf (stmt :: rest)) := by
  have first := stmt.emission_holds
  have others := Stmt.emissionOf_holds rest
  have scopes : w.opened + (if stmt.opensScope then 1 else 0) + scopesOf rest =
      w.opened + scopesOf (stmt :: rest) := by
    rw [scopesOf, scopesOf, List.countP_cons]
    omega
  simp only [ran, ranAll, after, first.inline.append_assoc others.inline,
    first.functions.holds.append_assoc others.functions.holds, List.append_assoc,
    ← allocated_append, scopes]
  rfl

end Workspace

theorem assignment_emits (writes : rule.Writes depth tree) (scope : Scope) (lifetime : Lifetime)
    (at' : w.depth = depth) :
    Emits w (Grammar.assignment tree scope) (assignment rule scope) (fun _ => ())
      (w.ran lifetime) := by
  refine .close <| .bind ((target_writes writes scope).orPass _ at') fun place => ?_
  refine .read (.acceptOne _) fun found => ?_
  cases found with
  | none => exact .read .cursor fun _ => .fail rfl
  | some update =>
      refine .bind ((writes.conditional scope).orFail _ at' at') fun value => ?_
      refine .ite (fun _ => .emit (.pure rfl ?_)) fun _ => .fail rfl
      rw [Workspace.write_write place.expr.holds value.expr.holds,
        Workspace.write_push (place.expr.holds.append value.expr.holds) rfl]
      exact (w.ran_assign lifetime _ _ _).symm

theorem assignmentStatement_emits (writes : rule.Writes depth tree) (scope : Scope)
    (lifetime : Lifetime) (at' : w.depth = depth) :
    Emits w (Grammar.assignment tree scope) (assignmentStatement rule scope) (fun _ => ())
      (w.ran lifetime) := by
  rw [← bind_pure (Grammar.assignment tree scope)]
  have own := assignment_emits writes scope lifetime (w := Part.code.set .empty w) at'
  refine .bind (own.owning .code) fun stmt => .finish fun p => ?_
  have joined : w.code ++ (.empty ++ stmt.emission.inline) = w.code ++ stmt.emission.inline :=
    stmt.emission_holds.inline.append_empty_append w.code
  change EStateM.Result.ok () (State.mk p { w.ran lifetime stmt with
    code := w.code ++ (.empty ++ stmt.emission.inline) }) = _
  rw [joined]
  rfl

theorem variableDeclaration_emits (w : Workspace) (lifetime : Lifetime) (scope : Scope) :
    Emits w (Grammar.variableDeclaration lifetime scope) (variableDeclaration lifetime scope) id
      fun declared => w.ran lifetime (.declare declared.1) := by
  rw [← bind_pure (Grammar.variableDeclaration lifetime scope)]
  refine .bind (Emits.scan _) fun declared => .finish fun p => ?_
  rw [Workspace.ran_declare]
  cases lifetime with
  | static =>
      simp only [allocated, List.append_nil]
      rfl
  | dynamic => rfl

theorem declarationStatement_emits (w : Workspace) (lifetime : Lifetime) (scope : Scope) :
    Emits w ((fun declared => .declare declared.1) <$> Grammar.variableDeclaration lifetime scope)
      (declarationStatement lifetime scope) (fun _ => ()) (w.ran lifetime) := by
  rw [← bind_pure_comp]
  exact .bind (variableDeclaration_emits w lifetime scope) fun _ => .pure rfl rfl

/-- A parameter is declared as a local of its own. -/
theorem parameter_emits (w : Workspace) (scope : Scope) :
    Emits w (Grammar.variableDeclaration .dynamic scope)
      ((variableDeclaration .dynamic scope).owning .locals [])
      (fun declared => (declared, [declared.1])) fun _ => w := by
  refine ((variableDeclaration_emits _ .dynamic scope).owning .locals).congr (fun declared => ?_)
    fun declared => ?_
  · rw [Workspace.ran_declare]
    rfl
  · rw [Workspace.ran_declare]
    rfl

theorem parametersLoop_follows (start : Workspace) (scope : Scope) (fuel : Nat) :
    Follows start start (Grammar.parametersLoop scope fuel) (parametersLoop scope fuel) id
      fun _ => start := by
  induction fuel with
  | zero => exact .fail rfl
  | succ fuel induction =>
      refine .bind ((parameter_emits start scope).orFail _ rfl) fun first => ?_
      refine .read (.acceptSymbol ',') fun _ => .ite (fun _ => ?_) fun _ => .pure rfl rfl
      exact .bind induction fun rest => .pure rfl rfl

theorem parameters_emit (w : Workspace) (scope : Scope) :
    Emits w (Grammar.parameters scope) (parameters scope) id fun _ => w :=
  .close <| .read .remaining fun _ => parametersLoop_follows w scope _

theorem parameterList_follows (start : Workspace) (scope : Scope) :
    Follows start start (Grammar.parameterList scope) (parameterList scope) id fun _ => start := by
  refine .read (.acceptSymbol '(') fun _ => .ite (fun _ => ?_) fun _ => .pure rfl rfl
  refine .read (.acceptSymbol ')') fun _ => .ite (fun _ => .pure rfl rfl) fun _ => ?_
  refine .bind ((parameters_emit start scope).orFail _ rfl) fun params => ?_
  exact .read (.acceptSymbol ')') fun _ => .ite (fun _ => .pure rfl rfl) fun _ => .fail rfl

/-- Behind a unit, of which the outermost one ends the program. -/
def Workspace.ended (w : Workspace) (lifetime : Lifetime) (scope : Scope) (stmts : List Stmt) :
    Workspace :=
  if scope.isRoot then (w.ranAll lifetime stmts 0).push .stop else w.ranAll lifetime stmts 0

theorem Workspace.ended_child (w : Workspace) (lifetime : Lifetime) (scope : Scope) (name : String)
    (stmts : List Stmt) :
    w.ended lifetime (scope.child name) stmts = w.ranAll lifetime stmts 0 := by
  have inner : (scope.child name).isRoot = false := by simp [Scope.child, Scope.isRoot]
  rw [ended, if_neg (by simp [inner])]

theorem Workspace.ended_depth (w : Workspace) (lifetime : Lifetime) (scope : Scope)
    (stmts : List Stmt) : (w.ended lifetime scope stmts).depth = w.depth := by
  unfold ended
  split <;> rfl

/-- At a depth, the rule writes the code of the statements of the tree. Its failures are always
those of what is around it. -/
def BlockBody.Writes (depth : Nat) (tree : Grammar.BlockBody) (rule : BlockBody) : Prop :=
  ∀ (lifetime : Lifetime) (scope : Scope) (w : Workspace), w.depth = depth →
    Mirrors w (tree lifetime scope) (rule lifetime scope) (fun _ => ()) (w.ended lifetime scope)
      fun _ w' => w'.depth = w.depth

theorem functionUnit_fresh (symbol : Nat) (params : List Nat) (stmts : List Stmt) :
    functionUnit symbol params ([] ++ Stmt.localsOf stmts)
        { inline := .empty ++ (Stmt.emissionOf stmts).inline
          functions := .empty ++ (Stmt.emissionOf stmts).functions } =
      functionUnit symbol params (Stmt.localsOf stmts) (Stmt.emissionOf stmts) := by
  have emitted := Stmt.emissionOf_holds stmts
  simp only [functionUnit, emitted.inline.append_empty_append,
    emitted.functions.holds.append_empty_append, List.nil_append]

section Body

variable {body : Grammar.BlockBody} {body' : BlockBody}

theorem block_emits (inner : BlockBody.Writes depth body body') (lifetime : Lifetime)
    (scope : Scope) (at' : w.depth = depth) :
    Emits w (Grammar.block body lifetime scope) (block body' lifetime scope) (fun _ => ())
      (w.ended lifetime scope) := by
  refine .close <| .read (.acceptSymbol _) fun _ => .ite (fun _ => ?_) fun _ => .pass
  refine .bind ((inner lifetime scope w at').orFail _ fun _ _ kept => kept) fun stmts => ?_
  exact .read (.acceptSymbol _) fun _ => .ite (fun _ => .pure rfl rfl) fun _ =>
    .fail (w.ended_depth lifetime scope stmts)

theorem functionDefinition_emits (inner : BlockBody.Writes depth body body') (scope : Scope)
    (at' : w.depth = depth) :
    Emits w (Grammar.functionDefinition body scope) (functionDefinition body' scope)
      (fun stmt => stmt.emission.functions) fun _ => w := by
  refine .close <| .read .cursor fun c => .read (.acceptKeyword _) fun _ =>
    .ite (fun _ => ?_) fun _ => .pass
  refine .bind ((Emits.scan _).orFail _ rfl) ?_
  rintro ⟨name, existing⟩
  refine .ite (fun _ => .fail rfl) fun _ => ?_
  refine .bind (parameterList_follows w _) fun params => ?_
  refine .read (.acceptKeyword _) fun _ => .ite (fun _ => ?_) fun _ => .fail rfl
  refine .bind ((Emits.scan _).orFail _ rfl) fun ty => .read (.declare? _) fun found => ?_
  cases found with
  | none => exact .fail rfl
  | some index =>
      have own := ((block_emits inner .dynamic (scope.child name)
        (w := Part.code.set .empty (Part.functions.set .empty (Part.locals.set [] w)))
          at').owning .code).owning .functions |>.owning .locals
      refine .bind (own.orFail _ rfl) fun stmts => .pure ?_ ?_
      · rw [Workspace.ended_child]
        exact functionUnit_fresh index _ stmts
      · rw [Workspace.ended_child]
        rfl

/-- What the rule gives is a function. -/
theorem functionDefinition_yields :
    Yields (Grammar.functionDefinition body scope)
      fun stmt => ∃ inside symbol params stmts, stmt = .function inside symbol params stmts := by
  refine .close <| .bind fun start => .bind fun found => .ite ?_ .pass
  refine .bind fun named => .ite .fail (.bind fun params => .bind fun typed => .ite ?_ .fail)
  refine .bind fun ty => .bind fun declared => ?_
  cases declared with
  | none => exact .fail
  | some index => exact .bind fun stmts => .pure ⟨_, _, _, stmts, rfl⟩

theorem functionStatement_emits (inner : BlockBody.Writes depth body body') (scope : Scope)
    (lifetime : Lifetime) (at' : w.depth = depth) :
    Emits w (Grammar.functionDefinition body scope) (functionStatement body' scope) (fun _ => ())
      (w.ran lifetime) := by
  have counted : Emits w (Grammar.functionDefinition body scope) (functionStatement body' scope)
      (fun _ => ()) fun stmt => { w with
        functions := w.functions ++ stmt.emission.functions
        opened := w.opened + 1 } := by
    rw [← bind_pure (Grammar.functionDefinition body scope)]
    refine .bind (functionDefinition_emits inner scope at') fun stmt => ?_
    exact .appendFunctions (.finish fun _ => rfl)
  refine counted.congr_of functionDefinition_yields (fun _ _ => rfl) ?_
  rintro stmt ⟨inside, symbol, params, stmts, rfl⟩
  exact (w.ran_function lifetime inside symbol params stmts).symm

theorem emitResets_eq (w : Workspace) (cells : List Nat) {ε : Type} (p : ParseState) :
    (emitResets cells : EStateM ε State Unit) ⟨p, w⟩ =
      .ok ()
        ⟨p, w.write (.ofInstructions (cells.map fun cell => .initVar (UInt32.ofNat cell)))⟩ := by
  induction cells generalizing w with
  | nil =>
      have nothing : w.write (.ofInstructions []) = w := w.write_empty
      rw [List.map_nil, nothing]
      rfl
  | cons cell rest induction =>
      have plain : ∀ j ∈ (cell :: rest).map fun cell => Instruction.initVar (UInt32.ofNat cell),
          j.target? = none := by
        simp [Instruction.target?]
      have others : (CodeUnit.ofInstructions
          (rest.map fun cell => .initVar (UInt32.ofNat cell))).Holds _ :=
        CodeUnit.holds_ofInstructions (by simp [Instruction.target?])
      refine (induction (w.push (.initVar (UInt32.ofNat cell)))).trans ?_
      rw [Workspace.push_eq rfl, Workspace.write_write (CodeUnit.holds_single _) others,
        CodeUnit.single_append_ofInstructions plain]
      rfl

theorem blockStatement_emits (inner : BlockBody.Writes depth body body') (lifetime : Lifetime)
    (scope : Scope) (at' : w.depth = depth) :
    Emits w (Grammar.blockStatement body lifetime (scope.child (toString w.opened)))
      (blockStatement body' lifetime scope) (fun _ => ()) (w.ran lifetime) := by
  refine .opened ?_
  have own := ((block_emits inner lifetime (scope.child (toString w.opened))
    (w := Part.code.set .empty (Part.functions.set .empty w)) at').owning .code).owning .functions
  refine .bind own fun stmts => .read .registry fun r => .write (emitResets_eq _ _) ?_
  refine .append (.appendFunctions (.finish fun p => ?_))
  have emitted := Stmt.emissionOf_holds stmts
  rw [Workspace.ended_child, Workspace.ran_block, ← emitted.inline.append_empty_append,
    ← emitted.functions.holds.append_empty_append w.functions]
  rfl

theorem statement_emits (writes : rule.Writes depth tree)
    (inner : BlockBody.Writes depth body body') (lifetime : Lifetime) (scope : Scope)
    (at' : w.depth = depth) :
    Emits w (Grammar.statement tree body lifetime scope w.opened)
      (statement rule body' lifetime scope) (fun _ => ()) (w.ran lifetime) :=
  .or (assignmentStatement_emits writes scope lifetime at') <|
    .or (declarationStatement_emits w lifetime scope) <|
    .or (blockStatement_emits inner lifetime scope at') <|
    functionStatement_emits inner scope lifetime at'

/-- Statements up to the end; what their failures leave is for the rule around them to say. -/
theorem statementsLoop_mirrors {next : Nat → Grammar.Rule Stmt} {next' : Rule Unit}
    (emits : ∀ w : Workspace, w.depth = depth →
      Emits w (next w.opened) next' (fun _ => ()) (w.ran lifetime))
    (inBlock : Bool) (fuel : Nat) (at' : w.depth = depth) :
    Mirrors w (Grammar.statementsLoop next inBlock fuel w.opened)
      (statementsLoop next' inBlock fuel) (fun _ => ())
      (fun stmts => w.ranAll lifetime stmts (scopesOf stmts)) fun _ w' => w'.depth = depth := by
  have none (w : Workspace) : Mirrors w (pure [] : Grammar.Rule (List Stmt)) (pure ()) (fun _ => ())
      (fun stmts => w.ranAll lifetime stmts (scopesOf stmts)) fun _ w' => w'.depth = depth :=
    .pure rfl (w.ranAll_nil lifetime).symm
  induction fuel generalizing w with
  | zero => exact none w
  | succ fuel induction =>
      refine .read .skipSpace fun _ => .read .cursor fun start => ?_
      cases peek : start.peek? with
      | none =>
          cases inBlock with
          | true => exact .throw at'
          | false => exact none w
      | some char =>
          have more : ¬ some char = Option.none := Option.some_ne_none char
          rw [if_neg more]
          by_cases closing : char = '\x7d' ∧ inBlock = true
          · obtain ⟨rfl, rfl⟩ := closing
            rw [if_pos (by simp [Cursor.isAt, peek])]
            exact none w
          · rw [if_neg (by simpa [Cursor.isAt, peek] using closing)]
            split
            · exact absurd ‹some char = Option.none› more
            · exact absurd ‹some char = Option.none› more
            · exact absurd ⟨Option.some.inj ‹_›, rfl⟩ closing
            · refine .attempt (emits w at') (fun stmt => ?_) fun r w' undone =>
                .read (.moveTo _) fun _ => .throw (undone.depth.trans at')
              have opened : (if stmt.opensScope then w.opened + 1 else w.opened) =
                  (w.ran lifetime stmt).opened := by
                cases opens : stmt.opensScope <;> simp [Workspace.ran, Workspace.after, opens]
              dsimp only
              rw [opened]
              exact (induction (w := w.ran lifetime stmt) at').pack (fun _ => rfl)
                fun rest => w.ran_ranAll lifetime stmt rest

theorem statements_mirror (writes : rule.Writes depth tree)
    (inner : BlockBody.Writes depth body body') (lifetime : Lifetime) (scope : Scope)
    (at' : w.depth = depth) :
    Mirrors w (Grammar.statements tree body lifetime scope) (statements rule body' lifetime scope)
      (fun _ => ()) (w.ended lifetime scope) fun _ w' => w'.depth = depth := by
  refine .read .remaining fun count => ?_
  rw [← bind_pure (Grammar.statementsLoop _ _ _ _)]
  have loop := statementsLoop_mirrors (w := Part.opened.set 0 w)
    (fun _ here => statement_emits writes inner lifetime scope here) (!scope.isRoot) (count + 1) at'
  refine .bind (.owning .opened loop fun _ _ kept => kept) fun stmts => ?_
  split
  · rename_i root
    refine .emit (.pure rfl ?_)
    rw [Workspace.ended, if_pos root]
    rfl
  · rename_i inside
    refine .pure rfl ?_
    rw [Workspace.ended, if_neg inside]
    rfl

end Body

theorem bodyWithin_writes (bound depth : Nat) :
    BlockBody.Writes depth (Grammar.bodyWithin (min bound (maxNesting - depth)))
      (bodyWithin bound) := by
  induction bound generalizing depth with
  | zero => exact fun _ _ _ _ => .tooDeep fun _ => rfl
  | succ bound induction =>
      rintro lifetime scope w rfl
      by_cases room : w.depth < maxNesting
      · have levels : min (bound + 1) (maxNesting - w.depth) =
            min bound (maxNesting - (w.depth + 1)) + 1 := by omega
        rw [levels]
        have deeper := statements_mirror (w := { w with depth := w.depth + 1 })
          (nestedWithin_writes bound (w.depth + 1)) (induction (w.depth + 1)) lifetime scope rfl
        refine (Mirrors.deeper room deeper (Workspace.ended_depth _ lifetime scope)
          fun _ _ kept => ⟨kept, rfl⟩).congr (fun _ => rfl) fun stmts => ?_
        unfold Workspace.ended
        split <;> rfl
      · have full : maxNesting ≤ w.depth := Nat.not_lt.mp room
        rw [Nat.sub_eq_zero_of_le full, Nat.min_zero]
        exact .deeper_of_full full fun _ => rfl

/-! A text is compiled to the same program, and to the same diagnostics, as from its tree. -/

theorem program_mirrors {w : Workspace} (start : w.depth = 0) :
    Mirrors w Grammar.program program (fun _ => ()) (w.ended .static .root)
      fun _ w' => w'.depth = 0 := by
  have levels : min maxNesting (maxNesting - 0) = maxNesting := by simp
  have nested := nestedWithin_writes maxNesting 0
  have bodies := bodyWithin_writes maxNesting 0
  rw [levels] at nested bodies
  exact statements_mirror nested bodies .static .root start

theorem link_eq (registry : Registry) (stmts : List Stmt) :
    Compilation.prologue (registry.declaredIn .root) ++
        (Workspace.initial.ended .static .root stmts).code ++
        (Workspace.initial.ended .static .root stmts).functions =
      Compilation.link registry stmts := by
  have inline := (Stmt.emissionOf_holds stmts).inline
  have stopped := inline.append (CodeUnit.holds_single .stop)
  have code : (Workspace.initial.ended .static .root stmts).code =
      .empty ++ ((Stmt.emissionOf stmts).inline ++ .single .stop) := by
    rw [← inline.append_assoc (CodeUnit.holds_single _), ← CodeUnit.push_eq rfl]
    rfl
  rw [code, stopped.append_empty_append]
  rfl

/-- No text is compiled to another program, or to other diagnostics, if there is no tree. -/
theorem compile_eq (source : String) : Emitting.compile source = StackScript.compile source := by
  have mirrors := program_mirrors (w := .initial) rfl
  unfold Emitting.compile StackScript.compile
  cases run : Grammar.program ⟨.ofSource source, Compilation.initialRegistry⟩ with
  | ok stmts p =>
      simp only [run, mirrors.ok run, link_eq]
      rfl
  | error r p =>
      obtain ⟨w', failed, -⟩ := mirrors.error run
      simp only [run, failed]

end Emitting

end StackScript
