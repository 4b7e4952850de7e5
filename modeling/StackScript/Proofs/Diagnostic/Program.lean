import StackScript.Compilation
import StackScript.Proofs.Diagnostic.Expression

namespace StackScript

/-! Failures of statements and of whole programs. A refused program gives nothing but a tree of
diagnostics, and the report of that tree names a place of the source. -/

namespace Grammar

variable {source : List Char} {low : Nat} {nested : Nested} {body : BlockBody}

theorem assignment_locates (deeper : nested.Locates source) (scope : Scope) :
    Locates source (assignment nested scope) := by
  refine .close fun low => .bind (.orPass rfl (target_locates deeper scope)) fun _ => ?_
  refine .bind (.acceptOperators _) fun found => ?_
  cases found with
  | none =>
      refine .after_cursor fun c stands => .fail rfl ?_
      exact Diagnostic.soundAll_leaf stands rfl
  | some update =>
      refine .bind (.orFail rfl (deeper.conditional scope)) fun _ => ?_
      exact .ite .pure (.fail rfl trivial)

theorem variableDeclaration_locates (lifetime : Lifetime) (scope : Scope) :
    Locates source (variableDeclaration lifetime scope) := by
  refine .close fun low => .after_cursor fun _ _ => ?_
  refine .bind (.orPass rfl typeName_locates) fun _ => ?_
  refine .bind (.orFail rfl (identifier_locates scope .exact)) fun _ => ?_
  refine .bind (.declare? _) fun found => ?_
  cases found with
  | none => exact .fail rfl trivial
  | some index => exact .pure

theorem parametersLoop_tells (scope : Scope) (fuel : Nat) :
    Tells source low (parametersLoop scope fuel) (Failure.Sound source low) := by
  induction fuel with
  | zero => exact .fail rfl trivial
  | succ fuel induction =>
      refine .bind (.orFail rfl (variableDeclaration_locates .dynamic scope)) fun _ => ?_
      exact .bind (.acceptSymbol ',') fun _ => .ite (.bind induction fun _ => .pure) .pure

theorem parameters_locate (scope : Scope) : Locates source (parameters scope) :=
  .close fun _ => .bind .remaining fun _ => parametersLoop_tells scope _

theorem parameterList_tells (scope : Scope) :
    Tells source low (parameterList scope) (Failure.Sound source low) := by
  refine .bind (.acceptSymbol '(') fun _ => .ite ?_ .pure
  refine .bind (.acceptSymbol ')') fun _ => .ite .pure ?_
  refine .bind (.orFail rfl (parameters_locate scope)) fun _ => ?_
  exact .bind (.acceptSymbol ')') fun _ => .ite .pure (.fail rfl trivial)

/-- The rule for the statements of a block, one level deeper. -/
def BlockBody.Locates (source : List Char) (body : BlockBody) : Prop :=
  ∀ lifetime scope, Grammar.Locates source (body lifetime scope)

section Body

variable (inner : body.Locates source)

include inner

theorem block_locates (lifetime : Lifetime) (scope : Scope) :
    Locates source (block body lifetime scope) := by
  refine .close fun low => .bind (.acceptSymbol _) fun _ => .ite ?_ (.pass rfl trivial)
  refine .bind (.orFail rfl (inner lifetime scope)) fun _ => ?_
  exact .bind (.acceptSymbol _) fun _ => .ite .pure (.fail rfl trivial)

theorem blockStatement_locates (lifetime : Lifetime) (scope : Scope) :
    Locates source (blockStatement body lifetime scope) :=
  fun low => .bind (block_locates inner lifetime scope low) fun _ => .bind .registry fun _ => .pure

theorem functionDefinition_locates (scope : Scope) :
    Locates source (functionDefinition body scope) := by
  refine .close fun low => .after_cursor fun _ _ => .bind (.acceptKeyword _) fun _ => ?_
  refine .ite ?_ (.pass rfl trivial)
  refine .bind (.orFail rfl (identifier_locates scope .exact)) fun _ => ?_
  refine .ite (.fail rfl trivial) (.bind (parameterList_tells _) fun _ => ?_)
  refine .bind (.acceptKeyword _) fun _ => .ite ?_ (.fail rfl trivial)
  refine .bind (.orFail rfl typeName_locates) fun _ => .bind (.declare? _) fun found => ?_
  cases found with
  | none => exact .fail rfl trivial
  | some index => exact .bind (.orFail rfl (block_locates inner .dynamic _)) fun _ => .pure

theorem statement_locates (deeper : nested.Locates source) (lifetime : Lifetime) (scope : Scope)
    (opened : Nat) : Locates source (statement nested body lifetime scope opened) :=
  .or (assignment_locates deeper scope) <|
    .or (fun low => .map (variableDeclaration_locates lifetime scope low)) <|
    .or (blockStatement_locates inner lifetime _) (functionDefinition_locates inner scope)

end Body

/-- The node of a unit is at the start of the statement that failed, in front of all others. -/
theorem statementsLoop_locates {next : Nat → Rule Stmt}
    (locates : ∀ opened, Locates source (next opened)) (inBlock : Bool) (fuel opened : Nat) :
    Locates source (statementsLoop next inBlock fuel opened) := by
  induction fuel generalizing opened with
  | zero => exact fun low => .pure
  | succ fuel induction =>
      intro low
      have outer (c : Cursor) (rejection : Rejection) (stands : c.Stands source low)
          (sound : rejection.Sound source c.position.offset) : rejection.Sound source low :=
        sound.lower stands.low_le
      refine .bind .skipSpace fun _ => .from_cursor (fun start stands => ?_) outer
      have here := stands.here
      have unit {nodes : List Diagnostic} {signal : Signal}
          (sound : Diagnostic.SoundAll (Text.Utf8.encode source) start.position.offset nodes) :
          (unitFailure start { signal, nodes }).Sound source start.position.offset :=
        ⟨List.cons_ne_nil _ _, Diagnostic.soundAll_failure here rfl sound⟩
      split
      · exact .throw (unit trivial)
      · exact .pure
      · exact .pure
      · refine .attempt (locates opened _) (fun stmt => ?_) fun rejection sound => ?_
        · exact .bind (induction _ _) fun _ => .pure
        · exact .bind (.moveTo here) fun _ => .throw (unit sound.nodes)

theorem statements_locate (deeper : nested.Locates source) (inner : body.Locates source)
    (lifetime : Lifetime) (scope : Scope) :
    Locates source (statements nested body lifetime scope) :=
  fun low => .bind .remaining fun _ =>
    statementsLoop_locates (statement_locates inner deeper lifetime scope) _ _ _ low

theorem bodyWithin_locates (levels : Nat) : (bodyWithin levels).Locates source := by
  induction levels with
  | zero => exact fun _ _ => .tooDeep
  | succ levels induction =>
      exact fun lifetime scope =>
        statements_locate (nestedWithin_locates levels) induction lifetime scope

theorem program_locates : Locates source program :=
  statements_locate (nestedWithin_locates maxNesting) (bodyWithin_locates maxNesting) .static .root

end Grammar

namespace Compilation

/-- What is left of a refused source. -/
structure Refuses (source : String) (c : Compilation) : Prop where
  position : c.diagnostic.position = .start
  cause : c.diagnostic.cause = .error
  told : c.diagnostic.children ≠ []
  below : ∀ child ∈ c.diagnostic.children, child.Sound (Text.Utf8.encode source.toList) 0
  nothing : c.unit.code = [] ∧ c.unit.table = []
  /-- Lines and columns of reports count from one. -/
  reported : ∀ file, ∃ p : Position, p.Marks (Text.Utf8.encode source.toList) ∧
    (c.diagnostic.report file source).position =
      { line := p.line + 1, column := p.column + 1, offset := p.offset }

/-- What the tree of a compilation says about its source. -/
def Explains (source : String) : Compilation → Prop
  | .success unit => (success unit).diagnostic.children = []
  | .failure d => (failure d).Refuses source

theorem refuses_of_sound {source : String} {nodes : List Diagnostic} (told : nodes ≠ [])
    (sound : Diagnostic.SoundAll (Text.Utf8.encode source.toList) 0 nodes) :
    (failure (.failure .start .error nodes)).Refuses source where
  position := rfl
  cause := rfl
  told := told
  below := Diagnostic.soundAll_iff.mp sound
  nothing := ⟨rfl, rfl⟩
  reported := by
    intro file
    have deepest : (Diagnostic.failure .start .error nodes).deepest =
        Diagnostic.deepestOf (.failure .start .error nodes) nodes := by
      rw [Diagnostic.failure, Diagnostic.deepest]
    refine ⟨_, (sound.deepest told (.failure .start .error nodes)).furthest, ?_⟩
    rw [← deepest]
    rfl

theorem compile_explains (source : String) : (compile source).Explains source := by
  have done := Grammar.program_locates 0
    { cursor := .ofSource source, registry := initialRegistry } (Cursor.stands_ofSource source)
  simp only [compile]
  split
  · exact rfl
  · rename_i rejection s failed
    rw [failed] at done
    exact refuses_of_sound done.2.told done.2.nodes

end Compilation

end StackScript
