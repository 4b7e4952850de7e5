import StackScript.Proofs.Grammar.Expression

namespace StackScript.Grammar

/-! Statements that are read have the types that their code needs, and declare all symbols that are
added meanwhile. A rule that does not match declares nothing. -/

variable {ε α β : Type} {r : Registry}

/-- A rule may add symbols to the registry. -/
def Declares (r : Registry) (rule : EStateM ε ParseState α) (result : Registry → α → Prop)
    (fails : ε → ParseState → Prop) : Prop :=
  Meets (Reads r) rule (fun a s => ∃ r', r.Extends r' ∧ result r' a ∧ Reads r' s) fails

/-- A failure that leaves room for other rules. -/
def Failure.Leaves (r : Registry) (failure : Failure) (s : ParseState) : Prop :=
  failure.signal = .unmatched → Reads r s

def Rejection.Leaves (r : Registry) (rejection : Rejection) (s : ParseState) : Prop :=
  rejection.signal = .unmatched → Reads r s

/-- A rule that has to match leaves no room for others. -/
theorem Looks.orFail {base : Registry} {rule : Rule α} {cause : Cause} {kind : α → Prop}
    (parses : Parses r rule kind) : Looks r (rule.orFail cause) kind (Failure.Leaves base) := by
  intro s start
  have done := parses s start
  simp only [Rule.orFail]
  cases run : rule s with
  | ok a s' =>
      rw [run] at done
      exact done
  | error e s' =>
      intro broken
      cases broken

theorem Looks.orPass {rule : Rule α} {cause : Cause} {kind : α → Prop}
    (parses : Parses r rule kind) : Looks r (rule.orPass cause) kind (Failure.Leaves r) :=
  Meets.mono parses.orPass (fun _ start => start) (fun _ _ done => done)
    (fun _ _ reads _ => reads)

namespace Declares

variable {result : Registry → α → Prop} {last : Registry → β → Prop}
variable {fails : ε → ParseState → Prop}

theorem ofParses {rule : EStateM ε ParseState α} {kind : α → Prop}
    (parses : Parses r rule kind) (holds : ∀ a, kind a → result r a)
    (allowed : ∀ e s, Reads r s → fails e s) : Declares r rule result fails :=
  Meets.mono parses (fun _ start => start)
    (fun a _ done => ⟨r, .refl r, holds a done.1, done.2⟩) allowed

theorem pure {a : α} (holds : result r a) :
    Declares r (Pure.pure a : EStateM ε ParseState α) result fails :=
  Meets.pure fun _ start => ⟨r, .refl r, holds, start⟩

theorem bind {rule : EStateM ε ParseState α} {next : α → EStateM ε ParseState β}
    (first : Declares r rule result fails)
    (second : ∀ a r', r.Extends r' → result r' a → Declares r' (next a) last fails) :
    Declares r (rule >>= next) last fails := by
  refine Meets.bind first fun a s start => ?_
  obtain ⟨r', grown, holds, reads⟩ := start
  have done := second a r' grown holds s reads
  cases run : next a s with
  | ok b s' =>
      rw [run] at done
      obtain ⟨r'', grown', holds', reads'⟩ := done
      exact ⟨r'', grown.trans grown', holds', reads'⟩
  | error e s' =>
      rw [run] at done
      exact done

theorem look {rule : EStateM ε ParseState α} {next : α → EStateM ε ParseState β}
    {kind : α → Prop} (first : Looks r rule kind fails)
    (second : ∀ a, kind a → Declares r (next a) last fails) :
    Declares r (rule >>= next) last fails :=
  Meets.bind first fun a => Meets.of_start (fun _ start => start.1) fun holds =>
    Meets.mono (second a holds) (fun _ start => start.2) (fun _ _ done => done)
      (fun _ _ fault => fault)

theorem ite {p : Prop} [Decidable p] {yes no : EStateM ε ParseState α}
    (whenTrue : p → Declares r yes result fails) (whenFalse : ¬ p → Declares r no result fails) :
    Declares r (if p then yes else no) result fails := by
  by_cases holds : p
  · rw [if_pos holds]
    exact whenTrue holds
  · rw [if_neg holds]
    exact whenFalse holds

theorem attempt {rule : Rule α} {next : Except Rejection α → EStateM ε ParseState β}
    {inner : Rejection → ParseState → Prop} (declares : Declares r rule result inner)
    (failed : ∀ e, Meets (fun _ => True) (next (.error e)) (fun _ _ => False) fails)
    (matched : ∀ a r', r.Extends r' → result r' a → Declares r' (next (.ok a)) last fails) :
    Declares r (rule.attempt >>= next) last fails := by
  refine Meets.through
    (fun outcome s => ∀ a, outcome = .ok a → ∃ r', r.Extends r' ∧ result r' a ∧ Reads r' s)
    ?_ fun outcome => ?_
  · intro s start
    have done := declares s start
    simp only [Rule.attempt]
    cases run : rule s with
    | ok a s' =>
        rw [run] at done
        exact fun b equal => Except.ok.inj equal ▸ done
    | error e s' =>
        intro a impossible
        cases impossible
  · cases outcome with
    | error e =>
        exact (failed e).mono (fun _ _ => trivial) (fun _ _ impossible => impossible.elim)
          (fun _ _ fault => fault)
    | ok a =>
        intro s start
        obtain ⟨r', grown, holds, reads⟩ := start a rfl
        have done := matched a r' grown holds s reads
        cases run : next (.ok a) s with
        | ok b s' =>
            rw [run] at done
            obtain ⟨r'', grown', holds', reads'⟩ := done
            exact ⟨r'', grown.trans grown', holds', reads'⟩
        | error e s' =>
            rw [run] at done
            exact done

theorem declare? (symbol : Symbol) :
    Declares r (Grammar.declare? symbol : EStateM ε ParseState (Option Nat))
      (fun r' found => found.isSome → found = some r.size ∧ r'.symbols = r.symbols ++ [symbol])
      fails := by
  intro s start
  simp only [Grammar.declare?, Registry.add, start.registry_eq]
  cases r.find? symbol.name symbol.scope .exact with
  | some existing => exact ⟨r, .refl r, nofun, start⟩
  | none =>
      exact ⟨r.push symbol, List.prefix_append r.symbols [symbol], fun _ => ⟨rfl, rfl⟩, rfl,
        start.clean⟩

section Body

variable {base : Registry}

theorem fail {cause : Cause} {children : List Diagnostic} :
    Declares r (Body.fail cause children : Body α) result (Failure.Leaves base) :=
  Meets.throw fun _ _ broken => nomatch broken

theorem pass {cause : Cause} {children : List Diagnostic} :
    Declares r (Body.pass cause children : Body α) result (Failure.Leaves r) :=
  Meets.throw fun _ start _ => start

theorem orFail {rule : Rule α} {cause : Cause} {inner : Rejection → ParseState → Prop}
    (declares : Declares r rule result inner) :
    Declares r (rule.orFail cause) result (Failure.Leaves base) := by
  intro s start
  have done := declares s start
  simp only [Rule.orFail]
  cases run : rule s with
  | ok a s' =>
      rw [run] at done
      exact done
  | error e s' =>
      intro broken
      cases broken

theorem close {body : Body α} (declares : Declares r body result (Failure.Leaves r)) :
    Declares r body.close result (Rejection.Leaves r) := by
  intro s start
  have done := declares s start
  simp only [Body.close]
  cases run : body s with
  | ok a s' =>
      rw [run] at done
      exact done
  | error failure s' =>
      rw [run] at done
      exact fun unmatched => ⟨(done unmatched).registry_eq, start.clean⟩

theorem or {first second : Rule α} (left : Declares r first result (Rejection.Leaves r))
    (right : Declares r second result (Rejection.Leaves r)) :
    Declares r (first.or second) result (Rejection.Leaves r) := by
  intro s start
  have done := left s start
  simp only [Rule.or]
  cases run : first s with
  | ok a s' =>
      rw [run] at done
      exact done
  | error e s' =>
      rw [run] at done
      obtain ⟨signal, nodes⟩ := e
      cases signal with
      | broken =>
          intro unmatched
          cases unmatched
      | unmatched =>
          have next := right s' (done rfl)
          simp only
          cases run' : second s' <;> rw [run'] at next <;> exact next

end Body

end Declares

/-! What is added to a registry. -/

/-- A symbol was added behind all others. -/
structure Adds (r r' : Registry) (index : Nat) (s : Symbol) : Prop where
  index_eq : index = r.size
  symbols_eq : r'.symbols = r.symbols ++ [s]

theorem Adds.get? {r r' : Registry} {index : Nat} {s : Symbol} (adds : Adds r r' index s) :
    r'.get? index = some s := by
  rw [Registry.get?, adds.symbols_eq, adds.index_eq, Registry.size, List.getElem?_concat_length]

/-- The symbols that one registry has and the other has not are these, each of them once. -/
structure Between (r r' : Registry) (indexes : List Nat) : Prop where
  size_le : r.size ≤ r'.size
  perm : indexes.Perm (List.range' r.size (r'.size - r.size))

theorem Adds.between {r r' : Registry} {index : Nat} {s : Symbol} (adds : Adds r r' index s) :
    Between r r' [index] := by
  have grown : r'.size = r.size + 1 := by
    rw [Registry.size, adds.symbols_eq, List.length_append, List.length_singleton, Registry.size]
  refine ⟨by omega, ?_⟩
  rw [grown, Nat.add_sub_cancel_left, List.range'_one, adds.index_eq]

theorem Between.same (r : Registry) : Between r r [] :=
  ⟨Nat.le_refl _, by rw [Nat.sub_self, List.range'_zero]⟩

theorem Between.append {r r' r'' : Registry} {front back : List Nat}
    (first : Between r r' front) (second : Between r' r'' back) :
    Between r r'' (front ++ back) := by
  have le := first.size_le
  have le' := second.size_le
  refine ⟨Nat.le_trans le le', (first.perm.append second.perm).trans ?_⟩
  have joined := List.range'_append_1 (s := r.size) (m := r'.size - r.size)
    (n := r''.size - r'.size)
  rw [Nat.add_sub_cancel' le] at joined
  rw [joined, Nat.add_comm, Nat.sub_add_sub_cancel le' le]

theorem Between.reorder {r r' : Registry} {indexes indexes' : List Nat}
    (between : Between r r' indexes) (perm : indexes'.Perm indexes) : Between r r' indexes' :=
  ⟨between.size_le, perm.trans between.perm⟩

theorem Between.mem_iff {r r' : Registry} {indexes : List Nat} (between : Between r r' indexes)
    {index : Nat} : index ∈ indexes ↔ r.size ≤ index ∧ index < r'.size := by
  rw [between.perm.mem_iff, List.mem_range'_1, Nat.add_sub_cancel' between.size_le]

theorem mem_declaredIn_iff {index : Nat} {scope : Scope} :
    index ∈ r.declaredIn scope ↔
      ∃ s, r.get? index = some s ∧ s.kind.isVariable = true ∧ s.scope = scope := by
  have kinds : ∀ kind : Symbol.Kind,
      (kind = .var ∨ kind = .dynamicVar) ↔ kind.isVariable = true := by
    intro kind
    cases kind <;> simp [Symbol.Kind.isVariable]
  simp only [Registry.declaredIn, List.mem_map, List.mem_filter, List.mem_mapIdx,
    Bool.and_eq_true, Bool.or_eq_true, decide_eq_true_eq, kinds, Registry.get?]
  constructor
  · rintro ⟨⟨i, s⟩, ⟨⟨j, inside, equal⟩, isVariable, same⟩, rfl⟩
    cases equal
    exact ⟨_, List.getElem?_eq_getElem inside, isVariable, same⟩
  · rintro ⟨s, found, isVariable, same⟩
    obtain ⟨inside, rfl⟩ := List.getElem?_eq_some_iff.mp found
    exact ⟨(index, _), ⟨⟨index, inside, rfl⟩, isVariable, same⟩, rfl⟩

theorem direct_subset {scope : Scope} {stmts : List Stmt} (typed : Stmt.TypedAll r scope stmts) :
    Stmt.direct stmts ⊆ r.declaredIn scope := by
  induction stmts with
  | nil => exact List.nil_subset _
  | cons stmt stmts induction =>
      obtain ⟨first, others⟩ := typed
      cases stmt with
      | declare symbol => exact List.cons_subset.mpr ⟨mem_declaredIn_iff.mpr first, induction others⟩
      | _ => exact induction others

/-- A statement that was read: typed, and with all new symbols declared in it. -/
structure ReadStmt (r : Registry) (scope : Scope) (r' : Registry) (stmt : Stmt) : Prop where
  typed : stmt.Typed r' scope
  between : Between r r' stmt.declares

structure ReadStmts (r : Registry) (scope : Scope) (r' : Registry) (stmts : List Stmt) :
    Prop where
  typed : Stmt.TypedAll r' scope stmts
  between : Between r r' (Stmt.declaresOf stmts)

section Levels

variable {nested : Nested} (deeper : ∀ r, nested.Sound r)

include deeper in
theorem assignment_declares (scope : Scope) :
    Declares r (assignment nested scope) (ReadStmt r scope) (Rejection.Leaves r) := by
  refine .ofParses ?_ (fun _ done => done) (fun _ _ reads _ => reads)
  refine .close (.bind (.orPass (target_parses (deeper r) scope)) fun place done => ?_)
  refine .seq (acceptFirst_looks (fun _ _ _ => Cursor.follows_operator?) _) fun found => ?_
  cases found with
  | none => exact .bind .cursor fun _ _ => .fail
  | some update =>
      refine .bind (.orFail ((deeper r).conditional scope)) fun value sound => ?_
      refine .ite (fun allowed => .pure ?_) fun _ => .fail
      exact ⟨⟨place.ty, value.ty, done.2, done.1, sound, allowed⟩, .same r⟩

def ReadVariable (r : Registry) (lifetime : Lifetime) (scope : Scope) (r' : Registry)
    (declared : Nat × Ty) : Prop :=
  ∃ s, Adds r r' declared.1 s ∧ s.kind.isVariable = true ∧
    (lifetime = .dynamic → s.kind = .dynamicVar) ∧ s.scope = scope ∧ s.ty = declared.2

theorem variableDeclaration_declares (lifetime : Lifetime) (scope : Scope) :
    Declares r (variableDeclaration lifetime scope) (ReadVariable r lifetime scope)
      (Rejection.Leaves r) := by
  refine .close (.look .cursor fun start _ => .look (.orPass typeName_parses) fun ty _ => ?_)
  refine .look (.orFail (identifier_parses scope .exact)) fun name _ => ?_
  refine .bind (.declare? _) fun found r' grown added => ?_
  cases found with
  | none => exact .fail
  | some index =>
      obtain ⟨same, symbols⟩ := added rfl
      obtain rfl := Option.some.inj same
      refine .pure ⟨_, ⟨rfl, symbols⟩, ?_, ?_, rfl, rfl⟩
      · cases lifetime <;> rfl
      · rintro rfl
        rfl

structure ReadParams (r r' : Registry) (params : List (Nat × Ty)) : Prop where
  typed : Stmt.ParamsTyped r' (params.map Prod.fst) (params.map Prod.snd)
  between : Between r r' (params.map Prod.fst)

theorem ReadParams.none (r : Registry) : ReadParams r r [] :=
  ⟨.nil, .same r⟩

theorem ReadParams.cons {r r' r'' : Registry} {scope : Scope} {first : Nat × Ty}
    {rest : List (Nat × Ty)} (read : ReadVariable r .dynamic scope r' first)
    (others : ReadParams r' r'' rest) (grown : r'.Extends r'') :
    ReadParams r r'' (first :: rest) := by
  obtain ⟨s, adds, -, dynamic, -, ty⟩ := read
  exact ⟨.cons ⟨s, grown.get? adds.get?, dynamic rfl, ty⟩ others.typed,
    adds.between.append others.between⟩

theorem parametersLoop_declares (scope : Scope) (fuel : Nat) (base : Registry) :
    Declares r (parametersLoop scope fuel) (ReadParams r) (Failure.Leaves base) := by
  induction fuel generalizing r with
  | zero => exact .fail
  | succ fuel induction =>
      refine .bind (.orFail (variableDeclaration_declares .dynamic scope))
        fun first r' grown read => .look (.acceptSymbol ',') fun more _ => .ite (fun _ => ?_) ?_
      · exact .bind induction fun rest r'' grown' others => .pure (.cons read others grown')
      · exact fun _ => .pure (.cons read (.none r') (.refl r'))

theorem parameterList_declares (scope : Scope) (base : Registry) :
    Declares r (parameterList scope) (ReadParams r) (Failure.Leaves base) := by
  refine .look (.acceptSymbol '(') fun _ _ => .ite (fun _ => ?_) fun _ => .pure (.none r)
  refine .look (.acceptSymbol ')') fun _ _ => .ite (fun _ => .pure (.none r)) fun _ => ?_
  have loop : Declares r (parameters scope) (ReadParams r) (Rejection.Leaves r) :=
    .close (.look .remaining fun _ _ => parametersLoop_declares scope _ r)
  refine .bind (.orFail loop) fun params r' grown read => ?_
  exact .look (.acceptSymbol ')') fun _ _ => .ite (fun _ => .pure read) fun _ => .fail

/-- The rule for the statements of a block, one level deeper. -/
def BlockBody.Sound (body : BlockBody) : Prop :=
  ∀ r lifetime scope, Declares r (body lifetime scope) (ReadStmts r scope) fun _ _ => True

section Body

variable {body : BlockBody} (inner : body.Sound)

include inner

theorem block_declares (lifetime : Lifetime) (scope : Scope) :
    Declares r (block body lifetime scope) (ReadStmts r scope) (Rejection.Leaves r) := by
  refine .close (.look (.acceptSymbol _) fun _ _ => .ite (fun _ => ?_) fun _ => .pass)
  refine .bind (.orFail (inner r lifetime scope)) fun stmts r' grown read => ?_
  exact .look (.acceptSymbol _) fun _ _ => .ite (fun _ => .pure read) fun _ => .fail

theorem blockStatement_declares (lifetime : Lifetime) (scope inside : Scope) :
    Declares r (blockStatement body lifetime inside) (ReadStmt r scope) (Rejection.Leaves r) := by
  refine .bind (block_declares inner lifetime inside) fun stmts r' grown read => ?_
  refine .look .registry fun registry same => .pure ?_
  subst same
  refine ⟨⟨fun cell member => ?_, direct_subset read.typed, read.typed⟩, read.between⟩
  obtain ⟨s, found, isVariable, -⟩ := mem_declaredIn_iff.mp member
  exact ⟨s, found, isVariable⟩

theorem functionDefinition_declares (scope : Scope) :
    Declares r (functionDefinition body scope) (ReadStmt r scope) (Rejection.Leaves r) := by
  refine .close (.look .cursor fun start _ => ?_)
  refine .look (.acceptKeyword _) fun _ _ => .ite (fun _ => ?_) fun _ => .pass
  refine .look (.orFail (identifier_parses scope .exact)) fun name _ => ?_
  refine .ite (fun _ => .fail) fun _ => ?_
  refine .bind (parameterList_declares _ r) fun params r₁ grown₁ arguments => ?_
  refine .look (.acceptKeyword _) fun _ _ => .ite (fun _ => ?_) fun _ => .fail
  refine .look (.orFail typeName_parses) fun ty _ => ?_
  refine .bind (.declare? _) fun found r₂ grown₂ added => ?_
  cases found with
  | none => exact .fail
  | some index =>
      obtain ⟨same, symbols⟩ := added rfl
      obtain rfl := Option.some.inj same
      have adds : Adds r₁ r₂ r₁.size _ := ⟨rfl, symbols⟩
      refine .bind (.orFail (block_declares inner .dynamic _)) fun stmts r₃ grown₃ read => ?_
      refine .pure ⟨⟨_, grown₃.get? adds.get?, rfl, ?_, read.typed⟩, ?_⟩
      · exact arguments.typed.extend (grown₂.trans grown₃)
      · exact (arguments.between.append (adds.between.append read.between)).reorder
          List.perm_middle.symm

end Body

include deeper in
theorem statement_declares {body : BlockBody} (inner : body.Sound) (lifetime : Lifetime)
    (scope : Scope) (opened : Nat) :
    Declares r (statement nested body lifetime scope opened) (ReadStmt r scope)
      (Rejection.Leaves r) := by
  refine .or (assignment_declares deeper scope) (.or ?_ (.or ?_ ?_))
  · rw [← bind_pure_comp]
    refine .bind (variableDeclaration_declares lifetime scope) fun declared r' grown read => ?_
    obtain ⟨s, adds, isVariable, -, inside, -⟩ := read
    exact .pure ⟨⟨s, adds.get?, isVariable, inside⟩, adds.between⟩
  · exact blockStatement_declares inner lifetime scope _
  · exact functionDefinition_declares inner scope

theorem statementsLoop_declares {next : Nat → Rule Stmt} {scope : Scope}
    (reads : ∀ r opened, Declares r (next opened) (ReadStmt r scope) (Rejection.Leaves r))
    (inBlock : Bool) (fuel opened : Nat) :
    Declares r (statementsLoop next inBlock fuel opened) (ReadStmts r scope)
      fun _ _ => True := by
  have empty : ∀ r, Declares r (pure [] : Rule (List Stmt)) (ReadStmts r scope) fun _ _ => True :=
    fun r => .pure ⟨trivial, .same r⟩
  induction fuel generalizing r opened with
  | zero => exact empty r
  | succ fuel induction =>
      refine .look .skipSpace fun _ _ => .look .cursor fun start _ => ?_
      split
      · exact Meets.throw fun _ _ => trivial
      · exact empty r
      · exact empty r
      · refine .attempt (reads r opened) (fun e s _ => trivial) fun stmt r' grown first => ?_
        refine .bind (induction _) fun rest r'' grown' others => .pure ?_
        exact ⟨⟨Stmt.Typed.extend grown' scope stmt first.typed, others.typed⟩,
          first.between.append others.between⟩

include deeper in
theorem statements_declares {body : BlockBody} (inner : body.Sound) (lifetime : Lifetime)
    (scope : Scope) :
    Declares r (statements nested body lifetime scope) (ReadStmts r scope) fun _ _ => True :=
  .look .remaining fun _ _ =>
    statementsLoop_declares (fun _ => statement_declares deeper inner lifetime scope) _ _ _

end Levels

theorem bodyWithin_sound (levels : Nat) : (bodyWithin levels).Sound := by
  induction levels with
  | zero => exact fun _ _ _ _ _ => trivial
  | succ levels induction =>
      exact fun _ => statements_declares (fun _ => nestedWithin_sound levels) induction

/-- A program that is read is typed, and declares all symbols of the registry beyond the first
ones. -/
theorem program_declares :
    Declares r program (ReadStmts r .root) fun _ _ => True :=
  statements_declares (fun _ => nestedWithin_sound maxNesting) (bodyWithin_sound maxNesting)
    .static .root

end StackScript.Grammar
