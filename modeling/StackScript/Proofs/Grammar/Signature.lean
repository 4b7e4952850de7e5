import StackScript.Proofs.Grammar.Assignment

namespace StackScript

/-! Functions with parameters of any types and an empty body, in front of the rules. -/

namespace Source

open Grammar

/-- A word that may be declared. -/
structure Name where
  word : List Char
  shape : isName word = true
  free : ¬ IsReserved word

def Name.text (name : Name) : String :=
  String.ofList name.word

structure Parameter where
  name : Name
  ty : Ty
  written : List Char
  spells : TypeText ty written

def Parameter.source (param : Parameter) : List Char :=
  param.written ++ ' ' :: param.name.word

def parametersSource (params : List Parameter) : List Char :=
  List.intercalate [',', ' '] (params.map Parameter.source)

theorem parametersSource_singleton (param : Parameter) :
    parametersSource [param] = param.source :=
  List.intercalate_singleton

theorem parametersSource_cons_cons (first second : Parameter) (others : List Parameter) :
    parametersSource (first :: second :: others) =
      first.source ++ ',' :: ' ' :: parametersSource (second :: others) := by
  simp [parametersSource, List.intercalate_cons_cons]

/-- The type of the first parameter comes first. -/
theorem exists_parametersSource (first : Parameter) (others : List Parameter) :
    ∃ more, parametersSource (first :: others) = first.written ++ more := by
  cases others with
  | nil => exact ⟨_, parametersSource_singleton first⟩
  | cons second others =>
      rw [parametersSource_cons_cons, Parameter.source, List.append_assoc]
      exact ⟨_, rfl⟩

theorem length_le_parametersSource (params : List Parameter) :
    params.length ≤ (parametersSource params).length := by
  induction params with
  | nil => exact Nat.le_refl _
  | cons first others induction =>
      cases others with
      | nil =>
          simp only [parametersSource_singleton, Parameter.source, List.length_append,
            List.length_cons, List.length_nil]
          omega
      | cons second others =>
          rw [parametersSource_cons_cons]
          simp only [List.length_append, List.length_cons] at induction ⊢
          omega

/-- The head of a function. Without parameters the parentheses may be left out. -/
structure Signature where
  name : Name
  listed : Option (List Parameter)
  ty : Ty
  written : List Char
  spells : TypeText ty written

namespace Signature

variable (signature : Signature)

def params : List Parameter :=
  signature.listed.getD []

def listSource : List Char :=
  match signature.listed with
  | none => []
  | some params => '(' :: (parametersSource params ++ [')'])

def source : List Char :=
  "function".toList ++ ' ' :: (signature.name.word ++ (signature.listSource ++
    ' ' :: ("of".toList ++ ' ' :: (signature.written ++ [' ', '\x7b', ' ', '\x7d']))))

/-- The scope of the parameters. -/
def inside : Scope :=
  Scope.root.child signature.name.text

end Signature

end Source

namespace Registry

/-- The registry with symbols added one after the other. -/
def pushAll (r : Registry) (symbols : List Symbol) : Registry :=
  symbols.foldl push r

theorem symbols_pushAll (r : Registry) (symbols : List Symbol) :
    (r.pushAll symbols).symbols = r.symbols ++ symbols := by
  induction symbols generalizing r with
  | nil => exact (List.append_nil _).symm
  | cons s symbols induction => rw [pushAll, List.foldl_cons, ← pushAll, induction]; simp [push]

theorem get?_pushAll (r : Registry) (symbols : List Symbol) (i : Nat) :
    (r.pushAll symbols).get? (r.size + i) = symbols[i]? := by
  rw [get?, symbols_pushAll, size, List.getElem?_append_right (Nat.le_add_right _ _),
    Nat.add_sub_cancel_left]

theorem size_push (r : Registry) (s : Symbol) : (r.push s).size = r.size + 1 :=
  List.length_append

end Registry

namespace Grammar

open Source

variable {r : Registry} {rest gap : List Char} {scope : Scope} {fuel : Nat}

/-- What a parameter is declared as. -/
def DeclaredAs (scope : Scope) (param : Parameter) (symbol : Symbol) : Prop :=
  ∃ place, symbol = variableSymbol .dynamic scope param.name.text param.ty place

theorem name_gives (name : Name) {lookup : Lookup} (blank : Blank gap)
    (ends : Cursor.isTerminal rest = true) :
    Gives Rejection.IsDeep r (identifier scope lookup) (gap ++ (name.word ++ rest)) rest
      (name.text, r.find? name.text scope lookup) True := by
  have ahead : (gap ++ (name.word ++ rest)).dropWhile Cursor.isSpace = name.word ++ rest := by
    rw [blank.dropWhile_append, (name_plain name.shape rest).1]
  exact identifier_gives ahead name.shape (Bool.eq_false_iff.mpr name.free) ends

theorem name_gives_new (name : Name) (blank : Blank gap) (ends : Cursor.isTerminal rest = true)
    (new : (scope, name.text) ∉ r.declarations) :
    Gives Rejection.IsDeep r (identifier scope .exact) (gap ++ (name.word ++ rest)) rest
      (name.text, none) True := by
  rw [← Registry.find?_exact_eq_none_iff.mpr new]
  exact name_gives name blank ends

theorem parameter_adds (param : Parameter) (blank : Blank gap)
    (ends : Cursor.isTerminal rest = true) (new : (scope, param.name.text) ∉ r.declarations)
    (fail : Rejection → ParseState → Prop) :
    Meets (At r (gap ++ (param.source ++ rest))) (variableDeclaration .dynamic scope)
      (fun declared state => declared = (r.size, param.ty) ∧
        ∃ symbol, DeclaredAs scope param symbol ∧ At (r.push symbol) rest state) fail := by
  have typed : Gives Rejection.IsDeep r typeName (gap ++ (param.source ++ rest))
      (' ' :: (param.name.word ++ rest)) param.ty True := by
    rw [Parameter.source, List.append_assoc, List.cons_append, ← List.append_assoc]
    exact typeName_reads (param.spells.behind_blank blank) rfl
  refine (variableDeclaration_adds typed (name_gives param.name blank_space ends)
    (Registry.find?_exact_eq_none_iff.mpr new) fail).mono (fun _ start => start) ?_
    fun _ _ fault => fault
  rintro declared state ⟨same, place, behind⟩
  exact ⟨same, _, ⟨place, rfl⟩, behind⟩

theorem not_mem_declarations_push {param : Parameter} {symbol : Symbol}
    (declared : DeclaredAs scope param symbol) {name : String} (other : param.name.text ≠ name)
    (new : (scope, name) ∉ r.declarations) : (scope, name) ∉ (r.push symbol).declarations := by
  obtain ⟨place, rfl⟩ := declared
  rw [Registry.declarations_append rfl, List.mem_append, not_or]
  refine ⟨new, fun here => other ?_⟩
  exact (Prod.mk.inj (List.mem_singleton.mp here)).2.symm

/-- What the parameters declare, and what is known of them: their numbers and types. -/
structure AddsParameters (r : Registry) (scope : Scope) (params : List Parameter)
    (rest : List Char) (declared : List (Nat × Ty)) (state : ParseState) : Prop where
  numbers : declared.map Prod.fst = List.range' r.size params.length
  types : declared.map Prod.snd = params.map Parameter.ty
  symbols : ∃ symbols, List.Forall₂ (DeclaredAs scope) params symbols ∧
    At (r.pushAll symbols) rest state

theorem AddsParameters.cons {first : Parameter} {others : List Parameter} {symbol : Symbol}
    {declared : List (Nat × Ty)} {state : ParseState} (added : DeclaredAs scope first symbol)
    (reads : AddsParameters (r.push symbol) scope others rest declared state) :
    AddsParameters r scope (first :: others) rest ((r.size, first.ty) :: declared) state := by
  obtain ⟨numbers, types, symbols, matched, behind⟩ := reads
  refine ⟨?_, ?_, symbol :: symbols, .cons added matched, behind⟩
  · rw [List.map_cons, numbers, Registry.size_push, List.length_cons, List.range'_succ]
  · rw [List.map_cons, types, List.map_cons]

theorem parametersLoop_adds {params : List Parameter} (nonempty : params ≠ [])
    (distinct : (params.map fun param => param.name.text).Nodup)
    (new : ∀ param ∈ params, (scope, param.name.text) ∉ r.declarations) (blank : Blank gap)
    (enough : params.length ≤ fuel) (fail : Failure → ParseState → Prop) :
    Meets (At r (gap ++ (parametersSource params ++ ')' :: rest))) (parametersLoop scope fuel)
      (AddsParameters r scope params (')' :: rest)) fail := by
  induction params generalizing r gap fuel with
  | nil => contradiction
  | cons first others induction =>
      obtain ⟨fuel, rfl⟩ := Nat.exists_eq_succ_of_ne_zero (Nat.ne_zero_of_lt enough)
      have here := new first List.mem_cons_self
      cases others with
      | nil =>
          rw [parametersSource_singleton]
          refine .known (orFail_certain (parameter_adds first blank rfl here _) _) ?_
          rintro state ⟨symbol, added, behind⟩
          refine Meets.known (acceptSymbol_misses blank_nil rfl (by decide) fail) ?_ state behind
          exact .pure fun _ done => .cons added ⟨rfl, rfl, [], .nil, done⟩
      | cons second others =>
          rw [parametersSource_cons_cons, List.append_assoc, List.cons_append, List.cons_append]
          refine .known (orFail_certain (parameter_adds first blank rfl here _) _) ?_
          rintro state ⟨symbol, added, behind⟩
          refine Meets.known (acceptSymbol_takes blank_nil rfl fail) ?_ state behind
          obtain ⟨notHere, distinct⟩ := List.nodup_cons.mp distinct
          have newer : ∀ param ∈ second :: others,
              (scope, param.name.text) ∉ (r.push symbol).declarations := by
            intro param member
            refine not_mem_declarations_push added (fun same => notHere ?_)
              (new param (List.mem_cons_of_mem _ member))
            exact List.mem_map.mpr ⟨param, member, same.symm⟩
          refine .bind (induction (List.cons_ne_nil _ _) distinct newer blank_space
            (Nat.le_of_succ_le_succ enough)) fun declared => ?_
          exact .pure fun _ reads => .cons added reads

theorem parameters_adds {params : List Parameter} (nonempty : params ≠ [])
    (distinct : (params.map fun param => param.name.text).Nodup)
    (new : ∀ param ∈ params, (scope, param.name.text) ∉ r.declarations)
    (fail : Rejection → ParseState → Prop) :
    Meets (At r (parametersSource params ++ ')' :: rest)) (parameters scope)
      (AddsParameters r scope params (')' :: rest)) fail := by
  have short := length_le_parametersSource params
  have enough : params.length ≤ (parametersSource params ++ ')' :: rest).length + 1 := by
    rw [List.length_append]
    omega
  refine close_certain (after_remaining ?_) fail
  exact parametersLoop_adds nonempty distinct new blank_nil enough _

/-- A type does not start with a parenthesis. -/
theorem acceptSymbol_misses_parameters (first : Parameter) (others : List Parameter)
    (fail : Failure → ParseState → Prop) :
    Meets (At r (parametersSource (first :: others) ++ rest)) (acceptSymbol ')' : Body Bool)
      (fun b s => b = false ∧ At r (parametersSource (first :: others) ++ rest) s) fail := by
  obtain ⟨more, source⟩ := exists_parametersSource first others
  obtain ⟨c, _, ahead, letter⟩ := first.spells.exists_first (more ++ rest)
  refine accept_misses (symbol?_misses ?_)
  rw [source, List.append_assoc, ahead, List.head?_cons]
  intro same
  cases same
  cases letter

theorem parameterList_adds (signature : Signature)
    (distinct : (signature.params.map fun param => param.name.text).Nodup)
    (new : ∀ param ∈ signature.params, (scope, param.name.text) ∉ r.declarations)
    (fail : Failure → ParseState → Prop) :
    Meets (At r (signature.listSource ++ ' ' :: 'o' :: rest)) (parameterList scope)
      (AddsParameters r scope signature.params (' ' :: 'o' :: rest)) fail := by
  obtain ⟨name, listed, ty, written, spells⟩ := signature
  cases listed with
  | none =>
      refine .known (acceptSymbol_misses blank_space rfl (by decide) fail) ?_
      exact .pure fun _ done => ⟨rfl, rfl, [], .nil, done⟩
  | some params =>
      simp only [Signature.listSource, List.cons_append, List.append_assoc, List.nil_append]
      refine .known (acceptSymbol_takes blank_nil rfl fail) ?_
      cases params with
      | nil =>
          refine .known (acceptSymbol_takes blank_nil rfl fail) ?_
          exact .pure fun _ done => ⟨rfl, rfl, [], .nil, done⟩
      | cons first others =>
          refine .known (acceptSymbol_misses_parameters first others fail) ?_
          refine .bind (orFail_certain (parameters_adds (List.cons_ne_nil _ _) distinct new _) fail)
            fun declared => ?_
          rintro state ⟨numbers, types, symbols, matched, behind⟩
          refine Meets.known (acceptSymbol_takes blank_nil rfl fail) ?_ state behind
          exact .pure fun _ done => ⟨numbers, types, symbols, matched, done⟩

/-! Empty bodies. -/

theorem statements_gives_none {nested : Nested} {body : BlockBody} {lifetime : Lifetime}
    (inner : scope.isRoot = false) (blank : Blank gap) :
    Gives Rejection.IsDeep r (statements nested body lifetime scope) (gap ++ '\x7d' :: rest)
      ('\x7d' :: rest) [] True := by
  refine after_remaining ?_
  rw [inner]
  unfold statementsLoop
  refine Gives.after_skip (blank.ahead rfl rest) (.after_cursor fun c ahead => ?_)
  rw [Cursor.peek?, ahead]
  exact .pure

theorem block_gives_none {levels : Nat} {lifetime : Lifetime} {gap' : List Char}
    (inner : scope.isRoot = false) (blank : Blank gap) (blank' : Blank gap') :
    Gives Rejection.IsDeep r (block (bodyWithin (levels + 1)) lifetime scope)
      (gap ++ '\x7b' :: (gap' ++ '\x7d' :: rest)) rest [] True := by
  refine .close (.after (acceptSymbol_takes blank rfl) ?_)
  refine .after (fun _ => (statements_gives_none inner blank').orFail.certain _) ?_
  exact .after (acceptSymbol_takes blank_nil rfl) .pure

/-! Functions. -/

/-- The symbol of a function. -/
def functionSymbol (signature : Signature) (place : Position) : Symbol :=
  { Symbol.declare .fn .root signature.name.text signature.ty with
    params := signature.params.map Parameter.ty
    declaredAt := place }

/-- Parameters in front of the function. -/
def AddsFunction (r : Registry) (signature : Signature) (state : ParseState) : Prop :=
  ∃ symbols place, List.Forall₂ (DeclaredAs signature.inside) signature.params symbols ∧
    At ((r.pushAll symbols).push (functionSymbol signature place)) [] state

def functionStatement (r : Registry) (signature : Signature) : Stmt :=
  .function signature.inside (r.size + signature.params.length)
    (List.range' r.size signature.params.length) []

theorem isTerminal_listSource (signature : Signature) :
    Cursor.isTerminal (signature.listSource ++ ' ' :: rest) = true := by
  unfold Signature.listSource
  split <;> rfl

theorem size_pushAll {signature : Signature} {symbols : List Symbol}
    (matched : List.Forall₂ (DeclaredAs scope) signature.params symbols) :
    (r.pushAll symbols).size = r.size + signature.params.length := by
  rw [Registry.size, Registry.symbols_pushAll, List.length_append, ← matched.length_eq]
  rfl

theorem scope_of_declaredAs {params : List Parameter} {symbols : List Symbol}
    (matched : List.Forall₂ (DeclaredAs scope) params symbols) :
    ∀ symbol ∈ symbols, symbol.scope = scope := by
  induction matched with
  | nil => exact List.forall_mem_nil _
  | cons declared _ induction =>
      obtain ⟨place, rfl⟩ := declared
      exact List.forall_mem_cons.mpr ⟨rfl, induction⟩

/-- The function itself is declared outside of the scope of its parameters. -/
theorem not_mem_declarations_pushAll {signature : Signature} {symbols : List Symbol}
    (fresh : (Scope.root, signature.name.text) ∉ r.declarations)
    (matched : List.Forall₂ (DeclaredAs signature.inside) signature.params symbols) :
    (Scope.root, signature.name.text) ∉ (r.pushAll symbols).declarations := by
  rw [Registry.declarations, Registry.symbols_pushAll, List.map_append, List.mem_append, not_or]
  refine ⟨fresh, fun here => ?_⟩
  obtain ⟨symbol, member, same⟩ := List.mem_map.mp here
  have within := scope_of_declaredAs matched symbol member
  rw [(Prod.mk.inj same).1] at within
  cases within

theorem functionDefinition_adds {levels : Nat} (signature : Signature)
    (distinct : (signature.params.map fun param => param.name.text).Nodup)
    (fresh : (Scope.root, signature.name.text) ∉ r.declarations)
    (new : ∀ param ∈ signature.params, (signature.inside, param.name.text) ∉ r.declarations)
    (fail : Rejection → ParseState → Prop) :
    Meets (At r signature.source) (functionDefinition (bodyWithin (levels + 1)) .root)
      (fun stmt state => stmt = functionStatement r signature ∧ AddsFunction r signature state)
      fail := by
  refine close_certain (after_cursor fun start _ => ?_) fail
  have keyword : Spelled "function".toList "function".toList := .behind blank_nil rfl
  have preposition : Spelled "of".toList [' ', 'o', 'f'] := .behind blank_space rfl
  refine .known (acceptKeyword_takes keyword rfl rfl _) ?_
  refine .known ((name_gives_new signature.name blank_space (isTerminal_listSource signature)
    fresh).orFail.certain _) ?_
  refine .bind (parameterList_adds signature distinct new _) fun declared => ?_
  rintro state ⟨numbers, types, symbols, matched, behind⟩
  refine Meets.known (acceptKeyword_takes preposition rfl rfl _) ?_ state behind
  have typed := signature.spells.behind_blank blank_space
  refine .known ((typeName_reads typed rfl).orFail.certain _) ?_
  refine .known (declare?_at (Registry.find?_exact_eq_none_iff.mpr
    (not_mem_declarations_pushAll fresh matched))) ?_
  refine .known ((block_gives_none rfl blank_space blank_space).orFail.certain _) ?_
  refine .pure fun state behind => ⟨?_, symbols, start.position, matched, ?_⟩
  · rw [functionStatement, numbers, size_pushAll matched]
    rfl
  · rw [functionSymbol, ← types]
    exact behind

/-! The alternatives in front of it. -/

theorem keyword?_misses_function {word : List Char} (short : word.length ≤ 8)
    (other : ("function".toList.take word.length).map Char.toLower ≠ word) (rest : List Char) :
    Misses (Cursor.keyword? word) ("function".toList ++ ' ' :: rest) := by
  refine keyword?_misses_of_ne ?_
  rw [show ("function".toList ++ ' ' :: rest).dropWhile Cursor.isSpace =
    "function".toList ++ ' ' :: rest from rfl, List.take_append_of_le_length short]
  exact other

theorem typeName_passes_function (rest : List Char) :
    Passes r typeName ("function".toList ++ ' ' :: rest) := by
  refine after_remaining (Passes.close (Meets.known (acceptOne_misses (firstOf?_misses ?_)) ?_))
  · intro entry member
    obtain ⟨s, rfl⟩ := mem_scalarWords.mp member
    exact keyword?_misses_function (by cases s <;> decide) (by cases s <;> decide) rest
  · have noArray : Misses (Cursor.keyword? "array".toList) ("function".toList ++ ' ' :: rest) :=
      keyword?_misses_function (by decide) (by decide) rest
    exact Meets.known (accept_misses noArray) Declines.pass

theorem variableDeclaration_passes {text : List Char} {lifetime : Lifetime}
    (passes : Passes r typeName text) : Passes r (variableDeclaration lifetime scope) text :=
  .close (.after_cursor fun _ _ => .bind passes.orPass)

theorem blockStatement_passes {text : List Char} {body : BlockBody} {lifetime : Lifetime}
    (other : (text.dropWhile Cursor.isSpace).head? ≠ some '\x7b') :
    Passes r (blockStatement body lifetime scope) text := by
  have passes : Passes r (block body lifetime scope) text :=
    .close (Meets.known (accept_misses (symbol?_misses other)) Declines.pass)
  exact Meets.bind passes fun _ => .absurd fun _ impossible => impossible

theorem statement_adds_function {nested : Nested} {levels opened : Nat} (signature : Signature)
    (distinct : (signature.params.map fun param => param.name.text).Nodup)
    (fresh : (Scope.root, signature.name.text) ∉ r.declarations)
    (new : ∀ param ∈ signature.params, (signature.inside, param.name.text) ∉ r.declarations) :
    Meets (At r signature.source)
      (statement nested (bodyWithin (levels + 1)) .static .root opened)
      (fun stmt state => stmt = functionStatement r signature ∧ AddsFunction r signature state)
      fun _ _ => False := by
  have plain : signature.source.dropWhile Cursor.isSpace = "function".toList ++ ' ' :: _ := rfl
  apply or_certain_right (assignment_passes (target_passes plain rfl (by decide)))
  apply or_certain_right (.map (variableDeclaration_passes (typeName_passes_function _)))
  have noBrace : (signature.source.dropWhile Cursor.isSpace).head? ≠ some '\x7b' := by
    rw [plain]
    exact fun same => absurd (Option.some.inj same) (by decide)
  apply or_certain_right (blockStatement_passes noBrace)
  exact functionDefinition_adds signature distinct fresh new _

end Grammar

end StackScript
