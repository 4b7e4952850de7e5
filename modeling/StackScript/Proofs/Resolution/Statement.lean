import StackScript.Proofs.Resolution.Expression
import StackScript.Proofs.Resolution.Growth

namespace StackScript

/-! The names in statements that are read. -/

open Grammar Source

namespace Source

variable {scope : Scope} {opened : Nat} {declared added : List Declaration}
variable {gap text after : List Char} {inline functions : List Occurrence}

theorem Naming.preceded {words : List String} {mid word before : List Char}
    (naming : Naming words mid word after) (heading : Heading before mid) :
    Naming words before word after := by
  obtain ⟨heading', keyword, blank, named⟩ := naming
  exact ⟨heading.trans heading', keyword, blank, named⟩

theorem Passage.preceded (passage : Passage scope opened declared text added inline functions after)
    (blank : Blank gap) :
    Passage scope opened declared (gap ++ text) added inline functions after := by
  have before {gap' : List Char} (blank' : Blank gap') : Blank (gap ++ gap') :=
    List.forall_mem_append.mpr ⟨blank, blank'⟩
  cases passage with
  | done blank' =>
      rw [← List.append_assoc]
      exact .done (before blank')
  | assignment target update value rest =>
      exact .assignment (target.preceded blank) update value rest
  | declaration naming rest => exact .declaration (naming.preceded (tokens_of_blank blank)) rest
  | block blank' inside rest =>
      rw [← List.append_assoc]
      exact .block (before blank') inside rest
  | function naming parameters result inside rest =>
      exact .function (naming.preceded (tokens_of_blank blank)) parameters result inside rest

theorem Passage.followed
    (passage : Passage scope opened declared text added inline functions (gap ++ after))
    (blank : Blank gap) : Passage scope opened declared text added inline functions after := by
  generalize behind : gap ++ after = rest at passage
  induction passage with
  | done blank' =>
      rw [← behind, ← List.append_assoc]
      exact .done (List.forall_mem_append.mpr ⟨blank', blank⟩)
  | assignment target update value _ induction =>
      exact .assignment target update value (induction behind)
  | declaration naming _ induction => exact .declaration naming (induction behind)
  | block blank' inside _ _ induction => exact .block blank' inside (induction behind)
  | function naming parameters result inside _ _ induction =>
      exact .function naming parameters result inside (induction behind)

theorem Parameters.preceded {before : List Char} {words : List String}
    (parameters : Parameters text words after) (heading : Heading before text) :
    Parameters before words after := by
  cases parameters with
  | done heading' => exact .done (heading.trans heading')
  | parameter naming rest => exact .parameter (naming.preceded heading) rest

theorem Parameters.followed {before : List Char} {words : List String}
    (parameters : Parameters before words text) (heading : Heading text after) :
    Parameters before words after := by
  induction parameters with
  | done heading' => exact .done (heading'.trans heading)
  | parameter naming _ induction => exact .parameter naming (induction heading)

theorem Naming.shape {words : List String} {before word : List Char}
    (naming : Naming words before word after) : isName word = true := by
  obtain ⟨-, -, -, named⟩ := naming
  exact named.shape

end Source

namespace Grammar

variable {ε α β : Type} {r r' r'' : Registry} {scope : Scope} {opened : Nat} {lifetime : Lifetime}
variable {text mid rest : List Char}

theorem Takes.after_declare {fails : ε → ParseState → Prop} {s : Symbol}
    {last : β → Registry → List Char → Prop} {next : Option Nat → EStateM ε ParseState β}
    (new : ∀ r', Adds r r' r.size s → (s.scope, s.name) ∉ r.declarations →
      Takes r' text (next (some r.size)) last fails)
    (other : Takes r text (next none) last fails) :
    Takes r text (declare? s >>= next) last fails := by
  refine Meets.through (fun found state =>
    (∃ r', Adds r r' r.size s ∧ (s.scope, s.name) ∉ r.declarations ∧ found = some r.size ∧
      At r' text state) ∨ found = none ∧ At r text state) (fun state start => ?_) fun found => ?_
  · simp only [declare?, start.registry_eq, Registry.add]
    cases there : r.find? s.name s.scope .exact with
    | some existing => exact .inr ⟨rfl, start⟩
    | none =>
        exact .inl ⟨_, ⟨rfl, rfl⟩, Registry.find?_exact_eq_none_iff.mp there, rfl, rfl, start.rest_eq⟩
  · rintro state (⟨r', adds, missing, rfl, there⟩ | ⟨rfl, there⟩)
    · exact new r' adds missing state there
    · exact other state there

/-! Declarations. -/

/-- A variable that is read: a type, and a name that is new in the scope. -/
structure ReadsVariable (r : Registry) (lifetime : Lifetime) (scope : Scope) (text : List Char)
    (index : Nat) (r' : Registry) (rest word : List Char) (s : Symbol) : Prop where
  naming : Naming scalarNames text word rest
  adds : Adds r r' index s
  scope_eq : s.scope = scope
  name_eq : s.name = String.ofList word
  static : lifetime = .static → s.kind = .var
  new : (s.scope, s.name) ∉ r.declarations

theorem variableDeclaration_takes (lifetime : Lifetime) (scope : Scope) (text : List Char) :
    Takes r text (variableDeclaration lifetime scope)
      (fun declared r' rest => ∃ word s,
        ReadsVariable r lifetime scope text declared.1 r' rest word s)
      (Rejection.Restores r text) := by
  refine .close (.after_cursor fun start _ => .scan (.orPass typeName_takes) ?_)
  rintro ty _ ⟨mid, heading, keyword⟩
  refine .scan (.orFail (identifier_takes scope .exact)) ?_
  rintro _ rest ⟨gap, word, blank, named, rfl, rfl⟩
  have naming : Naming scalarNames text word rest := ⟨heading, keyword, blank, named⟩
  refine .after_declare (fun r' adds new => .pure ⟨word, _, naming, adds, rfl, rfl, ?_, new⟩) .fail
  rintro rfl
  rfl

theorem ReadsVariable.grows {index : Nat} {word : List Char} {s : Symbol}
    (read : ReadsVariable r lifetime scope text index r' rest word s) :
    Grows r r' scope [index] [(scope, String.ofList word)] := by
  have grows : Grows r r' s.scope [index] [(s.scope, s.name)] :=
    .add read.new read.adds.symbols_eq fun _ => List.mem_singleton.mpr read.adds.index_eq.symm
  rwa [read.scope_eq, read.name_eq] at grows

/-- Parameters that are read, all of them in one scope. -/
structure ReadsParameters (r : Registry) (scope : Scope) (text : List Char)
    (indexes : List Nat) (r' : Registry) (rest : List Char) (words : List String) : Prop where
  parameters : Parameters text words rest
  grows : Grows r r' scope indexes (words.map (scope, ·))
  names : ∀ word ∈ words, ∀ n : Nat, word ≠ toString n

namespace ReadsParameters

variable {indexes : List Nat} {words : List String}

theorem none (r : Registry) (scope : Scope) {text rest : List Char} (heading : Heading text rest) :
    ReadsParameters r scope text [] r rest [] where
  parameters := .done heading
  grows := .same r scope
  names := nofun

theorem cons {index : Nat} {word : List Char} {s : Symbol}
    (first : ReadsVariable r lifetime scope text index r' mid word s)
    (others : ReadsParameters r' scope mid indexes r'' rest words) :
    ReadsParameters r scope text (index :: indexes) r'' rest (String.ofList word :: words) where
  parameters := .parameter first.naming others.parameters
  grows := first.grows.append others.grows
  names := List.forall_mem_cons.mpr ⟨ne_toString_of_isName first.naming.shape, others.names⟩

theorem preceded (read : ReadsParameters r scope mid indexes r' rest words)
    (heading : Heading text mid) : ReadsParameters r scope text indexes r' rest words :=
  ⟨read.parameters.preceded heading, read.grows, read.names⟩

theorem followed (read : ReadsParameters r scope text indexes r' mid words)
    (heading : Heading mid rest) : ReadsParameters r scope text indexes r' rest words :=
  ⟨read.parameters.followed heading, read.grows, read.names⟩

end ReadsParameters

theorem parametersLoop_takes {base : Registry} (fuel : Nat) :
    Takes r text (parametersLoop scope fuel)
      (fun params r' rest => ∃ words,
        ReadsParameters r scope text (params.map Prod.fst) r' rest words)
      (Failure.Keeps base) := by
  induction fuel generalizing r text with
  | zero => exact .fail
  | succ fuel induction =>
      refine .bind (.orFail (variableDeclaration_takes .dynamic scope text)) ?_
      rintro first r' mid ⟨word, s, read⟩
      refine .symbol (fun gap behind blank whole => ?_)
        (.pure ⟨_, .cons read (.none r' scope .refl)⟩)
      refine .bind induction ?_
      rintro params r'' rest ⟨words, others⟩
      exact .pure ⟨_, .cons read (others.preceded (whole ▸ tokens_of_mark blank (by decide)))⟩

theorem parameterList_takes {base : Registry} :
    Takes r text (parameterList scope)
      (fun params r' rest => ∃ words,
        ReadsParameters r scope text (params.map Prod.fst) r' rest words)
      (Failure.Keeps base) := by
  refine .symbol (fun gap mid blank whole => ?_) (.pure ⟨_, .none r scope .refl⟩)
  have opens : Heading text mid := whole ▸ tokens_of_mark blank (by decide)
  refine .symbol (fun gap rest blank whole => .pure ⟨_, .none r scope ?_⟩) ?_
  · exact opens.trans (whole ▸ tokens_of_mark blank (by decide))
  · refine .bind (.orFail (.close (.after_remaining (parametersLoop_takes _)))) ?_
    rintro params r' behind ⟨words, read⟩
    refine .symbol (fun gap rest blank whole => .pure ⟨words, ?_⟩) .fail
    exact (read.preceded opens).followed (whole ▸ tokens_of_mark blank (by decide))

/-! Statements. -/

/-- A statement that is read, whatever comes behind it. -/
structure ReadsStatement (r : Registry) (lifetime : Lifetime) (scope : Scope) (opened : Nat)
    (text : List Char) (stmt : Stmt) (r' : Registry) (rest : List Char)
    (added : List Declaration) (names functions : List Occurrence) : Prop where
  grows : Grows r r' scope stmt.locals added
  fresh : Fresh r'.declarations scope (if stmt.opensScope then opened + 1 else opened)
  tidy : stmt.Tidy
  static : lifetime = .static → ∀ index ∈ stmt.locals, ∃ s, r'.get? index = some s ∧ s.kind = .var
  shorter : rest.length < text.length
  named : List.Forall₂ Occurrence.Denotes names stmt.symbols
  defined : List.Forall₂ Occurrence.Denotes functions stmt.inner
  passage : ∀ {more : List Declaration} {inline functions' : List Occurrence} {after : List Char},
    Passage scope (if stmt.opensScope then opened + 1 else opened) r'.declarations rest more inline
      functions' after →
    Passage scope opened r.declarations text (added ++ more) (names ++ inline)
      (functions ++ functions') after

structure ReadsStatements (r : Registry) (lifetime : Lifetime) (scope : Scope) (opened : Nat)
    (text : List Char) (stmts : List Stmt) (r' : Registry) (rest : List Char)
    (added : List Declaration) (names functions : List Occurrence) : Prop where
  grows : Grows r r' scope (Stmt.localsOf stmts) added
  words : ∀ d ∈ r'.declarations, ∀ n : Nat, d.2 ≠ toString n
  tidy : Stmt.TidyAll stmts
  static : lifetime = .static →
    ∀ index ∈ Stmt.localsOf stmts, ∃ s, r'.get? index = some s ∧ s.kind = .var
  shorter : rest.length ≤ text.length
  named : List.Forall₂ Occurrence.Denotes names (Stmt.symbolsOf stmts)
  defined : List.Forall₂ Occurrence.Denotes functions (Stmt.innerOf stmts)
  passage : Passage scope opened r.declarations text added names functions rest

/-- A rule that reads a statement into which no declaration of the registry reaches. -/
def ReadsOne (r : Registry) (lifetime : Lifetime) (scope : Scope) (opened : Nat)
    (text : List Char) (rule : Rule Stmt) : Prop :=
  Takes r text rule (fun stmt r' rest => ∃ added names functions,
    ReadsStatement r lifetime scope opened text stmt r' rest added names functions)
    (Rejection.Restores r text)

/-- The rule for the statements of a block, one level deeper. -/
def BlockBody.Reads (body : BlockBody) : Prop :=
  ∀ {r : Registry} {text : List Char} (lifetime : Lifetime) (scope : Scope),
    r.declarations.Nodup → Fresh r.declarations scope 0 →
    Takes r text (body lifetime scope) (fun stmts r' rest => ∃ added names functions,
      ReadsStatements r lifetime scope 0 text stmts r' rest added names functions)
      fun _ _ => True

theorem assignment_reads {nested : Nested} (deeper : nested.Speaks r)
    (distinct : r.declarations.Nodup) (fresh : Fresh r.declarations scope opened) :
    ReadsOne r lifetime scope opened text (assignment nested scope) := by
  have reads : Scans r text (target nested scope)
      (fun typed rest => Spoken r scope .place 0 text typed.expr.symbols rest)
      (Rejection.Restores r text) :=
    @target_speaks scope 0 r nested deeper distinct text
  refine .close (.scan (.orPass reads) ?_)
  rintro place mid ⟨own, target, denote⟩
  refine .after_one (fun c update c' same found => ?_) (.after_cursor fun _ _ => .fail)
  have operators := firstOf?_operators (by decide) found
  rw [same] at operators
  refine .scan (.orFail (deeper.conditional scope 0 _)) ?_
  rintro value rest ⟨names, phrase, denote'⟩
  refine .ite (fun allowed => .pure ⟨[], own ++ names, [], ?_⟩) fun _ => .fail
  exact {
    grows := .same r scope
    fresh := fresh
    tidy := trivial
    static := nofun
    shorter := by
      have first := target.place_length_lt
      have second := operators.length_le
      have third := phrase.length_le
      omega
    named := List.rel_append denote denote'
    defined := .nil
    passage := .assignment target operators phrase }

theorem declaration_reads (fresh : Fresh r.declarations scope opened) :
    ReadsOne r lifetime scope opened text
      ((fun declared => .declare declared.1) <$> variableDeclaration lifetime scope) := by
  refine .map (variableDeclaration_takes lifetime scope text) ?_
  rintro declared r' rest ⟨word, s, read⟩
  have grows := read.grows
  refine ⟨[(scope, String.ofList word)], [], [], ?_⟩
  exact {
    grows := grows
    fresh := by
      rw [grows.declarations_eq]
      refine fresh.add (Nat.le_refl _) ?_ ?_
      · exact List.forall_mem_singleton.mpr (ne_toString_of_isName read.naming.shape)
      · refine List.forall_mem_singleton.mpr fun segment within => ?_
        exact absurd within (scope.not_within_child segment)
    tidy := trivial
    static := fun static => List.forall_mem_singleton.mpr ⟨s, read.adds.get?, read.static static⟩
    shorter := read.naming.length_lt
    named := .nil
    defined := .nil
    passage := fun rest => by
      rw [grows.declarations_eq] at rest
      exact .declaration read.naming rest }

section Body

variable {body : BlockBody} (inner : body.Reads)

include inner

/-- What is between the braces of a block. -/
theorem block_takes {lifetime : Lifetime} (distinct : r.declarations.Nodup)
    (fresh : Fresh r.declarations scope 0) :
    Takes r text (block body lifetime scope)
      (fun stmts r' rest => ∃ gap mid added names functions, Blank gap ∧
        text = gap ++ '\x7b' :: mid ∧ ReadsStatements r lifetime scope 0 mid stmts r'
          ('\x7d' :: rest) added names functions)
      (Rejection.Restores r text) := by
  refine .close (.symbol (fun gap mid blank opens => ?_) .pass)
  refine .bind (.orFail (inner lifetime scope distinct fresh)) ?_
  rintro stmts r' behind ⟨added, names, functions, read⟩
  refine .symbol (fun gap' rest blank' closes => .pure ?_) .fail
  subst closes
  refine ⟨gap, mid, added, names, functions, blank, opens, ?_⟩
  exact { read with
    shorter := by
      have length := read.shorter
      rw [List.length_append] at length
      omega
    passage := read.passage.followed blank' }

theorem blockStatement_reads (distinct : r.declarations.Nodup)
    (fresh : Fresh r.declarations scope opened) :
    ReadsOne r lifetime scope opened text
      (blockStatement body lifetime (scope.child (toString opened))) := by
  have outside := fresh.block
  refine .bind (block_takes inner distinct (.enter fresh.named fun d member =>
    .inr (outside d member))) ?_
  rintro stmts r' rest ⟨gap, mid, added, names, functions, blank, rfl, read⟩
  refine .after_registry (.pure ⟨added, names, functions, ?_⟩)
  exact {
    grows := read.grows.deeper _
    fresh := by
      have words := read.words
      rw [read.grows.declarations_eq] at words ⊢
      exact fresh.behindBlock words read.grows.inside
    tidy := ⟨read.grows.declaredIn_subset outside, read.tidy⟩
    static := read.static
    shorter := by
      have length := read.shorter
      simp only [List.length_append, List.length_cons] at length ⊢
      omega
    named := read.named
    defined := read.defined
    passage := fun more => by
      rw [read.grows.declarations_eq] at more
      exact .block blank read.passage more }

theorem functionDefinition_reads (distinct : r.declarations.Nodup)
    (fresh : Fresh r.declarations scope opened) :
    ReadsOne r lifetime scope opened text (functionDefinition body scope) := by
  refine .close (.after_cursor fun start _ => .keyword ?_ .pass)
  intro gap front mid blank whole spelled ends
  refine .scan (.orFail (identifier_takes scope .exact)) ?_
  rintro _ signature ⟨gap', word, blank', named, rfl, rfl⟩
  have naming : Naming ["function"] text word signature :=
    ⟨whole ▸ tokens_of_blank blank, keyword_of_word spelled (by decide) ends, blank', named⟩
  refine .ite (fun _ => .fail) fun _ => .bind parameterList_takes ?_
  rintro params r₁ heading ⟨words, arguments⟩
  refine .keyword (fun gap front mid' blank whole spelled ends => ?_) .fail
  have of : Heading heading mid' := whole ▸ tokens_of_word blank spelled (by decide) ends
  refine .scan (.orFail typeName_takes) fun ty behind type => ?_
  refine .after_declare (fun r₂ adds new => ?_) .fail
  have missing : (scope, String.ofList word) ∉ r.declarations := fun member =>
    new (arguments.grows.declarations_eq ▸ List.mem_append_left _ member)
  have outer : Grows r r₂ scope [] (words.map (scope.child (String.ofList word), ·) ++
      [(scope, String.ofList word)]) :=
    (arguments.grows.deeper []).append (.add new adds.symbols_eq nofun)
  have inside := fresh.body named.shape missing arguments.names
  rw [← outer.declarations_eq] at inside
  refine .bind (.orFail (block_takes inner (outer.distinct distinct) inside)) ?_
  rintro stmts r₃ rest ⟨gap₁, mid₁, own, names, functions, blank₁, rfl, read⟩
  have result := (of.trans type.heading).trans (tokens_of_blank blank₁)
  have grows : Grows r r₃ scope [] _ := outer.append (read.grows.deeper [])
  refine .pure ⟨words.map (scope.child (String.ofList word), ·) ++
    [(scope, String.ofList word)] ++ own, [], names ++ functions, ?_⟩
  exact {
    grows := grows
    fresh := by
      have words := read.words
      rw [grows.declarations_eq] at words ⊢
      exact fresh.behindFunction words read.grows.inside
    tidy := read.tidy
    static := nofun
    shorter := by
      have first := naming.length_lt
      have second := arguments.parameters.length_le
      have third := tokens_length_le result
      have fourth := read.shorter
      simp only [List.length_cons] at third fourth
      omega
    named := .nil
    defined := List.rel_append read.named read.defined
    passage := fun more => by
      rw [grows.declarations_eq, List.append_assoc] at more
      have passage := read.passage
      rw [outer.declarations_eq] at passage
      have whole := Passage.function naming arguments.parameters result passage more
      simpa only [List.append_assoc, List.singleton_append, List.cons_append,
        List.nil_append] using whole }

theorem statement_reads {nested : Nested} (deeper : nested.Speaks r) (lifetime : Lifetime)
    (distinct : r.declarations.Nodup) (fresh : Fresh r.declarations scope opened)
    (text : List Char) :
    ReadsOne r lifetime scope opened text (statement nested body lifetime scope opened) :=
  .or (assignment_reads deeper distinct fresh) <| .or (declaration_reads fresh) <|
    .or (blockStatement_reads inner distinct fresh) (functionDefinition_reads inner distinct fresh)

end Body

/-! Statements in a row. -/

theorem ReadsStatements.none {gap : List Char} (words : ∀ d ∈ r.declarations, ∀ n : Nat,
    d.2 ≠ toString n) (blank : Blank gap) :
    ReadsStatements r lifetime scope opened (gap ++ rest) [] r rest [] [] [] where
  grows := .same r scope
  words := words
  tidy := trivial
  static := nofun
  shorter := by
    rw [List.length_append]
    omega
  named := .nil
  defined := .nil
  passage := .done blank

theorem ReadsStatements.cons {stmt : Stmt} {stmts : List Stmt} {gap : List Char}
    {added more : List Declaration} {names functions names' functions' : List Occurrence}
    (first : ReadsStatement r lifetime scope opened text stmt r' mid added names functions)
    (others : ReadsStatements r' lifetime scope (if stmt.opensScope then opened + 1 else opened)
      mid stmts r'' rest more names' functions') (blank : Blank gap) :
    ReadsStatements r lifetime scope opened (gap ++ text) (stmt :: stmts) r'' rest (added ++ more)
      (names ++ names') (functions ++ functions') where
  grows := first.grows.append others.grows
  words := others.words
  tidy := ⟨first.tidy, others.tidy⟩
  static := by
    intro static
    refine List.forall_mem_append.mpr ⟨fun index member => ?_, others.static static⟩
    obtain ⟨s, found, kind⟩ := first.static static index member
    exact ⟨s, others.grows.extend.get? found, kind⟩
  shorter := by
    have length := first.shorter
    have length' := others.shorter
    rw [List.length_append]
    omega
  named := List.rel_append first.named others.named
  defined := List.rel_append first.defined others.defined
  passage := (first.passage others.passage).preceded blank

theorem statementsLoop_reads {next : Nat → Rule Stmt}
    (reads : ∀ {r : Registry} {opened : Nat} {text : List Char}, r.declarations.Nodup →
      Fresh r.declarations scope opened → ReadsOne r lifetime scope opened text (next opened))
    (inBlock : Bool) (fuel : Nat) (enough : text.length < fuel) (distinct : r.declarations.Nodup)
    (fresh : Fresh r.declarations scope opened) :
    Takes r text (statementsLoop next inBlock fuel opened)
      (fun stmts r' rest => (inBlock = false → rest = []) ∧ ∃ added names functions,
        ReadsStatements r lifetime scope opened text stmts r' rest added names functions)
      fun _ _ => True := by
  induction fuel generalizing r text opened with
  | zero => exact absurd enough (Nat.not_lt_zero _)
  | succ fuel induction =>
      refine .after_skip fun gap text blank whole => .after_cursor fun start same => ?_
      subst whole
      rw [List.length_append] at enough
      split
      · exact .throw fun _ _ => trivial
      · rename_i ends
        rw [Cursor.peek?, same, List.head?_eq_none_iff] at ends
        exact .pure ⟨fun _ => ends, [], [], [], .none fresh.named blank⟩
      · exact .pure ⟨Bool.noConfusion, [], [], [], .none fresh.named blank⟩
      · refine .attempt (reads distinct fresh) ?_ (fun _ => ?_) fun _ _ _ => trivial
        · rintro stmt r' mid ⟨added, names, functions, first⟩
          have shorter := first.shorter
          refine .bind (induction (by omega) (first.grows.distinct distinct) first.fresh) ?_
          rintro stmts r'' rest ⟨ends, more, names', functions', others⟩
          exact .pure ⟨ends, _, _, _, .cons first others blank⟩
        · exact .after_move (.throw fun _ _ => trivial)

theorem statements_reads {nested : Nested} {body : BlockBody}
    (deeper : ∀ {r : Registry}, r.declarations.Nodup → nested.Speaks r) (inner : body.Reads)
    (distinct : r.declarations.Nodup) (fresh : Fresh r.declarations scope 0) :
    Takes r text (statements nested body lifetime scope)
      (fun stmts r' rest => (scope.isRoot = true → rest = []) ∧ ∃ added names functions,
        ReadsStatements r lifetime scope 0 text stmts r' rest added names functions)
      fun _ _ => True := by
  refine .after_remaining (.mono (statementsLoop_reads (fun distinct fresh =>
    statement_reads inner (deeper distinct) lifetime distinct fresh _) _ _ (Nat.lt_succ_self _)
    distinct fresh) ?_)
  rintro stmts r' rest ⟨ends, read⟩
  exact ⟨fun isRoot => ends (by rw [isRoot, Bool.not_true]), read⟩

theorem bodyWithin_reads (levels : Nat) : (bodyWithin levels).Reads := by
  induction levels with
  | zero => exact fun _ _ _ _ _ _ => trivial
  | succ levels induction =>
      intro r text lifetime scope distinct fresh
      refine .mono (statements_reads (fun distinct => nestedWithin_speaks distinct levels) induction
        distinct fresh) ?_
      rintro stmts r' rest ⟨-, read⟩
      exact read

/-- A program is read to the end of the text. -/
theorem program_reads (distinct : r.declarations.Nodup) (fresh : Fresh r.declarations .root 0) :
    Takes r text program
      (fun stmts r' rest => rest = [] ∧ ∃ added names functions,
        ReadsStatements r .static .root 0 text stmts r' rest added names functions)
      fun _ _ => True := by
  refine .mono (statements_reads (fun distinct => nestedWithin_speaks distinct maxNesting)
    (bodyWithin_reads maxNesting) distinct fresh) ?_
  rintro stmts r' rest ⟨ends, read⟩
  exact ⟨ends rfl, read⟩

end Grammar

end StackScript
