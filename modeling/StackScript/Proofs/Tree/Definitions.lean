import StackScript.Proofs.Resolution.Lookup
import StackScript.Proofs.Tree.Flow
import StackScript.Proofs.Tree.Seating

namespace StackScript.Stmt

/-! The functions that a program defines, with where they and their variables are declared. -/

variable {r : Registry}

/-- A function as it stands in the tree, below scopes whose segments are words. -/
structure Definition.Stands (r : Registry) (d : Definition) (outer inside : Scope)
    (lifetime : Lifetime) (scope : Scope) : Prop where
  undotted : scope.Undotted
  typed : (Stmt.function inside d.symbol d.params d.body).Typed r outer
  seated : (Stmt.function inside d.symbol d.params d.body).Seated r lifetime scope

mutual

theorem definitions_stand {lifetime : Lifetime} {outer scope : Scope} :
    (stmt : Stmt) → stmt.Typed r outer → stmt.Seated r lifetime scope → scope.Undotted →
      ∀ d ∈ stmt.definitions, ∃ outer inside lifetime scope, d.Stands r outer inside lifetime scope
  | .assign _ _ _, _, _, _ => List.forall_mem_nil _
  | .declare _, _, _, _ => List.forall_mem_nil _
  | .block _ _ body, ⟨_, _, typed⟩, ⟨⟨n, here⟩, _, seated⟩, undotted =>
      definitionsOf_stand body typed seated (here ▸ undotted.child (undotted_toString n))
  | .function inside symbol params body, typed, seated, undotted => by
      refine List.forall_mem_cons.mpr
        ⟨⟨outer, inside, lifetime, scope, undotted, typed, seated⟩, ?_⟩
      obtain ⟨_, _, _, _, all⟩ := typed
      obtain ⟨_, _, _, _, named, opened, _, others⟩ := seated
      rw [opened] at others
      exact definitionsOf_stand body all others (undotted.child named.undotted)

theorem definitionsOf_stand {lifetime : Lifetime} {outer scope : Scope} :
    (stmts : List Stmt) → TypedAll r outer stmts → SeatedAll r lifetime scope stmts →
      scope.Undotted →
        ∀ d ∈ definitionsOf stmts, ∃ outer inside lifetime scope,
          d.Stands r outer inside lifetime scope
  | [], _, _, _ => List.forall_mem_nil _
  | stmt :: rest, ⟨typed, all⟩, ⟨seated, others⟩, undotted =>
      List.forall_mem_append.mpr
        ⟨definitions_stand stmt typed seated undotted, definitionsOf_stand rest all others undotted⟩

end

/-- A function of the registry with the parameters that its callers rely on. What it declares is in
the scope that it opens, or in blocks there. -/
structure Definition.Lies (r : Registry) (d : Definition) (s : Symbol) : Prop where
  found : r.get? d.symbol = some s
  isFunction : s.kind.isFunction = true
  named : IsSegment s.name
  undotted : s.scope.Undotted
  typed : ParamsTyped r d.params s.params
  params : r.Parameters (s.scope.child s.name) d.params (localsOf d.body)
  locals : ∀ cell ∈ localsOf d.body, ∃ t, r.get? cell = some t ∧ t.kind = .dynamicVar ∧
    ∃ blocks, t.scope = (s.scope.child s.name).below blocks

theorem Definition.Stands.exists_lies {d : Definition} {outer inside scope : Scope}
    {lifetime : Lifetime} (stands : d.Stands r outer inside lifetime scope) :
    ∃ s, d.Lies r s := by
  obtain ⟨t, found', _, typed, -⟩ := stands.typed
  obtain ⟨s, found, kind, here, named, opened, parameters, seated⟩ := stands.seated
  obtain rfl := Option.some.inj (found.symm.trans found')
  rw [opened, ← here] at parameters seated
  exact ⟨s, {
    found
    isFunction := by rw [kind]; rfl
    named
    undotted := here ▸ stands.undotted
    typed
    params := parameters
    locals := SeatedAll.locals d.body seated }⟩

namespace Definition.Lies

variable {d d' : Definition} {s s' : Symbol} {cell : Nat}

/-- A cell of a function is its own, or that of a variable in a scope of the function. -/
theorem cell_cases (lies : d.Lies r s) (member : cell ∈ d.outline) :
    cell = d.symbol ∨ ∃ t, r.get? cell = some t ∧ t.kind = .dynamicVar ∧
      ∃ blocks, t.scope = (s.scope.child s.name).below blocks := by
  rcases List.mem_cons.mp member with own | inside
  · exact .inl own
  refine .inr ?_
  rcases List.mem_append.mp inside with param | line
  · obtain ⟨t, found, dynamic, here⟩ := lies.params.declared cell (List.mem_reverse.mp param)
    exact ⟨t, found, dynamic, [], by rw [here, Scope.below_nil]⟩
  · exact lies.locals cell line

/-- A variable of a function is not one of another function. -/
theorem same_function (lies : d.Lies r s) (lies' : d'.Lies r s')
    (distinct : r.declarations.Nodup) {blocks blocks' : List Nat}
    (same : (s.scope.child s.name).below blocks = (s'.scope.child s'.name).below blocks') :
    d.symbol = d'.symbol := by
  obtain ⟨scope, name⟩ := Scope.child_below_inj lies.named lies'.named same
  have declared : r.declarations[d.symbol]? = r.declarations[d'.symbol]? := by
    rw [Registry.declarations_getElem?, Registry.declarations_getElem?, lies.found, lies'.found,
      Option.map_some, Option.map_some, scope, name]
  have inside : d.symbol < r.declarations.length := by
    rw [Registry.declarations, List.length_map]
    exact (List.getElem?_eq_some_iff.mp lies.found).1
  exact (List.getElem?_inj inside distinct).mp declared

end Definition.Lies

end StackScript.Stmt
