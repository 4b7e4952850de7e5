import Mathlib.Data.List.Nodup
import StackScript.Proofs.Symbol.Scope
import StackScript.Symbol.Registry

namespace StackScript

/-! What is found in a registry, and what stays of it when symbols are added. -/

/-- A name with the scope that declares it. -/
abbrev Declaration := Scope × String

namespace Registry

variable {r r' : Registry} {name : String} {scope : Scope} {index : Nat} {s : Symbol}

/-- What the symbols declare, in the order of their numbers. -/
def declarations (r : Registry) : List Declaration :=
  r.symbols.map fun s => (s.scope, s.name)

theorem declarations_getElem? (r : Registry) (index : Nat) :
    r.declarations[index]? = (r.get? index).map fun s => (s.scope, s.name) :=
  List.getElem?_map

theorem mem_declarations {d : Declaration} :
    d ∈ r.declarations ↔ ∃ index s, r.get? index = some s ∧ (s.scope, s.name) = d := by
  simp only [List.mem_iff_getElem?, declarations_getElem?, Option.map_eq_some_iff]

theorem mem_places :
    index ∈ r.byName.places name ↔ ∃ s, r.get? index = some s ∧ s.name = name := by
  rw [r.inStep.mem_places, List.getElem?_map, Option.map_eq_some_iff]
  rfl

theorem mem_candidates {candidate : Nat × Symbol} :
    candidate ∈ r.candidates name ↔
      r.get? candidate.1 = some candidate.2 ∧ candidate.2.name = name := by
  simp only [candidates, List.mem_filterMap, mem_places, Option.map_eq_some_iff]
  constructor
  · rintro ⟨index, ⟨s, found, named⟩, t, found', rfl⟩
    obtain rfl := Option.some.inj (found.symm.trans found')
    exact ⟨found, named⟩
  · rintro ⟨found, named⟩
    exact ⟨candidate.1, ⟨candidate.2, found, named⟩, candidate.2, found, rfl⟩

/-! Looking up in one scope. -/

theorem find?_exact_eq_none_iff :
    r.find? name scope .exact = none ↔ (scope, name) ∉ r.declarations := by
  simp only [find?, Option.map_eq_none_iff, List.find?_eq_none, mem_candidates, Prod.forall,
    mem_declarations, Prod.mk.injEq, decide_eq_true_eq, not_exists, not_and, and_imp]
  exact ⟨fun none index s found here named => none index s found named here,
    fun none index s found named here => none index s found here named⟩

theorem get?_of_find?_exact (found : r.find? name scope .exact = some index) :
    ∃ s, r.get? index = some s ∧ s.scope = scope ∧ s.name = name := by
  obtain ⟨⟨index, s⟩, first, rfl⟩ := Option.map_eq_some_iff.mp found
  obtain ⟨there, named⟩ := mem_candidates.mp (List.mem_of_find?_eq_some first)
  have here := List.find?_some first
  exact ⟨s, there, of_decide_eq_true here, named⟩

/-! Looking up in a scope and those around it. -/

theorem exists_deeper (best : Option (Nat × Symbol)) (candidate : Nat × Symbol) :
    ∃ better, deeper best candidate = some better ∧ (best = some better ∨ better = candidate) ∧
      ∀ other, best = some other ∨ other = candidate →
        other.2.scope.depth ≤ better.2.scope.depth := by
  cases best with
  | none =>
      refine ⟨candidate, rfl, .inr rfl, ?_⟩
      rintro other (none | rfl)
      · cases none
      · exact Nat.le_refl _
  | some found =>
      by_cases level : found.2.scope.depth ≤ candidate.2.scope.depth
      · refine ⟨candidate, if_pos level, .inr rfl, ?_⟩
        rintro other (same | rfl)
        · cases same
          exact level
        · exact Nat.le_refl _
      · refine ⟨found, if_neg level, .inl rfl, ?_⟩
        rintro other (same | rfl)
        · cases same
          exact Nat.le_refl _
        · exact Nat.le_of_not_le level

/-- No candidate is deeper than the one that is kept. -/
theorem foldl_deeper {best : Option (Nat × Symbol)} {chosen : Nat × Symbol}
    (candidates : List (Nat × Symbol)) (kept : candidates.foldl deeper best = some chosen) :
    (best = some chosen ∨ chosen ∈ candidates) ∧
      ∀ other, best = some other ∨ other ∈ candidates →
        other.2.scope.depth ≤ chosen.2.scope.depth := by
  induction candidates generalizing best with
  | nil =>
      rw [List.foldl_nil] at kept
      refine ⟨.inl kept, ?_⟩
      rintro other (same | member)
      · obtain rfl := Option.some.inj (same.symm.trans kept)
        exact Nat.le_refl _
      · cases member
  | cons candidate candidates induction =>
      rw [List.foldl_cons] at kept
      obtain ⟨better, next, source, above⟩ := exists_deeper best candidate
      obtain ⟨origin, deepest⟩ := induction kept
      rw [next] at origin deepest
      constructor
      · rcases origin with same | member
        · obtain rfl := Option.some.inj same
          exact source.imp_right fun here => List.mem_cons.mpr (.inl here)
        · exact .inr (List.mem_cons_of_mem _ member)
      · have onwards : better.2.scope.depth ≤ chosen.2.scope.depth := deepest better (.inl rfl)
        rintro other (before | member)
        · exact Nat.le_trans (above other (.inl before)) onwards
        · rcases List.mem_cons.mp member with here | there
          · exact Nat.le_trans (above other (.inr here)) onwards
          · exact deepest other (.inr there)

theorem foldl_deeper_eq_none (candidates : List (Nat × Symbol)) (best : Option (Nat × Symbol)) :
    candidates.foldl deeper best = none ↔ best = none ∧ candidates = [] := by
  induction candidates generalizing best with
  | nil => simp
  | cons candidate candidates induction =>
      obtain ⟨better, next, -⟩ := exists_deeper best candidate
      rw [List.foldl_cons, induction, next]
      simp

theorem mem_visible {candidate : Nat × Symbol} :
    candidate ∈ (r.candidates name).filter (fun candidate => scope.within candidate.2.scope) ↔
      r.get? candidate.1 = some candidate.2 ∧ candidate.2.name = name ∧
        scope.within candidate.2.scope = true := by
  rw [List.mem_filter, mem_candidates, and_assoc]

theorem find?_inherited_eq_none_iff :
    r.find? name scope .inherited = none ↔
      ∀ outer, (outer, name) ∈ r.declarations → ¬ scope.within outer = true := by
  simp only [find?, Option.map_eq_none_iff, foldl_deeper_eq_none, true_and,
    List.eq_nil_iff_forall_not_mem, mem_visible, mem_declarations, Prod.forall, Prod.mk.injEq]
  constructor
  · rintro none outer ⟨index, s, found, rfl, named⟩ visible
    exact none index s ⟨found, named, visible⟩
  · rintro none index s ⟨found, named, visible⟩
    exact none s.scope ⟨index, s, found, rfl, named⟩ visible

theorem get?_of_find?_inherited (found : r.find? name scope .inherited = some index) :
    ∃ s, r.get? index = some s ∧ s.name = name ∧ scope.within s.scope = true ∧
      ∀ index' t, r.get? index' = some t → t.name = name → scope.within t.scope = true →
        t.scope.depth ≤ s.scope.depth := by
  obtain ⟨⟨index, s⟩, kept, rfl⟩ := Option.map_eq_some_iff.mp found
  obtain ⟨origin, deepest⟩ := foldl_deeper _ kept
  obtain ⟨there, named, visible⟩ :=
    mem_visible.mp (origin.resolve_left (Option.some_ne_none _ ·.symm))
  refine ⟨s, there, named, visible, ?_⟩
  intro index' t there' named' visible'
  exact deepest (index', t) (.inr (mem_visible.mpr ⟨there', named', visible'⟩))

/-! Adding symbols. -/

theorem distinct_empty : empty.declarations.Nodup :=
  List.nodup_nil

theorem declarations_append (symbols : r'.symbols = r.symbols ++ [s]) :
    r'.declarations = r.declarations ++ [(s.scope, s.name)] := by
  rw [declarations, symbols, List.map_append]
  rfl

theorem nodup_append (distinct : r.declarations.Nodup) (new : (s.scope, s.name) ∉ r.declarations)
    (symbols : r'.symbols = r.symbols ++ [s]) : r'.declarations.Nodup := by
  rw [declarations_append symbols]
  refine List.nodup_append.mpr ⟨distinct, List.nodup_singleton _, ?_⟩
  rintro d old d' here rfl
  rw [List.mem_singleton.mp here] at old
  exact new old

/-- The registry after a symbol is added, which stays as it is if a symbol is in the way. -/
def declare (r : Registry) (symbol : Symbol) : Registry :=
  match r.add symbol with
  | .ok (_, r') => r'
  | .error _ => r

theorem add_of_new (new : (s.scope, s.name) ∉ r.declarations) :
    r.add s = .ok (r.size, r.push s) := by
  rw [add, find?_exact_eq_none_iff.mpr new]

theorem add_of_found (found : r.find? s.name s.scope .exact = some index) :
    r.add s = .error index := by
  rw [add, found]

theorem declare_cases (r : Registry) (s : Symbol) :
    ((s.scope, s.name) ∉ r.declarations ∧ r.declare s = r.push s) ∨ r.declare s = r := by
  cases there : r.find? s.name s.scope .exact with
  | none =>
      have new := find?_exact_eq_none_iff.mp there
      exact .inl ⟨new, by rw [declare, add_of_new new]⟩
  | some index => exact .inr (by rw [declare, add_of_found there])

/-- The registry after a sequence of symbols was added, of which some may have been in the way. -/
def ofHistory (history : List Symbol) : Registry :=
  history.foldl declare empty

/-! What one addition preserves, and what a sequence of them preserves. -/

theorem nodup_declare (distinct : r.declarations.Nodup) (s : Symbol) :
    (r.declare s).declarations.Nodup := by
  rcases declare_cases r s with ⟨new, pushed⟩ | kept
  · rw [pushed]
    exact nodup_append distinct new rfl
  · rwa [kept]

theorem prefix_declare (r : Registry) (s : Symbol) : r.symbols <+: (r.declare s).symbols := by
  rcases declare_cases r s with ⟨-, pushed⟩ | kept
  · rw [pushed]
    exact List.prefix_append _ _
  · exact kept.symm ▸ List.prefix_refl r.symbols

theorem nodup_foldl_declare (distinct : r.declarations.Nodup) (history : List Symbol) :
    (history.foldl declare r).declarations.Nodup := by
  induction history generalizing r with
  | nil => exact distinct
  | cons s history induction => exact induction (nodup_declare distinct s)

theorem prefix_foldl_declare (r : Registry) (history : List Symbol) :
    r.symbols <+: (history.foldl declare r).symbols := by
  induction history generalizing r with
  | nil => exact List.prefix_refl r.symbols
  | cons s history induction => exact (prefix_declare r s).trans (induction (r.declare s))

/-- A number of a symbol stays its number. -/
theorem get?_foldl_declare (found : r.get? index = some s) (later : List Symbol) :
    (later.foldl declare r).get? index = some s := by
  obtain ⟨more, symbols⟩ := prefix_foldl_declare r later
  rw [get?, ← symbols]
  exact List.getElem?_append_left (List.getElem?_eq_some_iff.mp found).1 ▸ found

/-! What a registry without repetitions gives. -/

/-- The symbol with this number has this scope and this name. -/
def Lists (r : Registry) (scope : Scope) (name : String) (index : Nat) : Prop :=
  ∃ s, r.get? index = some s ∧ s.scope = scope ∧ s.name = name

theorem lists_iff : r.Lists scope name index ↔ r.declarations[index]? = some (scope, name) := by
  rw [declarations_getElem?, Option.map_eq_some_iff]
  simp only [Lists, Prod.mk.injEq]

theorem mem_declarations_iff_lists :
    (scope, name) ∈ r.declarations ↔ ∃ index, r.Lists scope name index := by
  simp only [List.mem_iff_getElem?, lists_iff]

theorem mem_places_iff_lists :
    index ∈ r.byName.places name ↔ ∃ scope, r.Lists scope name index := by
  simp only [mem_places, Lists]
  exact ⟨fun ⟨s, found, named⟩ => ⟨s.scope, s, found, rfl, named⟩,
    fun ⟨_, s, found, _, named⟩ => ⟨s, found, named⟩⟩

theorem find?_inherited_none_iff_lists :
    r.find? name scope .inherited = none ↔
      ∀ outer i, r.Lists outer name i → ¬ outer.segments <+: scope.segments := by
  simp only [find?_inherited_eq_none_iff, mem_declarations_iff_lists, Scope.within_iff,
    forall_exists_index]

theorem add_of_not_lists (missing : ∀ i, ¬ r.Lists s.scope s.name i) :
    r.add s = .ok (r.size, r.push s) := by
  refine add_of_new fun declared => ?_
  obtain ⟨i, listed⟩ := mem_declarations_iff_lists.mp declared
  exact missing i listed

section Distinct

variable (distinct : r.declarations.Nodup)

include distinct

theorem Lists.unique {i j : Nat} (first : r.Lists scope name i) (second : r.Lists scope name j) :
    i = j := by
  rw [lists_iff] at first second
  obtain ⟨inside, -⟩ := List.getElem?_eq_some_iff.mp first
  exact (List.getElem?_inj inside distinct).mp (first.trans second.symm)

theorem find?_exact_iff_lists :
    r.find? name scope .exact = some index ↔ r.Lists scope name index := by
  refine ⟨get?_of_find?_exact, fun listed => ?_⟩
  cases there : r.find? name scope .exact with
  | none =>
      exact absurd (mem_declarations_iff_lists.mpr ⟨index, listed⟩)
        (find?_exact_eq_none_iff.mp there)
  | some j => rw [Lists.unique distinct (get?_of_find?_exact there) listed]

theorem find?_inherited_iff_lists :
    r.find? name scope .inherited = some index ↔
      ∃ outer, r.Lists outer name index ∧ outer.segments <+: scope.segments ∧
        ∀ outer' j, r.Lists outer' name j → outer'.segments <+: scope.segments →
          outer'.segments.length ≤ outer.segments.length := by
  constructor
  · intro found
    obtain ⟨s, there, named, visible, deepest⟩ := get?_of_find?_inherited found
    refine ⟨s.scope, ⟨s, there, rfl, named⟩, Scope.within_iff.mp visible, ?_⟩
    rintro outer' j ⟨t, there', rfl, named'⟩ visible'
    exact Nat.le_of_succ_le_succ (deepest j t there' named' (Scope.within_iff.mpr visible'))
  · rintro ⟨outer, listed, visible, longest⟩
    cases found : r.find? name scope .inherited with
    | none =>
        exact absurd visible (find?_inherited_none_iff_lists.mp found outer index listed)
    | some j =>
        -- Both scopes are prefixes of one scope and neither is longer, so they are the same.
        obtain ⟨s, there, named, visible', deepest⟩ := get?_of_find?_inherited found
        have listed' : r.Lists s.scope name j := ⟨s, there, rfl, named⟩
        obtain ⟨t, known, rfl, named'⟩ := listed
        have above := deepest index t known named' (Scope.within_iff.mpr visible)
        have below := longest s.scope j listed' (Scope.within_iff.mp visible')
        have same : t.scope = s.scope :=
          Scope.eq_of_within (Scope.within_iff.mpr visible) visible'
            (Nat.le_antisymm above (Nat.succ_le_succ below))
        rw [← same] at listed'
        rw [listed'.unique distinct ⟨t, known, rfl, named'⟩]

end Distinct

/-- What the additions to a registry and the look-ups in it can rely on. -/
structure Sound (r : Registry) : Prop where
  unique : ∀ {scope : Scope} {name : String} {i j : Nat}, r.Lists scope name i →
    r.Lists scope name j → i = j
  /-- The index by names leaves out no symbol and has no other places. -/
  indexed : ∀ (name : String) (i : Nat),
    i ∈ r.byName.places name ↔ ∃ scope, r.Lists scope name i
  exact : ∀ (name : String) (scope : Scope) (i : Nat),
    r.find? name scope .exact = some i ↔ r.Lists scope name i
  inherited : ∀ (name : String) (scope : Scope) (i : Nat),
    r.find? name scope .inherited = some i ↔
      ∃ outer, r.Lists outer name i ∧ outer.segments <+: scope.segments ∧
        ∀ outer' j, r.Lists outer' name j → outer'.segments <+: scope.segments →
          outer'.segments.length ≤ outer.segments.length
  inherited_none : ∀ (name : String) (scope : Scope),
    r.find? name scope .inherited = none ↔
      ∀ outer i, r.Lists outer name i → ¬ outer.segments <+: scope.segments
  existing : ∀ (s : Symbol) (i : Nat), r.Lists s.scope s.name i →
    r.add s = .error i ∧ r.declare s = r
  new : ∀ s : Symbol, (∀ i, ¬ r.Lists s.scope s.name i) →
    ∃ r', r.add s = .ok (r.size, r') ∧ r.declare s = r' ∧ r'.symbols = r.symbols ++ [s]

theorem sound_of_distinct (distinct : r.declarations.Nodup) : r.Sound where
  unique := Lists.unique distinct
  indexed _ _ := mem_places_iff_lists
  exact _ _ _ := find?_exact_iff_lists distinct
  inherited _ _ _ := find?_inherited_iff_lists distinct
  inherited_none _ _ := find?_inherited_none_iff_lists
  existing s i listed := by
    have refused := add_of_found ((find?_exact_iff_lists distinct).mpr listed)
    exact ⟨refused, by rw [declare, refused]⟩
  new s missing := by
    have added := add_of_not_lists missing
    exact ⟨r.push s, added, by rw [declare, added], rfl⟩

/-- Whatever symbols were added before, and whichever of them were refused. -/
theorem ofHistory_sound (history : List Symbol) :
    (ofHistory history).Sound ∧
      ∀ (later : List Symbol) (index : Nat) (s : Symbol),
        (ofHistory history).get? index = some s →
          (ofHistory (history ++ later)).get? index = some s := by
  constructor
  · exact sound_of_distinct (nodup_foldl_declare distinct_empty history)
  · intro later index s found
    rw [ofHistory, List.foldl_append]
    exact get?_foldl_declare found later

end Registry

end StackScript
