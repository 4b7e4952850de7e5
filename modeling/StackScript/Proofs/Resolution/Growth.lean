import StackScript.Proofs.Grammar.Statement
import StackScript.Proofs.Resolution.Lookup

namespace StackScript

/-! What statements add to the registry: each scope of a block or a function body belongs to it
alone, so the variables in the scope are those that the statements in it declare. -/

namespace Scope

theorem within_self (scope : Scope) : scope.within scope = true :=
  within_iff.mpr (List.prefix_refl scope.segments)

theorem child_within (scope : Scope) (segment : String) :
    (scope.child segment).within scope = true :=
  within_iff.mpr (List.prefix_append scope.segments [segment])

theorem within_trans {inner middle outer : Scope} (first : inner.within middle = true)
    (second : middle.within outer = true) : inner.within outer = true :=
  within_iff.mpr ((within_iff.mp second).trans (within_iff.mp first))

theorem not_within_child (scope : Scope) (segment : String) :
    ¬ scope.within (scope.child segment) = true := by
  intro within
  have length := List.IsPrefix.length_le (within_iff.mp within)
  rw [child, List.length_append, List.length_singleton] at length
  omega

/-- A scope lies in at most one of the scopes that another one opens. -/
theorem segment_eq {scope inner : Scope} {segment segment' : String}
    (first : inner.within (scope.child segment) = true)
    (second : inner.within (scope.child segment') = true) : segment = segment' := by
  have same := eq_of_within first second (by simp [depth, child])
  exact List.singleton_inj.mp (List.append_cancel_left (congrArg segments same))

end Scope

namespace Grammar

theorem toList_toString (n : Nat) : (toString n).toList = Nat.toDigits 10 n :=
  String.toList_ofList

theorem toString_inj {m n : Nat} (same : toString m = toString n) : m = n := by
  have digits := congrArg String.toList same
  rw [toList_toString, toList_toString] at digits
  rw [← Nat.ofDigitChars_ten_toDigits (n := m), digits, Nat.ofDigitChars_ten_toDigits]

theorem not_isDigit_of_isNameStart {c : Char} (start : isNameStart c = true) :
    c.isDigit = false := by
  by_contra digit
  rw [Bool.not_eq_false] at digit
  change ((decide (c.val ≥ 'A'.val ∧ c.val ≤ 'Z'.val) ||
    decide (c.val ≥ 'a'.val) && decide (c.val ≤ 'z'.val)) || decide (c = '_')) = true at start
  change (decide (c.val ≥ '0'.val) && decide (c.val ≤ '9'.val)) = true at digit
  simp only [Bool.or_eq_true, Bool.and_eq_true, decide_eq_true_eq, UInt32.le_iff_toNat_le,
    ge_iff_le] at start digit
  have upper : 'A'.val.toNat = 65 := rfl
  have lower : 'a'.val.toNat = 97 := rfl
  have nine : '9'.val.toNat = 57 := rfl
  rcases start with (start | start) | rfl
  · omega
  · omega
  · exact absurd digit.2 (by decide)

/-- The scope of a block is not that of a function. -/
theorem ne_toString_of_isName {word : List Char} (named : isName word = true) (n : Nat) :
    String.ofList word ≠ toString n := by
  intro same
  have digits : word = Nat.toDigits 10 n := by
    rw [← toList_toString, ← same, String.toList_ofList]
  cases word with
  | nil => cases named
  | cons c word =>
      rw [isName, Bool.and_eq_true] at named
      have digit : c.isDigit = true :=
        Nat.isDigit_of_mem_toDigits (by decide) (by decide) (digits ▸ List.mem_cons_self)
      rw [not_isDigit_of_isNameStart named.1] at digit
      cases digit

end Grammar

/-- Statements in a scope have added symbols: in that scope the variables among `locals`, and the
others in scopes inside of it. -/
structure Grows (r r' : Registry) (scope : Scope) (locals : List Nat) (added : List Declaration) :
    Prop where
  extend : r.Extends r'
  distinct : r.declarations.Nodup → r'.declarations.Nodup
  declarations_eq : r'.declarations = r.declarations ++ added
  inside : ∀ d ∈ added, d.1.within scope = true
  locals : ∀ {index : Nat} {s : Symbol}, r.size ≤ index → r'.get? index = some s →
    s.kind.isVariable = true → s.scope = scope → index ∈ locals

namespace Grows

variable {r r' r'' : Registry} {scope : Scope} {front back : List Nat} {segment : String}
variable {added more : List Declaration}

theorem same (r : Registry) (scope : Scope) : Grows r r scope [] [] where
  extend := .refl r
  distinct := id
  declarations_eq := (List.append_nil _).symm
  inside := nofun
  locals := by
    intro index s new found
    exact absurd (List.getElem?_eq_some_iff.mp found).1 (Nat.not_lt_of_le new)

theorem append (first : Grows r r' scope front added) (second : Grows r' r'' scope back more) :
    Grows r r'' scope (front ++ back) (added ++ more) where
  extend := first.extend.trans second.extend
  distinct := fun distinct => second.distinct (first.distinct distinct)
  declarations_eq := by
    rw [second.declarations_eq, first.declarations_eq, List.append_assoc]
  inside := List.forall_mem_append.mpr ⟨first.inside, second.inside⟩
  locals := by
    intro index s new found isVariable here
    rw [List.mem_append]
    by_cases old : index < r'.size
    · obtain ⟨t, known⟩ : ∃ t, r'.get? index = some t := ⟨_, List.getElem?_eq_getElem old⟩
      have there := second.extend.get? known
      rw [found] at there
      obtain rfl := Option.some.inj there
      exact .inl (first.locals new known isVariable here)
    · exact .inr (second.locals (Nat.le_of_not_lt old) found isVariable here)

/-- Nothing that is added in a scope that another one opens is a variable of the other one. -/
theorem deeper (grows : Grows r r' (scope.child segment) front added) (back : List Nat) :
    Grows r r' scope back added where
  extend := grows.extend
  distinct := grows.distinct
  declarations_eq := grows.declarations_eq
  inside := fun d member => Scope.within_trans (grows.inside d member) (scope.child_within segment)
  locals := by
    intro index s new found isVariable here
    have declared : r'.declarations[index]? = some (s.scope, s.name) := by
      rw [Registry.declarations_getElem?, found]
      rfl
    have size : r.declarations.length = r.size := List.length_map _
    rw [grows.declarations_eq, List.getElem?_append_right (by omega)] at declared
    have inside := grows.inside _ (List.mem_of_getElem? declared)
    rw [here] at inside
    exact absurd inside (scope.not_within_child segment)

theorem add {s : Symbol} (new : (s.scope, s.name) ∉ r.declarations)
    (symbols : r'.symbols = r.symbols ++ [s])
    (isVariable : s.kind.isVariable = true → r.size ∈ front) :
    Grows r r' s.scope front [(s.scope, s.name)] where
  extend := ⟨[s], symbols.symm⟩
  distinct := fun distinct => Registry.nodup_append distinct new symbols
  declarations_eq := Registry.declarations_append symbols
  inside := List.forall_mem_singleton.mpr s.scope.within_self
  locals := by
    intro index s' old found isVariable' here
    have bound := (List.getElem?_eq_some_iff.mp found).1
    rw [symbols, List.length_append, List.length_singleton] at bound
    obtain rfl : index = r.size := Nat.le_antisymm (Nat.le_of_lt_succ bound) old
    rw [Registry.get?, symbols, Registry.size, List.getElem?_concat_length] at found
    obtain rfl := Option.some.inj found
    exact isVariable isVariable'

/-- In a scope in which nothing was declared before, the variables are those that were added. -/
theorem declaredIn_subset (grows : Grows r r' scope front added)
    (outside : ∀ d ∈ r.declarations, ¬ d.1.within scope = true) : r'.declaredIn scope ⊆ front := by
  intro index member
  obtain ⟨s, found, isVariable, here⟩ := Grammar.mem_declaredIn_iff.mp member
  refine grows.locals (Nat.le_of_not_lt fun old => ?_) found isVariable here
  obtain ⟨t, known⟩ : ∃ t, r.get? index = some t := ⟨_, List.getElem?_eq_getElem old⟩
  have there := grows.extend.get? known
  rw [found] at there
  have declared : r.declarations[index]? = some (s.scope, s.name) := by
    rw [Registry.declarations_getElem?, known, ← there]
    rfl
  refine outside _ (List.mem_of_getElem? declared) ?_
  rw [here]
  exact scope.within_self

end Grows

/-- What is declared inside of a scope belongs to a function in that scope or to one of the blocks
that are opened already. -/
structure Fresh (declared : List Declaration) (scope : Scope) (opened : Nat) : Prop where
  named : ∀ d ∈ declared, ∀ n : Nat, d.2 ≠ toString n
  inside : ∀ d ∈ declared, ∀ segment, d.1.within (scope.child segment) = true →
    (scope, segment) ∈ declared ∨ ∃ n < opened, segment = toString n

namespace Fresh

variable {declared added : List Declaration} {scope : Scope} {opened : Nat} {segment : String}

theorem block (fresh : Fresh declared scope opened) :
    ∀ d ∈ declared, ¬ d.1.within (scope.child (toString opened)) = true := by
  intro d member within
  rcases fresh.inside d member _ within with function | ⟨n, less, same⟩
  · exact fresh.named _ function opened rfl
  · exact absurd (Grammar.toString_inj same) (Nat.ne_of_gt less)

theorem function {word : List Char} (fresh : Fresh declared scope opened)
    (named : Grammar.isName word = true) (new : (scope, String.ofList word) ∉ declared) :
    ∀ d ∈ declared, ¬ d.1.within (scope.child (String.ofList word)) = true := by
  intro d member within
  rcases fresh.inside d member _ within with function | ⟨n, less, same⟩
  · exact new function
  · exact Grammar.ne_toString_of_isName named n same

/-- A scope in which nothing is declared deeper inside is fresh itself. -/
theorem enter (named : ∀ d ∈ declared, ∀ n : Nat, d.2 ≠ toString n)
    (nothing : ∀ d ∈ declared, d.1 = scope ∨ ¬ d.1.within scope = true) :
    Fresh declared scope 0 where
  named := named
  inside := by
    intro d member segment within
    rcases nothing d member with rfl | outside
    · exact absurd within (d.1.not_within_child segment)
    · exact absurd (Scope.within_trans within (scope.child_within segment)) outside

/-- In the body of a new function nothing is declared but its parameters. -/
theorem body {word : List Char} {params : List String} (fresh : Fresh declared scope opened)
    (named : Grammar.isName word = true) (new : (scope, String.ofList word) ∉ declared)
    (names : ∀ param ∈ params, ∀ n : Nat, param ≠ toString n) :
    Fresh (declared ++ (params.map (scope.child (String.ofList word), ·) ++
      [(scope, String.ofList word)])) (scope.child (String.ofList word)) 0 := by
  apply enter
  · refine List.forall_mem_append.mpr ⟨fresh.named, List.forall_mem_append.mpr ⟨?_, ?_⟩⟩
    · exact List.forall_mem_map.mpr names
    · exact List.forall_mem_singleton.mpr (Grammar.ne_toString_of_isName named)
  · refine List.forall_mem_append.mpr ⟨?_, List.forall_mem_append.mpr ⟨?_, ?_⟩⟩
    · exact fun d member => .inr (fresh.function named new d member)
    · exact List.forall_mem_map.mpr fun param _ => .inl rfl
    · exact List.forall_mem_singleton.mpr (.inr (scope.not_within_child _))

theorem add (fresh : Fresh declared scope opened) {opened' : Nat} (later : opened ≤ opened')
    (named : ∀ d ∈ added, ∀ n : Nat, d.2 ≠ toString n)
    (inside : ∀ d ∈ added, ∀ segment, d.1.within (scope.child segment) = true →
      (scope, segment) ∈ added ∨ ∃ n < opened', segment = toString n) :
    Fresh (declared ++ added) scope opened' where
  named := List.forall_mem_append.mpr ⟨fresh.named, named⟩
  inside := by
    intro d member segment within
    rw [List.mem_append]
    rcases List.mem_append.mp member with old | new
    · exact (fresh.inside d old segment within).imp .inl
        fun ⟨n, less, same⟩ => ⟨n, Nat.lt_of_lt_of_le less later, same⟩
    · exact (inside d new segment within).imp .inr id

/-- Behind a block that has declared all of `added`. -/
theorem behindBlock (fresh : Fresh declared scope opened)
    (named : ∀ d ∈ declared ++ added, ∀ n : Nat, d.2 ≠ toString n)
    (within : ∀ d ∈ added, d.1.within (scope.child (toString opened)) = true) :
    Fresh (declared ++ added) scope (opened + 1) := by
  refine fresh.add (Nat.le_succ _) (List.forall_mem_append.mp named).2 ?_
  intro d member segment deeper
  have same := Scope.segment_eq deeper (within d member)
  exact .inr ⟨opened, Nat.lt_succ_self _, same⟩

/-- Behind a function whose body has declared all of `added`. -/
theorem behindFunction {name : String} {params : List String} (fresh : Fresh declared scope opened)
    (named : ∀ d ∈ declared ++ (params.map (scope.child name, ·) ++ [(scope, name)] ++ added),
      ∀ n : Nat, d.2 ≠ toString n)
    (within : ∀ d ∈ added, d.1.within (scope.child name) = true) :
    Fresh (declared ++ (params.map (scope.child name, ·) ++ [(scope, name)] ++ added)) scope
      (opened + 1) := by
  have itself :
      (scope, name) ∈ params.map (scope.child name, ·) ++ [(scope, name)] ++ added := by
    simp
  refine fresh.add (Nat.le_succ _) (List.forall_mem_append.mp named).2 ?_
  intro d member segment deeper
  suffices inside : d.1.within (scope.child name) = true by
    rw [Scope.segment_eq deeper inside]
    exact .inl itself
  rcases List.mem_append.mp member with before | later
  · rcases List.mem_append.mp before with param | here
    · obtain ⟨word, -, rfl⟩ := List.mem_map.mp param
      exact Scope.within_self _
    · obtain rfl := List.mem_singleton.mp here
      exact absurd deeper (scope.not_within_child segment)
  · exact within d later

end Fresh

namespace Stmt

mutual

/-- A block resets variables that are declared in it, and no others. -/
def Tidy : Stmt → Prop
  | .assign _ _ _ => True
  | .declare _ => True
  | .block _ declared body => declared ⊆ localsOf body ∧ TidyAll body
  | .function _ _ _ body => TidyAll body

def TidyAll : List Stmt → Prop
  | [] => True
  | stmt :: rest => stmt.Tidy ∧ TidyAll rest

end

end Stmt

end StackScript
