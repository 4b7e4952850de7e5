import StackScript.Proofs.Resolution.Growth
import StackScript.Proofs.Tree.Seating

namespace StackScript

/-! The scopes that statements open. Blocks are numbered and functions have names, so no two of
them have the same scope. -/

namespace Stmt

mutual

/-- The scopes of the blocks and functions in a statement. -/
def scopes : Stmt → List Scope
  | .assign _ _ _ => []
  | .declare _ => []
  | .block inside _ body => inside :: scopesOf body
  | .function inside _ _ body => inside :: scopesOf body

def scopesOf : List Stmt → List Scope
  | [] => []
  | stmt :: rest => stmt.scopes ++ scopesOf rest

end

variable {r : Registry}

mutual

theorem Seated.undotted_scopes {lifetime : Lifetime} {scope : Scope} :
    (stmt : Stmt) → stmt.Seated r lifetime scope → scope.Undotted →
      ∀ inner ∈ stmt.scopes, inner.Undotted
  | .assign _ _ _, _, _ => List.forall_mem_nil _
  | .declare _, _, _ => List.forall_mem_nil _
  | .block _ _ body, ⟨⟨n, here⟩, _, all⟩, undotted => by
      have inside := undotted.child (undotted_toString n)
      rw [← here] at inside
      exact List.forall_mem_cons.mpr ⟨inside, SeatedAll.undotted_scopes body all inside⟩
  | .function _ _ _ body, ⟨_, _, _, _, segment, here, _, all⟩, undotted => by
      have inside := undotted.child segment.undotted
      rw [← here] at inside
      exact List.forall_mem_cons.mpr ⟨inside, SeatedAll.undotted_scopes body all inside⟩

theorem SeatedAll.undotted_scopes {lifetime : Lifetime} {scope : Scope} :
    (stmts : List Stmt) → SeatedAll r lifetime scope stmts → scope.Undotted →
      ∀ inner ∈ scopesOf stmts, inner.Undotted
  | [], _, _ => List.forall_mem_nil _
  | stmt :: rest, ⟨first, others⟩, undotted =>
      List.forall_mem_append.mpr
        ⟨Seated.undotted_scopes stmt first undotted, SeatedAll.undotted_scopes rest others undotted⟩

end

end Stmt

theorem Registry.Extends.declarations {r r' : Registry} (grown : r.Extends r') :
    r.declarations ⊆ r'.declarations :=
  (grown.map _).subset

/-- A segment below a scope that is given away between two places: to one of the blocks with these
numbers, or to a function that is declared between them. -/
inductive Segment (r r' : Registry) (scope : Scope) (first last : Nat) : String → Prop
  | block {n : Nat} (le : first ≤ n) (lt : n < last) : Segment r r' scope first last (toString n)
  | function {name : String} (segment : IsSegment name) (new : (scope, name) ∉ r.declarations)
      (declared : (scope, name) ∈ r'.declarations) : Segment r r' scope first last name

/-- Statements in a scope open these scopes, each of them once and below a segment of its own. -/
structure Opens (r : Registry) (scope : Scope) (first : Nat) (scopes : List Scope) (last : Nat)
    (r' : Registry) : Prop where
  grown : r.Extends r'
  le : first ≤ last
  distinct : scopes.Nodup
  below : ∀ inner ∈ scopes, ∃ segment, Segment r r' scope first last segment ∧
    inner.within (scope.child segment) = true

namespace Segment

variable {r r' r'' : Registry} {scope : Scope} {first middle last : Nat} {segment : String}

theorem before (given : Segment r r' scope first middle segment) (grown : r'.Extends r'')
    (le : middle ≤ last) : Segment r r'' scope first last segment := by
  cases given with
  | block from' lt => exact .block from' (Nat.lt_of_lt_of_le lt le)
  | function named new declared => exact .function named new (grown.declarations declared)

theorem behind (given : Segment r' r'' scope middle last segment) (grown : r.Extends r')
    (le : first ≤ middle) : Segment r r'' scope first last segment := by
  cases given with
  | block from' lt => exact .block (Nat.le_trans le from') lt
  | function named new declared =>
      exact .function named (fun old => new (grown.declarations old)) declared

/-- What is given away before is not given away again. -/
theorem apart (given : Segment r r' scope first middle segment)
    (given' : Segment r' r'' scope middle last segment) : False := by
  generalize same : segment = segment' at given'
  cases given with
  | block _ lt =>
      cases given' with
      | block le _ => exact Nat.not_le_of_lt lt (Grammar.toString_inj same ▸ le)
      | function named _ _ => exact named.named _ same.symm
  | function named _ declared =>
      subst same
      cases given' with
      | block _ _ => exact named.named _ rfl
      | function _ new _ => exact new declared

end Segment

namespace Opens

variable {r r₁ r₂ r' r'' : Registry} {scope : Scope} {first middle last : Nat}
variable {front back : List Scope} {segment : String}

theorem none (grown : r.Extends r') (scope : Scope) (first : Nat) :
    Opens r scope first [] first r' where
  grown := grown
  le := Nat.le_refl first
  distinct := .nil
  below := nofun

theorem append (before : Opens r scope first front middle r')
    (behind : Opens r' scope middle back last r'') :
    Opens r scope first (front ++ back) last r'' where
  grown := before.grown.trans behind.grown
  le := Nat.le_trans before.le behind.le
  distinct := by
    refine List.nodup_append.mpr ⟨before.distinct, behind.distinct, ?_⟩
    rintro inner member _ member' rfl
    obtain ⟨segment, given, within⟩ := before.below inner member
    obtain ⟨segment', given', within'⟩ := behind.below inner member'
    obtain rfl := Scope.segment_eq within within'
    exact given.apart given'
  below := by
    refine List.forall_mem_append.mpr ⟨fun inner member => ?_, fun inner member => ?_⟩
    · obtain ⟨segment, given, within⟩ := before.below inner member
      exact ⟨segment, given.before behind.grown behind.le, within⟩
    · obtain ⟨segment, given, within⟩ := behind.below inner member
      exact ⟨segment, given.behind before.grown before.le, within⟩

/-- The scope of a block or a function is in front of those in it. -/
theorem enter {inner : Nat} (given : Segment r r' scope first last segment) (le : first ≤ last)
    (grown : r.Extends r') (body : Opens r₁ (scope.child segment) 0 front inner r₂) :
    Opens r scope first (scope.child segment :: front) last r' where
  grown := grown
  le := le
  distinct := by
    refine List.nodup_cons.mpr ⟨fun member => ?_, body.distinct⟩
    obtain ⟨deeper, -, within⟩ := body.below _ member
    exact Scope.not_within_child _ deeper within
  below := by
    refine List.forall_mem_cons.mpr ⟨⟨segment, given, Scope.within_self _⟩, ?_⟩
    intro scope' member
    obtain ⟨deeper, -, within⟩ := body.below scope' member
    exact ⟨segment, given, Scope.within_trans within (Scope.child_within _ deeper)⟩

/-- None of the scopes is the one around them. -/
theorem notMem (opens : Opens r scope first front last r') : scope ∉ front := by
  intro member
  obtain ⟨segment, -, within⟩ := opens.below scope member
  exact scope.not_within_child segment within

end Opens

end StackScript
