import Mathlib.Data.List.Nodup
import StackScript.Symbol.Scope

namespace StackScript

/-! Scopes of functions and of blocks in them, and how they are written. -/

/-- A name of a symbol is neither that of a block nor a path. -/
structure IsSegment (name : String) : Prop where
  named : ∀ n : Nat, name ≠ toString n
  undotted : '.' ∉ name.toList

theorem undotted_toString (n : Nat) : '.' ∉ (toString n).toList := by
  rw [show toString n = n.repr from rfl, Nat.toList_repr]
  intro member
  cases Nat.isDigit_of_mem_toDigits (by decide) (by decide) member

namespace Scope

variable {scope scope' : Scope}

theorem within_iff : scope.within scope' = true ↔ scope'.segments <+: scope.segments :=
  List.isPrefixOf_iff_prefix

/-- Of the scopes around a scope there is one for each depth. -/
theorem eq_of_within {inner outer outer' : Scope} (visible : inner.within outer = true)
    (visible' : inner.within outer' = true) (same : outer.depth = outer'.depth) :
    outer = outer' := by
  have front := List.isPrefixOf_iff_prefix.mp visible
  have front' := List.isPrefixOf_iff_prefix.mp visible'
  have length : outer.segments.length = outer'.segments.length := Nat.succ.inj same
  have equal := (List.prefix_of_prefix_length_le front front' (Nat.le_of_eq length)).eq_of_length
    length
  cases outer
  cases outer'
  exact congrArg Scope.mk equal

/-- The scope of a block in blocks of a scope, the outermost first. -/
def below (scope : Scope) (blocks : List Nat) : Scope where
  segments := scope.segments ++ blocks.map toString

theorem below_nil (scope : Scope) : scope.below [] = scope := by
  rw [below, List.map_nil, List.append_nil]

theorem child_below (scope : Scope) (n : Nat) (blocks : List Nat) :
    (scope.child (toString n)).below blocks = scope.below (n :: blocks) := by
  rw [below, child, List.append_assoc]
  rfl

/-- A path that ends in a name does not go on with numbers. -/
theorem eq_of_numbers_behind {front back middle numbers : List String} {name name' : String}
    {blocks : List Nat} (segment : IsSegment name')
    (path : back ++ [name'] = front ++ [name] ++ middle)
    (number : blocks.map toString = middle ++ numbers) : front = back ∧ name = name' := by
  rcases List.eq_nil_or_concat middle with rfl | ⟨others, last, rfl⟩
  · rw [List.append_nil] at path
    obtain ⟨rfl, names⟩ := List.append_inj' path rfl
    exact ⟨rfl, (List.singleton_inj.mp names).symm⟩
  · rw [List.concat_eq_append] at path number
    rw [← List.append_assoc] at path
    obtain ⟨-, names⟩ := List.append_inj' path rfl
    obtain rfl := List.singleton_inj.mp names
    have listed : name' ∈ blocks.map toString := by
      rw [number]
      exact List.mem_append_left _ (List.mem_append_right _ List.mem_cons_self)
    obtain ⟨n, -, equal⟩ := List.mem_map.mp listed
    exact absurd equal.symm (segment.named n)

/-- Whatever stands in blocks of a function tells which function it is. -/
theorem child_below_inj {name name' : String} {blocks blocks' : List Nat}
    (segment : IsSegment name) (segment' : IsSegment name')
    (same : (scope.child name).below blocks = (scope'.child name').below blocks') :
    scope = scope' ∧ name = name' := by
  have segments := congrArg segments same
  rw [below, below, child, child] at segments
  rcases List.append_eq_append_iff.mp segments with ⟨middle, path, number⟩ | ⟨middle, path, number⟩
  · obtain ⟨front, names⟩ := eq_of_numbers_behind segment' path number
    exact ⟨congrArg Scope.mk front, names⟩
  · obtain ⟨front, names⟩ := eq_of_numbers_behind segment path number
    exact ⟨congrArg Scope.mk front.symm, names.symm⟩

/-- No segment holds the character that separates them. -/
def Undotted (scope : Scope) : Prop :=
  ∀ segment ∈ scope.segments, '.' ∉ segment.toList

theorem undotted_root : root.Undotted :=
  List.forall_mem_nil _

theorem Undotted.child (undotted : scope.Undotted) {name : String} (plain : '.' ∉ name.toList) :
    (scope.child name).Undotted :=
  List.forall_mem_append.mpr ⟨undotted, List.forall_mem_singleton.mpr plain⟩

theorem Undotted.below (undotted : scope.Undotted) (blocks : List Nat) :
    (scope.below blocks).Undotted :=
  List.forall_mem_append.mpr
    ⟨undotted, List.forall_mem_map.mpr fun n _ => undotted_toString n⟩

theorem render_injective (undotted : scope.Undotted) (undotted' : scope'.Undotted)
    (same : scope.render = scope'.render) : scope = scope' := by
  have read {scope : Scope} (undotted : scope.Undotted) :
      scope.render.toList.splitOn '.' = ("0" :: scope.segments).map String.toList := by
    rw [render, String.toList_intercalate]
    refine List.splitOn_intercalate _ ?_ (List.cons_ne_nil _ _)
    exact List.forall_mem_map.mpr (List.forall_mem_cons.mpr ⟨by decide, undotted⟩)
  have characters := read undotted
  rw [same, read undotted'] at characters
  have injective : Function.Injective String.toList := fun _ _ => String.toList_injective
  have segments := List.map_injective_iff.mpr injective characters.symm
  exact congrArg Scope.mk (List.cons.inj segments).2

theorem render_child (scope : Scope) (name : String) :
    (scope.child name).render = scope.render ++ "." ++ name := by
  rw [render, child, ← List.cons_append, String.intercalate_append_of_ne_nil
    (List.cons_ne_nil _ _) (List.cons_ne_nil _ _), String.intercalate_singleton]
  rfl

theorem render_below (scope : Scope) (blocks : List Nat) :
    (scope.below blocks).render = ".".intercalate (scope.render :: blocks.map toString) := by
  cases blocks with
  | nil => rw [below_nil, List.map_nil, String.intercalate_singleton]
  | cons n blocks =>
      rw [render, below, List.map_cons, ← List.cons_append, String.intercalate_append_of_ne_nil
        (List.cons_ne_nil _ _) (List.cons_ne_nil _ _), String.intercalate_cons_cons]
      rfl

end Scope

end StackScript
