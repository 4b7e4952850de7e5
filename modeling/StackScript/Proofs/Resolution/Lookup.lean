import StackScript.Proofs.Resolution.Text

namespace StackScript

/-! Looking a name up gives its innermost visible declaration. -/

namespace Registry

variable {r : Registry} {name : String} {scope : Scope} {index : Nat}

theorem find?_innermost (distinct : r.declarations.Nodup)
    (found : r.find? name scope .inherited = some index) :
    ∃ outer, Innermost r.declarations scope name index outer := by
  obtain ⟨s, there, rfl, visible, deepest⟩ := get?_of_find?_inherited found
  have here : r.declarations[index]? = some (s.scope, s.name) := by
    rw [declarations_getElem?, there]
    rfl
  refine ⟨s.scope, here, visible, ?_⟩
  intro index' outer' other visible' apart
  obtain ⟨t, there', same⟩ :=
    Option.map_eq_some_iff.mp ((declarations_getElem? r index').symm.trans other)
  obtain ⟨rfl, named⟩ := Prod.mk.inj same
  have le := deepest index' t there' named visible'
  refine Nat.lt_of_le_of_ne le fun level => apart ?_
  rw [Scope.eq_of_within visible' visible level, ← here] at other
  have inside := (List.getElem?_eq_some_iff.mp here).1
  exact ((List.getElem?_inj inside distinct).mp other.symm).symm

end Registry

end StackScript
