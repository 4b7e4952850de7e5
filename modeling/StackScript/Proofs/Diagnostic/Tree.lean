import StackScript.Diagnostic.Tree
import StackScript.Proofs.Source.Place

namespace StackScript

/-! Trees of diagnostics that only name places of the source. -/

/-- A cause other than the outcome of the whole compilation. -/
def Cause.isFailure (cause : Cause) : Bool :=
  cause ≠ .ok && cause ≠ .error

namespace Diagnostic

mutual

/-- A failure at a place of the source, not in front of `low`; and so is each node below, not in
front of its parent. -/
def Sound (bytes : List UInt8) : (low : Nat) → Diagnostic → Prop
  | low, .node position cause _ children =>
      low ≤ position.offset ∧ position.Marks bytes ∧ cause.isFailure = true ∧
        SoundAll bytes position.offset children

def SoundAll (bytes : List UInt8) : (low : Nat) → List Diagnostic → Prop
  | _, [] => True
  | low, child :: rest => child.Sound bytes low ∧ SoundAll bytes low rest

end

variable {bytes : List UInt8} {low low' : Nat} {d : Diagnostic} {ds ds' : List Diagnostic}

theorem soundAll_iff : SoundAll bytes low ds ↔ ∀ d ∈ ds, d.Sound bytes low := by
  induction ds with
  | nil => simp [SoundAll]
  | cons d ds induction => rw [SoundAll, induction, List.forall_mem_cons]

theorem SoundAll.append (front : SoundAll bytes low ds) (back : SoundAll bytes low ds') :
    SoundAll bytes low (ds ++ ds') := by
  rw [soundAll_iff] at front back ⊢
  exact List.forall_mem_append.mpr ⟨front, back⟩

theorem Sound.lower (sound : d.Sound bytes low) (le : low' ≤ low) : d.Sound bytes low' := by
  cases d with
  | node position cause confidence children =>
      obtain ⟨behind, others⟩ := sound
      exact ⟨Nat.le_trans le behind, others⟩

theorem SoundAll.lower (sound : SoundAll bytes low ds) (le : low' ≤ low) :
    SoundAll bytes low' ds := by
  rw [soundAll_iff] at sound ⊢
  exact fun d member => (sound d member).lower le

theorem soundAll_failure {source : List Char} {c : Cursor} {cause : Cause}
    (stands : c.Stands source low) (failure : cause.isFailure = true)
    (sound : SoundAll (Text.Utf8.encode source) c.position.offset ds) :
    SoundAll (Text.Utf8.encode source) low [.failure c.position cause ds] :=
  ⟨⟨stands.low_le, stands.marks, failure, sound⟩, trivial⟩

theorem soundAll_leaf {source : List Char} {c : Cursor} {cause : Cause}
    (stands : c.Stands source low) (failure : cause.isFailure = true) :
    SoundAll (Text.Utf8.encode source) low [leaf c.position cause] :=
  soundAll_failure stands failure trivial

/-! What a report takes from a tree. -/

mutual

theorem Sound.deepest : ∀ {low : Nat} {d : Diagnostic}, d.Sound bytes low →
    d.deepest.Sound bytes low
  | _, .node _ _ _ [], sound => sound
  | _, .node _ _ _ (child :: rest), sound => by
      obtain ⟨behind, -, -, children⟩ := sound
      exact (children.deepest (List.cons_ne_nil child rest) _).lower behind

theorem SoundAll.deepest : ∀ {low : Nat} {ds : List Diagnostic}, SoundAll bytes low ds →
    ds ≠ [] → ∀ default : Diagnostic, (deepestOf default ds).Sound bytes low
  | _, [], _, nonempty, _ => absurd rfl nonempty
  | _, [_], sound, _, _ => sound.1.deepest
  | _, _ :: child' :: rest, sound, _, default =>
      sound.2.deepest (List.cons_ne_nil child' rest) default

end

mutual

theorem Sound.furthest : ∀ {low : Nat} {d : Diagnostic}, d.Sound bytes low →
    d.furthest.Marks bytes
  | _, .node _ _ _ _, sound => by
      obtain ⟨-, marks, -, children⟩ := sound
      exact children.furthest marks

theorem SoundAll.furthest : ∀ {low : Nat} {ds : List Diagnostic} {best : Position},
    SoundAll bytes low ds → best.Marks bytes → (furthestOf best ds).Marks bytes
  | _, [], _, _, marks => marks
  | _, _ :: _, _, sound, marks => by
      rw [furthestOf]
      refine sound.2.furthest ?_
      split
      · exact sound.1.furthest
      · exact marks

end

end Diagnostic

end StackScript
