import Mathlib.Data.List.Pairwise
import StackScript.Proofs.Code.Places

namespace StackScript.CodeUnit

/-! Sweeps over arbitrary code: a lenient one that passes over what cannot be decoded byte by byte,
and a strict one that gives up there. The lenient one divides all of the code into places. -/

open Instruction

variable {unit : CodeUnit} {offset next : Nat} {i : Instruction} {byte : UInt8}
variable {sites : List (Nat × Site)} {place : Nat × Site}
  {found : Option (List (Nat × Instruction))}

/-- How many bytes of the code a place takes up. -/
def Site.width : Site → Nat
  | .instruction i => i.width
  | .invalid _ => 1

/-- The places that the lenient sweep comes by from an offset on. -/
inductive Sweeps (unit : CodeUnit) : (offset : Nat) → List (Nat × Site) → Prop
  | done {offset : Nat} (ended : unit.size ≤ offset) : Sweeps unit offset []
  | instruction {offset next : Nat} {i : Instruction} {sites : List (Nat × Site)}
      (decoded : unit.decodeAt? offset = some (i, next)) (rest : Sweeps unit next sites) :
      Sweeps unit offset ((offset, .instruction i) :: sites)
  | invalid {offset : Nat} {byte : UInt8} {sites : List (Nat × Site)}
      (read : unit.code[offset]? = some byte) (refused : unit.decodeAt? offset = none)
      (rest : Sweeps unit (offset + 1) sites) :
      Sweeps unit offset ((offset, .invalid byte) :: sites)

/-- What the strict sweep from an offset on gives. -/
inductive Decodes (unit : CodeUnit) :
    (offset : Nat) → (found : Option (List (Nat × Instruction))) → Prop
  | done {offset : Nat} (ended : unit.size ≤ offset) : Decodes unit offset (some [])
  | instruction {offset next : Nat} {i : Instruction}
      {found : Option (List (Nat × Instruction))}
      (decoded : unit.decodeAt? offset = some (i, next)) (rest : Decodes unit next found) :
      Decodes unit offset (found.map ((offset, i) :: ·))
  | refused {offset : Nat} (inside : offset < unit.size)
      (refused : unit.decodeAt? offset = none) : Decodes unit offset none

/-! Progress. -/

theorem decodeAt?_takes (decoded : unit.decodeAt? offset = some (i, next)) :
    0 < i.width ∧ next = offset + i.width ∧ offset + i.width ≤ unit.size := by
  simp only [decodeAt?, Option.map_eq_some_iff] at decoded
  obtain ⟨⟨j, width⟩, decoded, equal⟩ := decoded
  cases equal
  obtain ⟨chunk, rest, whole, rfl, reads⟩ := exists_chunk decoded
  have total := congrArg List.length whole
  rw [List.length_drop, List.length_append, reads.length_eq] at total
  have positive := reads.length_pos
  rw [reads.length_eq] at positive ⊢
  have inside : offset + j.width ≤ unit.size := by
    rw [size]
    omega
  exact ⟨positive, rfl, inside⟩

theorem decodeAt?_progress (decoded : unit.decodeAt? offset = some (i, next)) :
    offset < next ∧ next ≤ unit.size := by
  obtain ⟨positive, rfl, inside⟩ := decodeAt?_takes decoded
  omega

theorem lt_size_of_getElem? (read : unit.code[offset]? = some byte) : offset < unit.size :=
  (List.getElem?_eq_some_iff.mp read).1

theorem decodeAt?_inside (decoded : unit.decodeAt? offset = some (i, next)) :
    offset < unit.size := by
  obtain ⟨later, inside⟩ := decodeAt?_progress decoded
  omega

/-! Both sweeps end, in one way. -/

theorem sweeps_sitesFrom {fuel : Nat} (enough : (unit.code.drop offset).length ≤ fuel) :
    unit.Sweeps offset (sitesFrom fuel offset (unit.code.drop offset)) := by
  induction fuel generalizing offset with
  | zero =>
      refine .done ?_
      rw [List.length_drop] at enough
      rw [size]
      omega
  | succ fuel induction =>
      cases rest : unit.code.drop offset with
      | nil => exact .done (List.drop_eq_nil_iff.mp rest)
      | cons byte others =>
          have behind (n : Nat) : (byte :: others).drop n = unit.code.drop (offset + n) := by
            rw [← rest, List.drop_drop]
          have left := congrArg List.length rest
          rw [List.length_drop, List.length_cons] at left
          rw [List.length_drop] at enough
          rw [sitesFrom]
          cases decoded : decode? (byte :: others) with
          | none =>
              have read : unit.code[offset]? = some byte := by
                rw [← Nat.add_zero offset, ← List.getElem?_drop, rest]
                rfl
              have refused : unit.decodeAt? offset = none := by
                rw [decodeAt?, rest, decoded]
                rfl
              have same : others = unit.code.drop (offset + 1) := behind 1
              refine .invalid read refused (same ▸ induction ?_)
              rw [List.length_drop]
              omega
          | some found =>
              obtain ⟨i, width⟩ := found
              have decoded : unit.decodeAt? offset = some (i, offset + width) := by
                rw [decodeAt?, rest, decoded]
                rfl
              obtain ⟨later, -⟩ := decodeAt?_progress decoded
              refine .instruction decoded (behind width ▸ induction ?_)
              rw [List.length_drop]
              omega

theorem sweeps_sites (unit : CodeUnit) : unit.Sweeps 0 unit.sites :=
  sweeps_sitesFrom (Nat.le_refl unit.code.length)

theorem Sweeps.unique {sites' : List (Nat × Site)} (sweeps : unit.Sweeps offset sites)
    (sweeps' : unit.Sweeps offset sites') : sites = sites' := by
  induction sweeps generalizing sites' with
  | done ended =>
      cases sweeps' with
      | done => rfl
      | instruction decoded => exact absurd (decodeAt?_inside decoded) (Nat.not_lt.mpr ended)
      | invalid read => exact absurd (lt_size_of_getElem? read) (Nat.not_lt.mpr ended)
  | instruction decoded _ induction =>
      cases sweeps' with
      | done ended => exact absurd (decodeAt?_inside decoded) (Nat.not_lt.mpr ended)
      | instruction decoded' rest' =>
          rw [decoded] at decoded'
          cases decoded'
          rw [induction rest']
      | invalid _ refused => cases decoded.symm.trans refused
  | invalid read refused _ induction =>
      cases sweeps' with
      | done ended => exact absurd (lt_size_of_getElem? read) (Nat.not_lt.mpr ended)
      | instruction decoded => cases decoded.symm.trans refused
      | invalid read' _ rest' =>
          rw [read] at read'
          cases read'
          rw [induction rest']

theorem Decodes.unique {found' : Option (List (Nat × Instruction))}
    (decodes : unit.Decodes offset found) (decodes' : unit.Decodes offset found') :
    found = found' := by
  induction decodes generalizing found' with
  | done ended =>
      cases decodes' with
      | done => rfl
      | instruction decoded => exact absurd (decodeAt?_inside decoded) (Nat.not_lt.mpr ended)
      | refused inside => exact absurd inside (Nat.not_lt.mpr ended)
  | instruction decoded _ induction =>
      cases decodes' with
      | done ended => exact absurd (decodeAt?_inside decoded) (Nat.not_lt.mpr ended)
      | instruction decoded' rest' =>
          rw [decoded] at decoded'
          cases decoded'
          rw [induction rest']
      | refused _ refused => cases decoded.symm.trans refused
  | refused inside refused =>
      cases decodes' with
      | done ended => exact absurd inside (Nat.not_lt.mpr ended)
      | instruction decoded => cases decoded.symm.trans refused
      | refused => rfl

/-! What the two have to do with each other. -/

/-- The instruction of a place, if there is one. -/
def instructionOf? (place : Nat × Site) : Option (Nat × Instruction) :=
  match place with
  | (offset, .instruction i) => some (offset, i)
  | (_, .invalid _) => none

theorem mapM_instruction (offset : Nat) (i : Instruction) (sites : List (Nat × Site)) :
    ((offset, Site.instruction i) :: sites).mapM instructionOf? =
      (sites.mapM instructionOf?).map ((offset, i) :: ·) := by
  rw [List.mapM_cons]
  cases sites.mapM instructionOf? <;> rfl

theorem mapM_invalid (offset : Nat) (byte : UInt8) (sites : List (Nat × Site)) :
    ((offset, Site.invalid byte) :: sites).mapM instructionOf? = none := by
  rw [List.mapM_cons]
  rfl

theorem Sweeps.decodes (sweeps : unit.Sweeps offset sites) :
    unit.Decodes offset (sites.mapM instructionOf?) := by
  induction sweeps with
  | done ended => exact .done ended
  | instruction decoded _ induction =>
      rw [mapM_instruction]
      exact .instruction decoded induction
  | invalid read refused _ _ =>
      rw [mapM_invalid]
      exact .refused (lt_size_of_getElem? read) refused

theorem decodes_instructions? (unit : CodeUnit) : unit.Decodes 0 unit.instructions? :=
  (sweeps_sites unit).decodes

theorem mapM_instructionOf?_eq_some_iff {places : List (Nat × Instruction)} :
    sites.mapM instructionOf? = some places ↔
      sites = places.map fun place => (place.1, .instruction place.2) := by
  constructor
  · intro found
    induction sites generalizing places with
    | nil =>
        cases found
        rfl
    | cons place sites induction =>
        obtain ⟨offset, site⟩ := place
        cases site with
        | instruction i =>
            rw [mapM_instruction, Option.map_eq_some_iff] at found
            obtain ⟨others, found, rfl⟩ := found
            rw [List.map_cons, ← induction found]
        | invalid byte =>
            rw [mapM_invalid] at found
            cases found
  · rintro rfl
    exact mapM_instructions places

theorem mapM_instructionOf?_eq_none_iff :
    sites.mapM instructionOf? = none ↔ ∃ offset byte, (offset, .invalid byte) ∈ sites := by
  induction sites with
  | nil => exact iff_of_false nofun nofun
  | cons place sites induction =>
      obtain ⟨offset, site⟩ := place
      cases site with
      | instruction i =>
          rw [mapM_instruction, Option.map_eq_none_iff, induction]
          simp
      | invalid byte =>
          exact iff_of_true (mapM_invalid offset byte sites) ⟨offset, byte, List.mem_cons_self⟩

/-! How the places divide the code. -/

namespace Sweeps

theorem bounds (sweeps : unit.Sweeps offset sites) (member : place ∈ sites) :
    offset ≤ place.1 ∧ 0 < place.2.width ∧ place.1 + place.2.width ≤ unit.size := by
  induction sweeps with
  | done => cases member
  | instruction decoded _ induction =>
      obtain ⟨positive, rfl, inside⟩ := decodeAt?_takes decoded
      rcases List.mem_cons.mp member with rfl | member
      · exact ⟨Nat.le_refl _, positive, inside⟩
      · obtain ⟨behind, others⟩ := induction member
        exact ⟨by omega, others⟩
  | invalid read _ _ induction =>
      rcases List.mem_cons.mp member with rfl | member
      · exact ⟨Nat.le_refl _, Nat.one_pos, lt_size_of_getElem? read⟩
      · obtain ⟨behind, others⟩ := induction member
        exact ⟨by omega, others⟩

theorem decoded (sweeps : unit.Sweeps offset sites) {place : Nat}
    (member : (place, .instruction i) ∈ sites) :
    unit.decodeAt? place = some (i, place + i.width) := by
  induction sweeps with
  | done => cases member
  | instruction decoded _ induction =>
      rcases List.mem_cons.mp member with equal | member
      · cases equal
        obtain ⟨-, rfl, -⟩ := decodeAt?_takes decoded
        exact decoded
      · exact induction member
  | invalid _ _ _ induction =>
      rcases List.mem_cons.mp member with equal | member
      · cases equal
      · exact induction member

theorem refused (sweeps : unit.Sweeps offset sites) {place : Nat}
    (member : (place, .invalid byte) ∈ sites) :
    unit.code[place]? = some byte ∧ unit.decodeAt? place = none := by
  induction sweeps with
  | done => cases member
  | instruction _ _ induction =>
      rcases List.mem_cons.mp member with equal | member
      · cases equal
      · exact induction member
  | invalid read refused _ induction =>
      rcases List.mem_cons.mp member with equal | member
      · cases equal
        exact ⟨read, refused⟩
      · exact induction member

/-- Each place ends in front of all later ones. -/
theorem apart (sweeps : unit.Sweeps offset sites) :
    sites.Pairwise fun first second => first.1 + first.2.width ≤ second.1 := by
  induction sweeps with
  | done => exact .nil
  | instruction decoded rest induction =>
      refine .cons (fun place member => ?_) induction
      obtain ⟨-, rfl, -⟩ := decodeAt?_takes decoded
      exact (rest.bounds member).1
  | invalid _ _ rest induction =>
      exact .cons (fun place member => (rest.bounds member).1) induction

theorem increasing (sweeps : unit.Sweeps offset sites) :
    (sites.map Prod.fst).Pairwise (· < ·) := by
  rw [List.pairwise_map]
  refine sweeps.apart.imp_of_mem fun {first second} member _ behind => ?_
  have positive := (sweeps.bounds member).2.1
  omega

/-- The first place is where the sweep starts, unless that is the end of the code. -/
theorem start (sweeps : unit.Sweeps offset sites) (inside : offset ≤ unit.size) :
    (sites.head?.map Prod.fst).getD unit.size = offset := by
  cases sweeps with
  | done ended => exact Nat.le_antisymm ended inside
  | instruction => rfl
  | invalid => rfl

/-- Each place ends where the next one starts, and the last one at the end of the code. -/
theorem adjacent (sweeps : unit.Sweeps offset sites) {before after : List (Nat × Site)}
    (split : sites = before ++ place :: after) :
    place.1 + place.2.width = (after.head?.map Prod.fst).getD unit.size := by
  induction sweeps generalizing before with
  | done => cases before <;> cases split
  | instruction decoded rest induction =>
      obtain ⟨-, rfl, inside⟩ := decodeAt?_takes decoded
      cases before with
      | nil =>
          cases split
          exact (rest.start inside).symm
      | cons first before =>
          cases split
          exact induction rfl
  | invalid read _ rest induction =>
      cases before with
      | nil =>
          cases split
          exact (rest.start (lt_size_of_getElem? read)).symm
      | cons first before =>
          cases split
          exact induction rfl

/-- No byte is left out, and none is taken up twice. -/
theorem covers (sweeps : unit.Sweeps offset sites) {position : Nat} (behind : offset ≤ position)
    (inside : position < unit.size) :
    ∃! place, place ∈ sites ∧ place.1 ≤ position ∧ position < place.1 + place.2.width := by
  have one : ∃ place ∈ sites, place.1 ≤ position ∧ position < place.1 + place.2.width := by
    induction sweeps with
    | done ended => omega
    | @instruction offset next i sites decoded rest induction =>
        obtain ⟨-, rfl, -⟩ := decodeAt?_takes decoded
        by_cases here : position < offset + i.width
        · exact ⟨_, List.mem_cons_self, behind, here⟩
        · obtain ⟨place, member, holds⟩ := induction (Nat.not_lt.mp here)
          exact ⟨place, List.mem_cons_of_mem _ member, holds⟩
    | @invalid offset byte sites read refused rest induction =>
        by_cases here : position < offset + 1
        · exact ⟨_, List.mem_cons_self, behind, here⟩
        · obtain ⟨place, member, holds⟩ := induction (Nat.not_lt.mp here)
          exact ⟨place, List.mem_cons_of_mem _ member, holds⟩
  obtain ⟨place, member, start, stop⟩ := one
  refine ⟨place, ⟨member, start, stop⟩, ?_⟩
  rintro other ⟨member', start', stop'⟩
  by_contra different
  have apart : sites.Pairwise fun first second =>
      first.1 + first.2.width ≤ second.1 ∨ second.1 + second.2.width ≤ first.1 :=
    sweeps.apart.imp fun behind => .inl behind
  have symmetric : Std.Symm fun first second : Nat × Site =>
      first.1 + first.2.width ≤ second.1 ∨ second.1 + second.2.width ≤ first.1 :=
    ⟨fun _ _ => Or.symm⟩
  rcases apart.forall member' member different with before | before <;> omega

end Sweeps

end StackScript.CodeUnit
