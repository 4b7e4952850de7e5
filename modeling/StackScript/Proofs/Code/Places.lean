import StackScript.Proofs.Code.Chunks

namespace StackScript

/-! The places of the instructions in the code of a listing. A linear scan of the code comes by
these places and no others. -/

namespace Instruction

theorem width_pos (i : Instruction) : 0 < i.width := by
  rw [width_eq]
  exact Nat.succ_pos _

theorem target?_shift (base : Nat) (i : Instruction) :
    (i.shift base).target? = i.target?.map (· + UInt32.ofNat base) := by
  cases i <;> rfl

theorem jumpOffsets_shift (base : Nat) (i : Instruction) :
    CodeUnit.jumpOffsets (i.shift base) = CodeUnit.jumpOffsets i := by
  simp only [CodeUnit.jumpOffsets, target?_shift, Option.isSome_map]

end Instruction

namespace Listing

/-- The instructions as they stand from an offset on, each with its place. -/
def places : (offset : Nat) → Listing → List (Nat × Instruction)
  | _, [] => []
  | offset, i :: rest => (offset, i.shift offset) :: places (offset + i.width) rest

theorem places_append (offset : Nat) (front back : Listing) :
    places offset (front ++ back) = places offset front ++ places (offset + width front) back := by
  induction front generalizing offset with
  | nil => simp [places]
  | cons i front induction => simp [places, induction, Nat.add_assoc]

theorem exists_of_mem_places {offset place : Nat} {listing : Listing} {i : Instruction}
    (member : (place, i) ∈ listing.places offset) :
    ∃ j ∈ listing, i = j.shift place ∧ offset ≤ place ∧ place < offset + listing.width := by
  induction listing generalizing offset with
  | nil => cases member
  | cons j rest induction =>
      have positive := j.width_pos
      rw [width_cons]
      rcases List.mem_cons.mp member with same | member
      · cases same
        exact ⟨j, List.mem_cons_self, rfl, Nat.le_refl _, by omega⟩
      · obtain ⟨k, inside, rfl, later, earlier⟩ := induction member
        exact ⟨k, List.mem_cons_of_mem j inside, rfl, by omega, by omega⟩

theorem target?_of_mem_places {offset place : Nat} {listing : Listing} {i : Instruction}
    (member : (place, i) ∈ listing.places offset) (plain : ∀ j ∈ listing, j.target? = none) :
    i.target? = none := by
  obtain ⟨j, inside, rfl, -⟩ := exists_of_mem_places member
  rw [Instruction.target?_shift, plain j inside]
  rfl

/-- The code addresses of a listing are those of the jumps at their places. -/
theorem operandOffsets_places (offset : Nat) (listing : Listing) :
    operandOffsets (listing.places offset) = CodeUnit.jumpsFrom offset listing := by
  induction listing generalizing offset with
  | nil => rfl
  | cons i rest induction =>
      rw [places, operandOffsets, List.flatMap_cons, Instruction.jumpOffsets_shift]
      exact congrArg _ (induction (offset + i.width))

theorem nodup_operandOffsets (offset : Nat) (listing : Listing) :
    (operandOffsets (listing.places offset)).Nodup := by
  induction listing generalizing offset with
  | nil => exact .nil
  | cons i rest induction =>
      rw [places, operandOffsets, List.flatMap_cons, List.nodup_append]
      refine ⟨?_, induction (offset + i.width), ?_⟩
      · rw [CodeUnit.jumpOffsets]
        split
        · exact List.nodup_cons.mpr ⟨List.not_mem_nil, .nil⟩
        · exact .nil
      · rintro first here _ there rfl
        obtain ⟨place, j, member, -, next⟩ := mem_operandOffsets.mp there
        obtain ⟨-, -, -, later, -⟩ := exists_of_mem_places member
        have positive := i.width_pos
        obtain ⟨one, listed, same⟩ := List.mem_map.mp here
        rw [CodeUnit.jumpOffsets] at listed
        split at listed
        · obtain rfl := List.mem_singleton.mp listed
          omega
        · cases listed

/-- Each instruction of a listing is a chunk of its code. -/
theorem chunked {listing : Listing} (clean : ∀ i ∈ listing, i.NulFree) (offset : Nat) :
    Chunked offset (listing.bytes offset) (listing.places offset) := by
  induction listing generalizing offset with
  | nil => exact .nil offset
  | cons i rest induction =>
      obtain ⟨first, others⟩ := List.forall_mem_cons.mp clean
      have width : (i.shift offset).encode.length = i.width := Instruction.width_shift offset i
      have reads : Instruction.IsChunk (i.shift offset).encode (i.shift offset) :=
        Instruction.isChunk_encode (first.shift offset)
      rw [bytes_cons, places]
      exact .cons reads (width ▸ induction others (offset + i.width))

end Listing

theorem mapM_instructions (places : List (Nat × Instruction)) :
    (places.map fun place => (place.1, CodeUnit.Site.instruction place.2)).mapM (fun
      | (offset, .instruction instruction) => some (offset, instruction)
      | (_, .invalid _) => none) = some places := by
  induction places with
  | nil => rfl
  | cons place places induction =>
      rw [List.map_cons, List.mapM_cons, induction]
      rfl

/-- Code decodes from one end to the other if it is a row of chunks. -/
theorem instructions?_eq_some_iff {unit : CodeUnit} {places : List (Nat × Instruction)} :
    unit.instructions? = some places ↔ Chunked 0 unit.code places := by
  constructor
  · exact Chunked.of_sites (Nat.le_refl _)
  · intro chunked
    rw [CodeUnit.instructions?, CodeUnit.sites, CodeUnit.size, chunked.sites (Nat.le_refl _)]
    exact mapM_instructions places

theorem Listing.instructions?_eq {unit : CodeUnit} {listing : Listing}
    (holds : unit.Holds listing) (clean : ∀ i ∈ listing, i.NulFree) :
    unit.instructions? = some (listing.places 0) := by
  rw [instructions?_eq_some_iff, holds.code]
  exact Listing.chunked clean 0

/-! Jumps that stay in a listing. -/

namespace Listing

variable {offset place : Nat} {front back listing : Listing}

/-- A place of the listing, or the one right behind it. -/
def Reaches (offset : Nat) (listing : Listing) (place : Nat) : Prop :=
  place ∈ (listing.places offset).map Prod.fst ∨ place = offset + listing.width

theorem Reaches.start (offset : Nat) (listing : Listing) : Reaches offset listing offset := by
  cases listing with
  | nil => exact .inr rfl
  | cons i rest => exact .inl List.mem_cons_self

theorem Reaches.append_right (reaches : Reaches (offset + front.width) back place) :
    Reaches offset (front ++ back) place := by
  rw [Reaches, places_append, List.map_append, List.mem_append, width_append, ← Nat.add_assoc]
  exact reaches.imp_left .inr

theorem Reaches.append_left (reaches : Reaches offset front place) :
    Reaches offset (front ++ back) place := by
  rcases reaches with inside | rfl
  · refine .inl ?_
    rw [places_append, List.map_append, List.mem_append]
    exact .inl inside
  · exact (Reaches.start _ back).append_right

/-- Jumps go on, to places of the listing or right behind it. -/
def Inward (offset : Nat) (listing : Listing) : Prop :=
  ∀ place i target, (place, i) ∈ listing.places offset → i.target? = some target →
    place < target.toNat ∧ Reaches offset listing target.toNat

theorem Inward.plain (plain : ∀ j ∈ listing, j.target? = none) : Inward offset listing := by
  intro place i target member jumps
  rw [target?_of_mem_places member plain] at jumps
  cases jumps

theorem Inward.append (first : front.Inward offset) (second : back.Inward (offset + front.width)) :
    (front ++ back).Inward offset := by
  intro place i target member jumps
  rw [places_append, List.mem_append] at member
  rcases member with here | there
  · obtain ⟨later, reaches⟩ := first place i target here jumps
    exact ⟨later, reaches.append_left⟩
  · obtain ⟨later, reaches⟩ := second place i target there jumps
    exact ⟨later, reaches.append_right⟩

/-- Jumps go on, to places of the listing. -/
def Closed (offset : Nat) (listing : Listing) : Prop :=
  ∀ place i target, (place, i) ∈ listing.places offset → i.target? = some target →
    place < target.toNat ∧ target.toNat ∈ (listing.places offset).map Prod.fst

/-- An instruction behind the listing that is no jump. -/
theorem Inward.closed {last : Instruction} (inward : front.Inward offset)
    (plain : last.target? = none) : (front ++ [last]).Closed offset := by
  intro place i target member jumps
  rw [places_append, List.mem_append] at member
  rw [places_append, List.map_append, List.mem_append]
  rcases member with here | there
  · obtain ⟨later, inside | behind⟩ := inward place i target here jumps
    · exact ⟨later, .inl inside⟩
    · refine ⟨later, .inr ?_⟩
      rw [behind]
      exact List.mem_cons_self
  · rw [target?_of_mem_places there (List.forall_mem_singleton.mpr plain)] at jumps
    cases jumps

theorem Closed.plain (plain : ∀ j ∈ listing, j.target? = none) : Closed offset listing := by
  intro place i target member jumps
  rw [target?_of_mem_places member plain] at jumps
  cases jumps

end Listing

end StackScript
