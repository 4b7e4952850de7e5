import StackScript.Text.Utf8

namespace StackScript.Text.Utf8

/-! Reading UTF-8 gives back the text that was written. -/

theorem sequenceLength_eq (lead : UInt8) :
    sequenceLength lead =
      if lead.toNat < 0x80 then some 1
      else if 0xc2 ≤ lead.toNat ∧ lead.toNat ≤ 0xdf then some 2
      else if 0xe0 ≤ lead.toNat ∧ lead.toNat ≤ 0xef then some 3
      else if 0xf0 ≤ lead.toNat ∧ lead.toNat ≤ 0xf4 then some 4
      else none := by
  simp [sequenceLength, UInt8.lt_iff_toNat_lt, UInt8.le_iff_toNat_le]

theorem isSecond_iff (lead second : UInt8) :
    isSecond lead second ↔
      (if lead.toNat = 0xe0 then 0xa0 else if lead.toNat = 0xf0 then 0x90 else 0x80) ≤
          second.toNat ∧
        second.toNat ≤ (if lead.toNat = 0xed then 0x9f else if lead.toNat = 0xf4 then 0x8f else 0xbf) := by
  simp only [isSecond, Bool.and_eq_true, decide_eq_true_eq, UInt8.le_iff_toNat_le, ← UInt8.toNat_inj]
  simp only [apply_ite UInt8.toNat]
  rfl

theorem isContinuation_iff (byte : UInt8) :
    isContinuation byte ↔ 0x80 ≤ byte.toNat ∧ byte.toNat ≤ 0xbf := by
  simp [isContinuation, UInt8.le_iff_toNat_le]

theorem toNat_byte {n : Nat} (small : n < 256) : (UInt8.ofNat n).toNat = n :=
  UInt8.toNat_ofNat_of_lt' small

/-- The bytes after the lead byte carry six bits each. -/
theorem continuation_tail {value seen missing n : Nat} (rest : List UInt8) :
    continuation value seen (missing + 1) (UInt8.ofNat (n % 64 + 0x80) :: rest) =
      continuation (value * 64 + n % 64) (seen + 1) missing rest := by
  have byte : (UInt8.ofNat (n % 64 + 0x80)).toNat = n % 64 + 0x80 := toNat_byte (by omega)
  have accepted : isContinuation (UInt8.ofNat (n % 64 + 0x80)) = true := by
    rw [isContinuation_iff, byte]
    omega
  have value : (n % 64 + 0x80) % 64 = n % 64 := by omega
  rw [continuation, if_pos accepted, payload, byte, value]

theorem front_one {v : Nat} (range : v ≤ 0x7f) (rest : List UInt8) :
    front (UInt8.ofNat v) rest = .char (Char.ofNat v) rest := by
  have byte : (UInt8.ofNat v).toNat = v := toNat_byte (by omega)
  have length : sequenceLength (UInt8.ofNat v) = some 1 := by
    rw [sequenceLength_eq, byte, if_pos (by omega)]
  simp [front, length, byte]

theorem front_two {v : Nat} (low : 0x7f < v) (high : v ≤ 0x7ff) (rest : List UInt8) :
    front (UInt8.ofNat (v / 64 % 0x20 + 0xc0)) (UInt8.ofNat (v % 64 + 0x80) :: rest) =
      .char (Char.ofNat v) rest := by
  have lead : (UInt8.ofNat (v / 64 % 0x20 + 0xc0)).toNat = v / 64 + 0xc0 := by
    rw [toNat_byte] <;> omega
  have second : (UInt8.ofNat (v % 64 + 0x80)).toNat = v % 64 + 0x80 := toNat_byte (by omega)
  have length : sequenceLength (UInt8.ofNat (v / 64 % 0x20 + 0xc0)) = some 2 := by
    rw [sequenceLength_eq, lead, if_neg (by omega), if_pos (by omega)]
  have accepted :
      isSecond (UInt8.ofNat (v / 64 % 0x20 + 0xc0)) (UInt8.ofNat (v % 64 + 0x80)) = true := by
    rw [isSecond_iff, lead, second]
    split <;> split <;> (try split) <;> (try split) <;> omega
  have value : (v / 64 + 0xc0) % 32 * 64 + (v % 64 + 0x80) % 64 = v := by omega
  simp only [front, length, accepted, lead, payload, second, if_true]
  exact congrArg (fun n => Front.char (Char.ofNat n) rest) value

theorem front_three {v : Nat} (low : 0x7ff < v) (high : v ≤ 0xffff)
    (scalar : v < 0xd800 ∨ 0xdfff < v) (rest : List UInt8) :
    front (UInt8.ofNat (v / 4096 % 0x10 + 0xe0))
        (UInt8.ofNat (v / 64 % 64 + 0x80) :: UInt8.ofNat (v % 64 + 0x80) :: rest) =
      .char (Char.ofNat v) rest := by
  have lead : (UInt8.ofNat (v / 4096 % 0x10 + 0xe0)).toNat = v / 4096 + 0xe0 := by
    rw [toNat_byte] <;> omega
  have second : (UInt8.ofNat (v / 64 % 64 + 0x80)).toNat = v / 64 % 64 + 0x80 :=
    toNat_byte (by omega)
  have length : sequenceLength (UInt8.ofNat (v / 4096 % 0x10 + 0xe0)) = some 3 := by
    rw [sequenceLength_eq, lead, if_neg (by omega), if_neg (by omega), if_pos (by omega)]
  have accepted :
      isSecond (UInt8.ofNat (v / 4096 % 0x10 + 0xe0)) (UInt8.ofNat (v / 64 % 64 + 0x80)) =
        true := by
    rw [isSecond_iff, lead, second]
    split <;> split <;> (try split) <;> (try split) <;> omega
  have value : ((v / 4096 + 0xe0) % 16 * 64 + (v / 64 % 64 + 0x80) % 64) * 64 + v % 64 = v := by
    omega
  simp only [front, length, accepted, lead, payload, second, continuation_tail, if_true]
  exact congrArg (fun n => Front.char (Char.ofNat n) rest) value

theorem front_four {v : Nat} (low : 0xffff < v) (high : v < 0x110000) (rest : List UInt8) :
    front (UInt8.ofNat (v / 262144 % 0x08 + 0xf0))
        (UInt8.ofNat (v / 4096 % 64 + 0x80) :: UInt8.ofNat (v / 64 % 64 + 0x80) ::
          UInt8.ofNat (v % 64 + 0x80) :: rest) =
      .char (Char.ofNat v) rest := by
  have lead : (UInt8.ofNat (v / 262144 % 0x08 + 0xf0)).toNat = v / 262144 + 0xf0 := by
    rw [toNat_byte] <;> omega
  have second : (UInt8.ofNat (v / 4096 % 64 + 0x80)).toNat = v / 4096 % 64 + 0x80 :=
    toNat_byte (by omega)
  have length : sequenceLength (UInt8.ofNat (v / 262144 % 0x08 + 0xf0)) = some 4 := by
    rw [sequenceLength_eq, lead, if_neg (by omega), if_neg (by omega), if_neg (by omega),
      if_pos (by omega)]
  have accepted :
      isSecond (UInt8.ofNat (v / 262144 % 0x08 + 0xf0)) (UInt8.ofNat (v / 4096 % 64 + 0x80)) =
        true := by
    rw [isSecond_iff, lead, second]
    split <;> split <;> (try split) <;> (try split) <;> omega
  have value :
      (((v / 262144 + 0xf0) % 8 * 64 + (v / 4096 % 64 + 0x80) % 64) * 64 + v / 64 % 64) * 64 +
        v % 64 = v := by
    omega
  simp only [front, length, accepted, lead, payload, second, continuation_tail, if_true]
  exact congrArg (fun n => Front.char (Char.ofNat n) rest) value

theorem front_utf8EncodeChar (c : Char) (rest : List UInt8) :
    ∃ lead tail, String.utf8EncodeChar c = lead :: tail ∧ front lead (tail ++ rest) = .char c rest := by
  have valid : c.val.toNat < 0xd800 ∨ 0xdfff < c.val.toNat ∧ c.val.toNat < 0x110000 := c.valid
  have same : Char.ofNat c.val.toNat = c := Char.ofNat_toNat c
  simp only [String.utf8EncodeChar]
  split
  · exact ⟨_, _, rfl, by simpa only [same, List.nil_append] using front_one (v := c.val.toNat) (by omega) rest⟩
  · split
    · exact ⟨_, _, rfl, by simpa [same] using front_two (v := c.val.toNat) (by omega) (by omega) rest⟩
    · split
      · exact ⟨_, _, rfl, by
          simpa [same] using front_three (v := c.val.toNat) (by omega) (by omega) (by omega) rest⟩
      · exact ⟨_, _, rfl, by
          simpa [same] using front_four (v := c.val.toNat) (by omega) (by omega) rest⟩

theorem length_le_length_encode (text : List Char) : text.length ≤ (encode text).length := by
  induction text with
  | nil => simp
  | cons c text induction =>
      have size : 0 < c.utf8Size := c.utf8Size_pos
      simp only [encode, List.flatMap_cons, List.length_append, String.length_utf8EncodeChar,
        List.length_cons] at *
      omega

theorem length_encode_of_ascii {text : List Char} (ascii : ∀ c ∈ text, c.utf8Size = 1) :
    (encode text).length = text.length := by
  induction text with
  | nil => rfl
  | cons c text induction =>
      obtain ⟨first, others⟩ := List.forall_mem_cons.mp ascii
      rw [encode, List.flatMap_cons, List.length_append, String.length_utf8EncodeChar, first,
        List.length_cons, Nat.add_comm]
      exact congrArg (· + 1) (induction others)

theorem decodeFrom_encode (text : List Char) (fuel offset : Nat) (enough : text.length ≤ fuel) :
    decodeFrom fuel offset (encode text) = .ok text := by
  induction text generalizing fuel offset with
  | nil => cases fuel <;> rfl
  | cons c text induction =>
      obtain ⟨lead, tail, bytes, read⟩ := front_utf8EncodeChar c (encode text)
      cases fuel with
      | zero => simp at enough
      | succ fuel =>
          simp only [List.length_cons, Nat.add_le_add_iff_right] at enough
          have split : encode (c :: text) = lead :: (tail ++ encode text) := by
            simp [encode, bytes]
          rw [split, decodeFrom, read]
          simp only [induction fuel _ enough]
          rfl

theorem decode_encode (text : List Char) : decode (encode text) = .ok text :=
  decodeFrom_encode text _ 0 (length_le_length_encode text)

/-! Decoding is strict: nothing but the encoding of a text is read as the text. -/

theorem toNat_ofNat_of_scalar {v : Nat} (scalar : v < 0xd800 ∨ 0xdfff < v ∧ v < 0x110000) :
    (Char.ofNat v).val.toNat = v := by
  rw [Char.ofNat, dif_pos scalar]
  rfl

theorem ofNat_eq {byte : UInt8} {n : Nat} (same : n = byte.toNat) : UInt8.ofNat n = byte := by
  rw [same, UInt8.ofNat_toNat]

section

variable {lead second third fourth : UInt8} {v : Nat}

theorem encode_one (value : v = lead.toNat) (range : v ≤ 0x7f) :
    String.utf8EncodeChar (Char.ofNat v) = [lead] := by
  rw [String.utf8EncodeChar, toNat_ofNat_of_scalar (by omega), if_pos range, value,
    UInt8.ofNat_toNat]

theorem encode_two (value : v = lead.toNat % 32 * 64 + second.toNat % 64)
    (range : 0xc2 ≤ lead.toNat ∧ lead.toNat ≤ 0xdf)
    (tail : 0x80 ≤ second.toNat ∧ second.toNat ≤ 0xbf) :
    String.utf8EncodeChar (Char.ofNat v) = [lead, second] := by
  have first : UInt8.ofNat (v / 64 % 0x20 + 0xc0) = lead := ofNat_eq (by omega)
  have last : UInt8.ofNat (v % 64 + 0x80) = second := ofNat_eq (by omega)
  rw [String.utf8EncodeChar, toNat_ofNat_of_scalar (by omega), if_neg (by omega),
    if_pos (by omega), first, last]

theorem encode_three
    (value : v = (lead.toNat % 16 * 64 + second.toNat % 64) * 64 + third.toNat % 64)
    (range : 0xe0 ≤ lead.toNat ∧ lead.toNat ≤ 0xef)
    (tail : 0x80 ≤ second.toNat ∧ second.toNat ≤ 0xbf)
    (long : lead.toNat = 0xe0 → 0xa0 ≤ second.toNat)
    (scalar : lead.toNat = 0xed → second.toNat ≤ 0x9f)
    (tail' : 0x80 ≤ third.toNat ∧ third.toNat ≤ 0xbf) :
    String.utf8EncodeChar (Char.ofNat v) = [lead, second, third] := by
  have first : UInt8.ofNat (v / 4096 % 0x10 + 0xe0) = lead := ofNat_eq (by omega)
  have middle : UInt8.ofNat (v / 64 % 64 + 0x80) = second := ofNat_eq (by omega)
  have last : UInt8.ofNat (v % 64 + 0x80) = third := ofNat_eq (by omega)
  rw [String.utf8EncodeChar, toNat_ofNat_of_scalar (by omega), if_neg (by omega),
    if_neg (by omega), if_pos (by omega), first, middle, last]

theorem encode_four
    (value : v = ((lead.toNat % 8 * 64 + second.toNat % 64) * 64 + third.toNat % 64) * 64 +
      fourth.toNat % 64)
    (range : 0xf0 ≤ lead.toNat ∧ lead.toNat ≤ 0xf4)
    (tail : 0x80 ≤ second.toNat ∧ second.toNat ≤ 0xbf)
    (long : lead.toNat = 0xf0 → 0x90 ≤ second.toNat)
    (scalar : lead.toNat = 0xf4 → second.toNat ≤ 0x8f)
    (tail' : 0x80 ≤ third.toNat ∧ third.toNat ≤ 0xbf)
    (tail'' : 0x80 ≤ fourth.toNat ∧ fourth.toNat ≤ 0xbf) :
    String.utf8EncodeChar (Char.ofNat v) = [lead, second, third, fourth] := by
  have first : UInt8.ofNat (v / 262144 % 0x08 + 0xf0) = lead := ofNat_eq (by omega)
  have high : UInt8.ofNat (v / 4096 % 64 + 0x80) = second := ofNat_eq (by omega)
  have low : UInt8.ofNat (v / 64 % 64 + 0x80) = third := ofNat_eq (by omega)
  have last : UInt8.ofNat (v % 64 + 0x80) = fourth := ofNat_eq (by omega)
  rw [String.utf8EncodeChar, toNat_ofNat_of_scalar (by omega), if_neg (by omega),
    if_neg (by omega), if_neg (by omega), first, high, low, last]

end

theorem continuation_succ {value seen missing : Nat} {rest rest' : List UInt8} {c : Char}
    (read : continuation value seen (missing + 1) rest = .char c rest') :
    ∃ byte behind, rest = byte :: behind ∧ (0x80 ≤ byte.toNat ∧ byte.toNat ≤ 0xbf) ∧
      continuation (value * 64 + byte.toNat % 64) (seen + 1) missing behind = .char c rest' := by
  cases rest with
  | nil => cases read
  | cons byte behind =>
      rw [continuation] at read
      split at read
      · rename_i accepted
        exact ⟨byte, behind, rfl, (isContinuation_iff byte).mp accepted, read⟩
      · cases read

theorem continuation_zero {value seen : Nat} {rest rest' : List UInt8} {c : Char}
    (read : continuation value seen 0 rest = .char c rest') :
    c = Char.ofNat value ∧ rest' = rest := by
  cases read
  exact ⟨rfl, rfl⟩

/-- What is read behind a lead byte that more bytes belong to. The second byte tells from overlong
forms, surrogates and what is no code point. -/
theorem front_second {lead : UInt8} {length : Nat} {rest rest' : List UInt8} {c : Char}
    (more : sequenceLength lead = some (length + 2)) (read : front lead rest = .char c rest') :
    ∃ second behind, rest = second :: behind ∧
      (0x80 ≤ second.toNat ∧ second.toNat ≤ 0xbf ∧
        (lead.toNat = 0xe0 → 0xa0 ≤ second.toNat) ∧ (lead.toNat = 0xf0 → 0x90 ≤ second.toNat) ∧
        (lead.toNat = 0xed → second.toNat ≤ 0x9f) ∧
          (lead.toNat = 0xf4 → second.toNat ≤ 0x8f)) ∧
      continuation (lead.toNat % (1 <<< (7 - (length + 2))) * 64 + second.toNat % 64) 2 length
        behind = .char c rest' := by
  rw [front, more] at read
  cases rest with
  | nil => cases read
  | cons second behind =>
      simp only at read
      split at read
      · rename_i accepted
        refine ⟨second, behind, rfl, ?_, read⟩
        rw [isSecond_iff] at accepted
        split at accepted <;> split at accepted <;> (try split at accepted) <;>
          (try split at accepted) <;> omega
      · cases read

/-- What is read as a character is its encoding. -/
theorem eq_of_front {lead : UInt8} {rest rest' : List UInt8} {c : Char}
    (read : front lead rest = .char c rest') :
    lead :: rest = String.utf8EncodeChar c ++ rest' := by
  have length := sequenceLength_eq lead
  split at length
  · rename_i small
    rw [front, length] at read
    cases read
    exact congrArg (· ++ rest) (encode_one rfl (by omega)).symm
  split at length
  · rename_i range
    obtain ⟨second, behind, rfl, tail, read⟩ := front_second length read
    obtain ⟨rfl, rfl⟩ := continuation_zero read
    exact congrArg (· ++ rest') (encode_two rfl range ⟨tail.1, tail.2.1⟩).symm
  split at length
  · rename_i range
    obtain ⟨second, behind, rfl, tail, read⟩ := front_second length read
    obtain ⟨third, behind, rfl, tail', read⟩ := continuation_succ read
    obtain ⟨rfl, rfl⟩ := continuation_zero read
    obtain ⟨low, high, long, -, scalar, -⟩ := tail
    exact congrArg (· ++ rest') (encode_three rfl range ⟨low, high⟩ long scalar tail').symm
  split at length
  · rename_i range
    obtain ⟨second, behind, rfl, tail, read⟩ := front_second length read
    obtain ⟨third, behind, rfl, tail', read⟩ := continuation_succ read
    obtain ⟨fourth, behind, rfl, tail'', read⟩ := continuation_succ read
    obtain ⟨rfl, rfl⟩ := continuation_zero read
    obtain ⟨low, high, -, long, -, scalar⟩ := tail
    exact congrArg (· ++ rest') (encode_four rfl range ⟨low, high⟩ long scalar tail' tail'').symm
  · rw [front, length] at read
    cases read

theorem encode_of_decodeFrom {fuel offset : Nat} {bytes : List UInt8} {text : List Char}
    (read : decodeFrom fuel offset bytes = .ok text) : encode text = bytes := by
  induction fuel generalizing offset bytes text with
  | zero =>
      cases bytes with
      | nil =>
          cases read
          rfl
      | cons lead rest => cases read
  | succ fuel induction =>
      cases bytes with
      | nil =>
          cases read
          rfl
      | cons lead rest =>
          rw [decodeFrom] at read
          cases first : front lead rest with
          | bad malformed =>
              rw [first] at read
              cases read
          | char c behind =>
              rw [first] at read
              cases others : decodeFrom fuel (offset + c.utf8Size) behind with
              | error cause =>
                  simp only [others] at read
                  cases read
              | ok tail =>
                  simp only [others] at read
                  cases read
                  rw [encode, List.flatMap_cons, eq_of_front first]
                  exact congrArg _ (induction others)

theorem encode_of_decode {bytes : List UInt8} {text : List Char}
    (read : decode bytes = .ok text) : encode text = bytes :=
  encode_of_decodeFrom read

/-- A byte that is a character by itself is part of no other one. -/
theorem toNat_of_mem_utf8EncodeChar {c : Char} {byte : UInt8} (plain : byte.toNat < 0x80)
    (member : byte ∈ String.utf8EncodeChar c) : byte.toNat = c.val.toNat := by
  have high {n : Nat} (range : 0x80 ≤ n) (small : n < 256) : byte ≠ UInt8.ofNat n := by
    rintro rfl
    rw [toNat_byte small] at plain
    omega
  simp only [String.utf8EncodeChar] at member
  split at member
  · rw [List.mem_singleton.mp member]
    exact toNat_byte (by omega)
  · split at member
    · simp only [List.mem_cons, List.not_mem_nil, or_false] at member
      rcases member with equal | equal <;> exact absurd equal (high (by omega) (by omega))
    · split at member
      · simp only [List.mem_cons, List.not_mem_nil, or_false] at member
        rcases member with equal | equal | equal <;>
          exact absurd equal (high (by omega) (by omega))
      · simp only [List.mem_cons, List.not_mem_nil, or_false] at member
        rcases member with equal | equal | equal | equal <;>
          exact absurd equal (high (by omega) (by omega))

theorem notMem_utf8EncodeChar {c : Char} {byte : UInt8} (plain : byte.toNat < 0x80)
    (other : byte.toNat ≠ c.val.toNat) : byte ∉ String.utf8EncodeChar c :=
  fun member => other (toNat_of_mem_utf8EncodeChar plain member)

theorem zero_notMem_encode {text : List Char} (clean : '\x00' ∉ text) : (0 : UInt8) ∉ encode text := by
  simp only [encode, List.mem_flatMap, not_exists, not_and]
  intro c member
  refine notMem_utf8EncodeChar (by decide) fun null => clean ?_
  have same : c = '\x00' := Char.ext (UInt32.toNat_inj.mp null.symm)
  rwa [same] at member

theorem zero_mem_encode {text : List Char} (null : '\x00' ∈ text) : (0 : UInt8) ∈ encode text :=
  List.mem_flatMap.mpr ⟨'\x00', null, List.mem_singleton.mpr rfl⟩

end StackScript.Text.Utf8
