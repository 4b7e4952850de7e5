namespace StackScript.Bytes

/-! Numbers of a fixed width as bytes, the least significant byte first. -/

def ofNat : (width value : Nat) → List UInt8
  | 0, _ => []
  | width + 1, value => UInt8.ofNat value :: ofNat width (value / 256)

def toNat : List UInt8 → Nat
  | [] => 0
  | byte :: rest => byte.toNat + 256 * toNat rest

@[simp] theorem length_ofNat (width value : Nat) : (ofNat width value).length = width := by
  induction width generalizing value with
  | zero => rfl
  | succ width induction => simp [ofNat, induction]

theorem toNat_ofNat (width value : Nat) :
    toNat (ofNat width value) = value % Nat.pow 256 width := by
  induction width generalizing value with
  | zero => exact (Nat.mod_one value).symm
  | succ width induction =>
      have step : Nat.pow 256 (width + 1) = 256 * Nat.pow 256 width := Nat.mul_comm _ 256
      rw [ofNat, toNat, induction, step, Nat.mod_mul]
      simp

theorem toNat_ofNat_of_lt {width value : Nat} (fits : value < Nat.pow 256 width) :
    toNat (ofNat width value) = value := by
  rw [toNat_ofNat, Nat.mod_eq_of_lt fits]

/-- The first `width` bytes and what follows them, if there are that many. -/
def split? : (width : Nat) → List UInt8 → Option (List UInt8 × List UInt8)
  | 0, bytes => some ([], bytes)
  | _ + 1, [] => none
  | width + 1, byte :: rest =>
      (split? width rest).map fun parts => (byte :: parts.1, parts.2)

theorem split?_append (front rest : List UInt8) :
    split? front.length (front ++ rest) = some (front, rest) := by
  induction front with
  | nil => rfl
  | cons byte front induction => simp [split?, induction]

theorem split?_front {width : Nat} {front : List UInt8} (length : front.length = width)
    (rest : List UInt8) : split? width (front ++ rest) = some (front, rest) := by
  subst length
  exact split?_append front rest

theorem split?_eq_some {width : Nat} {bytes front rest : List UInt8}
    (split : split? width bytes = some (front, rest)) :
    bytes = front ++ rest ∧ front.length = width := by
  induction width generalizing bytes front with
  | zero =>
      cases split
      exact ⟨rfl, rfl⟩
  | succ width induction =>
      cases bytes with
      | nil => cases split
      | cons byte bytes =>
          simp only [split?, Option.map_eq_some_iff, Prod.mk.injEq] at split
          obtain ⟨⟨first, others⟩, split, rfl, rfl⟩ := split
          obtain ⟨rfl, rfl⟩ := induction split
          exact ⟨rfl, rfl⟩

/-- A number of `width` bytes and the bytes after it. -/
def read? (width : Nat) (bytes : List UInt8) : Option (Nat × List UInt8) :=
  (split? width bytes).map fun parts => (toNat parts.1, parts.2)

def ofWord (value : UInt32) : List UInt8 :=
  ofNat 4 value.toNat

def toWord (bytes : List UInt8) : UInt32 :=
  UInt32.ofNat (toNat bytes)

def readWord? (bytes : List UInt8) : Option (UInt32 × List UInt8) :=
  (split? 4 bytes).map fun parts => (toWord parts.1, parts.2)

@[simp] theorem length_ofWord (value : UInt32) : (ofWord value).length = 4 := by
  simp [ofWord]

theorem readWord?_ofWord_append (value : UInt32) (rest : List UInt8) :
    readWord? (ofWord value ++ rest) = some (value, rest) := by
  have parts : split? 4 (ofWord value ++ rest) = some (ofWord value, rest) := by
    simpa using split?_append (ofWord value) rest
  have number : toNat (ofWord value) = value.toNat := toNat_ofNat_of_lt value.toNat_lt
  simp [readWord?, toWord, parts, number]

theorem readWord?_front {front : List UInt8} (length : front.length = 4) (rest : List UInt8) :
    readWord? (front ++ rest) = some (toWord front, rest) := by
  simp [readWord?, split?_front length]

theorem readWord?_eq_some {bytes rest : List UInt8} {word : UInt32}
    (read : readWord? bytes = some (word, rest)) :
    ∃ front, bytes = front ++ rest ∧ front.length = 4 ∧ toWord front = word := by
  simp only [readWord?, Option.map_eq_some_iff, Prod.mk.injEq] at read
  obtain ⟨⟨front, others⟩, split, rfl, rfl⟩ := read
  obtain ⟨whole, length⟩ := split?_eq_some split
  exact ⟨front, whole, length, rfl⟩

end StackScript.Bytes
