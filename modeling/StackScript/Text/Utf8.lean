namespace StackScript.Text.Utf8

/-! UTF-8 encoding and strict decoding with the place and extent of the first malformed sequence. -/

/-- Why bytes are not UTF-8. `validLength` is the length of the well-formed part in front;
`malformed` is the length of the longest start of a sequence that some character could have,
or `none` if the bytes end inside such a sequence. -/
structure DecodeError where
  validLength : Nat
  malformed : Option Nat
  deriving DecidableEq, Repr

def DecodeError.message (error : DecodeError) : String :=
  match error.malformed with
  | some length =>
      s!"invalid utf-8 sequence of {length} bytes from index {error.validLength}"
  | none => s!"incomplete utf-8 byte sequence from index {error.validLength}"

def encode (text : List Char) : List UInt8 :=
  text.flatMap String.utf8EncodeChar

/-- How many bytes a sequence has that starts with this byte. -/
def sequenceLength (lead : UInt8) : Option Nat :=
  if lead < 0x80 then some 1
  else if 0xc2 ≤ lead && lead ≤ 0xdf then some 2
  else if 0xe0 ≤ lead && lead ≤ 0xef then some 3
  else if 0xf0 ≤ lead && lead ≤ 0xf4 then some 4
  else none

/-- The range of the second byte depends on the first: it excludes overlong forms, surrogates and
code points above the last one. -/
def isSecond (lead second : UInt8) : Bool :=
  let low : UInt8 := if lead = 0xe0 then 0xa0 else if lead = 0xf0 then 0x90 else 0x80
  let high : UInt8 := if lead = 0xed then 0x9f else if lead = 0xf4 then 0x8f else 0xbf
  low ≤ second && second ≤ high

def isContinuation (byte : UInt8) : Bool :=
  0x80 ≤ byte && byte ≤ 0xbf

def payload (byte : UInt8) : Nat :=
  byte.toNat % 64

/-- Outcome of reading one character at the front of some bytes. -/
inductive Front where
  | char (c : Char) (rest : List UInt8)
  | bad (malformed : Option Nat)

/-- The remaining bytes of a sequence, of which `seen` bytes with value `value` are read. -/
def continuation (value seen : Nat) : (missing : Nat) → List UInt8 → Front
  | 0, rest => .char (Char.ofNat value) rest
  | _ + 1, [] => .bad none
  | missing + 1, byte :: rest =>
      if isContinuation byte then
        continuation (value * 64 + payload byte) (seen + 1) missing rest
      else .bad (some seen)

/-- The character that starts with `lead`. -/
def front (lead : UInt8) (rest : List UInt8) : Front :=
  match sequenceLength lead with
  | none => .bad (some 1)
  | some 1 => .char (Char.ofNat lead.toNat) rest
  | some length =>
      match rest with
      | [] => .bad none
      | second :: rest =>
          if isSecond lead second then
            let high := lead.toNat % (1 <<< (7 - length))
            continuation (high * 64 + payload second) 2 (length - 2) rest
          else .bad (some 1)

/-- Decodes with fuel for as many characters as there are bytes. -/
def decodeFrom : (fuel offset : Nat) → List UInt8 → Except DecodeError (List Char)
  | _, _, [] => .ok []
  | 0, offset, _ :: _ => .error { validLength := offset, malformed := none }
  | fuel + 1, offset, lead :: rest =>
      match front lead rest with
      | .bad malformed => .error { validLength := offset, malformed }
      | .char c rest => do
          let tail ← decodeFrom fuel (offset + c.utf8Size) rest
          pure (c :: tail)

def decode (bytes : List UInt8) : Except DecodeError (List Char) :=
  decodeFrom bytes.length 0 bytes

end StackScript.Text.Utf8
