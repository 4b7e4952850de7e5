import StackScript.Decimal.Binary64

namespace StackScript.Decimal

/-! Reading numbers: whole numbers within bounds, and decimals as the nearest binary64 number. -/

inductive IntegerError where
  | empty
  | invalidDigit
  | tooLarge
  | tooSmall
  deriving DecidableEq, Repr

def IntegerError.message : IntegerError → String
  | .empty => "cannot parse integer from empty string"
  | .invalidDigit => "invalid digit found in string"
  | .tooLarge => "number too large to fit in target type"
  | .tooSmall => "number too small to fit in target type"

inductive FloatError where
  | empty
  | invalid
  deriving DecidableEq, Repr

def FloatError.message : FloatError → String
  | .empty => "cannot parse float from empty string"
  | .invalid => "invalid float literal"

def digit? (c : Char) : Option Nat :=
  if c.isDigit then some (c.toNat - '0'.toNat) else none

/-- Appends digits to `value`. The first digit that is none or that leads past `limit` decides. -/
def readDigits (limit : Nat) (overflow : IntegerError) :
    (value : Nat) → List Char → Except IntegerError Nat
  | value, [] => .ok value
  | value, c :: rest =>
      match digit? c with
      | none => .error .invalidDigit
      | some digit =>
          let next := value * 10 + digit
          if limit < next then .error overflow else readDigits limit overflow next rest

/-- A whole number from 0 to `limit`, with an optional plus sign. -/
def readNatural (limit : Nat) : List Char → Except IntegerError Nat
  | [] => .error .empty
  | ['+'] => .error .invalidDigit
  | '+' :: digits => readDigits limit .tooLarge 0 digits
  | digits => readDigits limit .tooLarge 0 digits

def readWord (text : List Char) : Except IntegerError UInt32 := do
  let value ← readNatural (UInt32.size - 1) text
  pure (UInt32.ofNat value)

def readByte (text : List Char) : Except IntegerError UInt8 := do
  let value ← readNatural (UInt8.size - 1) text
  pure (UInt8.ofNat value)

def readInteger : List Char → Except IntegerError Int64
  | ['-'] => .error .invalidDigit
  | '-' :: digits => do
      let value ← readDigits (1 <<< 63) .tooSmall 0 digits
      pure (Int64.ofInt (-value))
  | text => do
      let value ← readNatural ((1 <<< 63) - 1) text
      pure (Int64.ofInt value)

def digitsValue (digits : List Char) : Nat :=
  digits.foldl (fun value c => value * 10 + (c.toNat - '0'.toNat)) 0

/-- The exponent after its mark: an optional sign and at least one digit, up to the end. -/
def readExponent (text : List Char) : Option Int :=
  let (negative, digits) :=
    match text with
    | '-' :: rest => (true, rest)
    | '+' :: rest => (false, rest)
    | rest => (false, rest)
  if digits.isEmpty || !digits.all Char.isDigit then none
  else
    let value : Int := digitsValue digits
    some (if negative then -value else value)

/-- Magnitude bits of `coefficient * 10 ^ exponent`. A number of at least `10 ^ 310` is infinite
and one below `10 ^ -325` is zero, so the powers that are formed stay small. -/
def scientificBits (coefficient : Nat) (exponent : Int) : Nat :=
  if coefficient = 0 then 0
  else
    let size := (Nat.toDigits 10 coefficient).length + exponent
    if 311 ≤ size then infinityBits
    else if size ≤ -325 then 0
    else if 0 ≤ exponent then nearestBits (coefficient * Nat.pow 10 exponent.toNat) 1
    else nearestBits coefficient (Nat.pow 10 (-exponent).toNat)

/-- Digits with an optional point and exponent; there is a digit before or after the point. -/
def readMagnitude (text : List Char) : Option Nat := do
  let whole := text.takeWhile Char.isDigit
  let rest := text.dropWhile Char.isDigit
  let (fraction, rest) :=
    match rest with
    | '.' :: rest => (rest.takeWhile Char.isDigit, rest.dropWhile Char.isDigit)
    | rest => ([], rest)
  if whole.isEmpty && fraction.isEmpty then none
  else
    let exponent ←
      match rest with
      | [] => some 0
      | c :: rest => if c = 'e' || c = 'E' then readExponent rest else none
    some (scientificBits (digitsValue (whole ++ fraction)) (exponent - fraction.length))

def quietNanBits : Nat := infinityBits + hiddenBit / 2

/-- A number or, in any case of letters, one of the names of the other values. -/
def readUnsigned (text : List Char) : Option Nat :=
  match String.ofList (text.map Char.toLower) with
  | "inf" => some infinityBits
  | "infinity" => some infinityBits
  | "nan" => some quietNanBits
  | _ => readMagnitude text

/-- The bits of the binary64 number nearest to a decimal, with an optional sign. -/
def readFloat (text : List Char) : Except FloatError UInt64 :=
  let (negative, magnitude) :=
    match text with
    | '-' :: rest => (true, rest)
    | '+' :: rest => (false, rest)
    | rest => (false, rest)
  if text.isEmpty then .error .empty
  else
    match readUnsigned magnitude with
    | some bits => .ok (withSign negative bits)
    | none => .error .invalid

end StackScript.Decimal
