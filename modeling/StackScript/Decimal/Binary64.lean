namespace StackScript.Decimal

/-! The number that a binary64 bit pattern stands for, and the pattern nearest to a fraction. -/

/-- What a bit pattern encodes: a finite number is `mantissa * 2 ^ exponent` with its sign. -/
inductive Binary64 where
  | nan
  | infinity (negative : Bool)
  | finite (negative : Bool) (mantissa : Nat) (exponent : Int)
  deriving DecidableEq, Repr

/-- The sign bit stands above eleven bits of exponent and fifty-two bits of fraction. -/
def signBit : Nat := 1 <<< 63

def hiddenBit : Nat := 1 <<< 52

def infinityBits : Nat := 0x7ff * hiddenBit

def leastExponent : Int := -1074

def Binary64.ofBits (bits : UInt64) : Binary64 :=
  let negative := signBit ≤ bits.toNat
  let field : Nat := bits.toNat / hiddenBit % 0x800
  let fraction := bits.toNat % hiddenBit
  if field = 0x7ff then
    if fraction = 0 then .infinity negative else .nan
  else if field = 0 then .finite negative fraction leastExponent
  else .finite negative (hiddenBit + fraction) (field - 1075)

/-- The quotient rounded to the nearest whole number; a half goes to the even neighbour. -/
def roundHalfEven (num den : Nat) : Nat :=
  let floor := num / den
  let twice := 2 * (num % den)
  if twice < den then floor
  else if den < twice then floor + 1
  else floor + floor % 2

/-- The exponent `e` with `2 ^ e ≤ num / den < 2 ^ (e + 1)`, for a positive fraction. -/
def floorLog2 (num den : Nat) : Int :=
  let guess : Int := num.log2 - den.log2
  let reached :=
    if 0 ≤ guess then den <<< guess.toNat ≤ num else den ≤ num <<< (-guess).toNat
  if reached then guess else guess - 1

/-- The magnitude bits of the binary64 number nearest to a positive fraction. A mantissa that
rounds up to the next power of two carries into the exponent field, and one that leaves the finite
range becomes infinity. -/
def nearestBits (num den : Nat) : Nat :=
  let exponent := max (floorLog2 num den - 52) leastExponent
  let mantissa :=
    if 0 ≤ exponent then roundHalfEven num (den <<< exponent.toNat)
    else roundHalfEven (num <<< (-exponent).toNat) den
  min ((exponent - leastExponent).toNat * hiddenBit + mantissa) infinityBits

def withSign (negative : Bool) (magnitude : Nat) : UInt64 :=
  UInt64.ofNat (if negative then signBit + magnitude else magnitude)

end StackScript.Decimal
