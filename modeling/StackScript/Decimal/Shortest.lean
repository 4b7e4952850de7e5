import StackScript.Decimal.Binary64

namespace StackScript.Decimal

/-! The fewest decimal digits that read back as a given binary64 number. The numbers that round to
`m * 2 ^ q` form an interval, which contains its ends iff `m` is even. For one, two, ... digits the
two neighbours of the number on that decimal grid are tested in exact arithmetic. -/

/-- Which of two equally near decimals is taken. -/
inductive Tie where
  | up
  | even
  deriving DecidableEq, Repr

/-- The decimal `coefficient * 10 ^ exponent`. -/
structure Scientific where
  coefficient : Nat
  exponent : Int
  deriving DecidableEq, Repr

/-- A number with the interval of reals that round to it, over a common denominator. -/
structure Rounding where
  low : Nat
  value : Nat
  high : Nat
  den : Nat
  closed : Bool

/-- The gap below a power of two is half as wide as the one above it. -/
def Rounding.of (mantissa : Nat) (exponent : Int) : Rounding :=
  let below := if mantissa = hiddenBit && leastExponent < exponent then 1 else 2
  let shift := exponent - 2
  let scale := 1 <<< shift.toNat
  { low := (4 * mantissa - below) * scale
    value := 4 * mantissa * scale
    high := (4 * mantissa + 2) * scale
    den := 1 <<< (-shift).toNat
    closed := mantissa % 2 = 0 }

/-- Whether `coefficient * 10 ^ exponent` lies in the interval. -/
def Rounding.contains (r : Rounding) (coefficient : Nat) (exponent : Int) : Bool :=
  let scaled := coefficient * Nat.pow 10 exponent.toNat * r.den
  let unit := Nat.pow 10 (-exponent).toNat
  if r.closed then r.low * unit ≤ scaled && scaled ≤ r.high * unit
  else r.low * unit < scaled && scaled < r.high * unit

/-- The grid point with this decimal exponent that reads back, if one of the two neighbours
does: the nearer one if both do. -/
def Rounding.neighbour? (r : Rounding) (tie : Tie) (exponent : Int) : Option Nat :=
  let num := r.value * Nat.pow 10 (-exponent).toNat
  let den := r.den * Nat.pow 10 exponent.toNat
  let floor := num / den
  let twice := 2 * (num % den)
  let upper :=
    den < twice || (twice = den && (tie = .up || floor % 2 = 1))
  match r.contains floor exponent, r.contains (floor + 1) exponent with
  | true, true => some (if upper then floor + 1 else floor)
  | true, false => some floor
  | false, true => some (floor + 1)
  | false, false => none

/-- The exponent `e` with `10 ^ e ≤ num / den < 10 ^ (e + 1)`, searched downwards from `e`. -/
def floorLog10From (num den : Nat) : (fuel : Nat) → Int → Int
  | 0, e => e
  | fuel + 1, e =>
      let reached :=
        if 0 ≤ e then den * Nat.pow 10 e.toNat ≤ num else den ≤ num * Nat.pow 10 (-e).toNat
      if reached then e else floorLog10From num den fuel (e - 1)

/-- Every binary64 number is below `10 ^ 309`, and the estimate from the binary logarithm is at
most two too high. -/
def floorLog10 (num den : Nat) : Int :=
  let estimate := (floorLog2 num den + 1) * 30103 / 100000 + 1
  floorLog10From num den 4 estimate

/-- The first grid that has a hit, with `remaining` more digits to try. -/
def Rounding.search (r : Rounding) (tie : Tie) : (remaining : Nat) → (exponent : Int) → Scientific
  | 0, exponent =>
      { coefficient :=
          r.value * Nat.pow 10 (-exponent).toNat / (r.den * Nat.pow 10 exponent.toNat)
        exponent }
  | remaining + 1, exponent =>
      match r.neighbour? tie exponent with
      | some coefficient => { coefficient, exponent }
      | none => r.search tie remaining (exponent - 1)

/-- Trailing zeros of the coefficient move into the exponent. -/
def Scientific.normalize : (fuel : Nat) → Scientific → Scientific
  | 0, s => s
  | fuel + 1, s =>
      if s.coefficient ≠ 0 && s.coefficient % 10 = 0 then
        normalize fuel { coefficient := s.coefficient / 10, exponent := s.exponent + 1 }
      else s

/-- The shortest decimal for a positive number; seventeen digits always suffice. -/
def shortest (tie : Tie) (mantissa : Nat) (exponent : Int) : Scientific :=
  let r := Rounding.of mantissa exponent
  (r.search tie 17 (floorLog10 r.value r.den)).normalize 20

end StackScript.Decimal
