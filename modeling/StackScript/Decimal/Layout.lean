import StackScript.Decimal.Shortest

namespace StackScript.Decimal

/-! How a binary64 number is laid out as text. -/

/-- The decisions of one format. A number whose leading digit stands at `10 ^ e` is positional
if `plainFrom ≤ e ≤ plainTo`; otherwise it has an exponent, with a plus sign if `plusSign`. -/
structure Layout where
  tie : Tie
  plainFrom : Int
  plainTo : Int
  plusSign : Bool
  nan : String
  infinity : String
  negativeInfinity : String

/-- Positional text with at least one digit on each side of the point. -/
def positional (digits : List Char) (exponent : Int) : List Char :=
  if 0 ≤ exponent then digits ++ List.replicate exponent.toNat '0' ++ ['.', '0']
  else
    let places := (-exponent).toNat
    let padded := List.replicate (places + 1 - digits.length) '0' ++ digits
    padded.take (padded.length - places) ++ '.' :: padded.drop (padded.length - places)

def exponential (layout : Layout) (digits : List Char) (leading : Int) : List Char :=
  let mantissa :=
    match digits with
    | [] => ['0']
    | [digit] => [digit]
    | digit :: rest => digit :: '.' :: rest
  let sign := if leading < 0 then ['-'] else if layout.plusSign then ['+'] else []
  mantissa ++ 'e' :: sign ++ Nat.toDigits 10 leading.natAbs

def Layout.magnitude (layout : Layout) (mantissa : Nat) (exponent : Int) : List Char :=
  if mantissa = 0 then ['0', '.', '0']
  else
    let decimal := shortest layout.tie mantissa exponent
    let digits := Nat.toDigits 10 decimal.coefficient
    let leading := decimal.exponent + digits.length - 1
    if layout.plainFrom ≤ leading && leading ≤ layout.plainTo then
      positional digits decimal.exponent
    else exponential layout digits leading

def Layout.render (layout : Layout) (bits : UInt64) : String :=
  match Binary64.ofBits bits with
  | .nan => layout.nan
  | .infinity false => layout.infinity
  | .infinity true => layout.negativeInfinity
  | .finite negative mantissa exponent =>
      let magnitude := layout.magnitude mantissa exponent
      String.ofList (if negative then '-' :: magnitude else magnitude)

end StackScript.Decimal
