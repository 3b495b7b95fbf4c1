import ScalarSql.Decimal.RealText
import ScalarSql.Text.Blank

/-!
# Numbers in text

A numeral is an optional sign, digits with an optional point, and an optional power of ten:
`[+-]? (D+ (. D*)? | . D+) ([eE] [+-]? D+)?`. `Numeral.scan?` takes the longest numeral that a text
starts with.
-/

namespace ScalarSql

/-- The parts of a numeral. -/
structure Numeral where
  negative : Bool
  whole : List Char
  /-- The digits after the point, if there is a point. -/
  fraction : Option (List Char)
  exponent : Option Int
deriving DecidableEq, Repr, Inhabited

namespace Numeral

/-- Takes an optional sign; the result says whether it was a minus sign. -/
def takeSign : List Char → Bool × List Char
  | '-' :: cs => (true, cs)
  | '+' :: cs => (false, cs)
  | cs => (false, cs)

def takeDigits (cs : List Char) : List Char × List Char :=
  (cs.takeWhile Char.isDigit, cs.dropWhile Char.isDigit)

/-- Takes a point and the digits after it. A point needs a digit on one of its sides. -/
def takeFraction (whole : List Char) : List Char → Option (List Char) × List Char
  | '.' :: cs =>
    let (digits, rest) := takeDigits cs
    if whole ≠ [] ∨ digits ≠ [] then (some digits, rest) else (none, '.' :: cs)
  | cs => (none, cs)

/-- Takes the digits of a power of ten, after its mark and sign. -/
def takePower (negative : Bool) (cs : List Char) : Option (Int × List Char) :=
  let (digits, rest) := takeDigits cs
  if digits = [] then none
  else
    let n : Int := Decimal.ofDigits digits
    some (if negative then -n else n, rest)

/-- Takes a power of ten: a mark, an optional sign and at least one digit. -/
def takeExponent : List Char → Option Int × List Char
  | c :: cs =>
    if c = 'e' ∨ c = 'E' then
      let (negative, rest) := takeSign cs
      match takePower negative rest with
      | some (power, rest) => (some power, rest)
      | none => (none, c :: cs)
    else (none, c :: cs)
  | [] => (none, [])

/-- The longest numeral that the characters start with, and the characters after it. -/
def scan? (cs : List Char) : Option (Numeral × List Char) :=
  let (negative, rest) := takeSign cs
  let (whole, rest) := takeDigits rest
  let (fraction, rest) := takeFraction whole rest
  if whole = [] ∧ fraction = none then none
  else
    let (exponent, rest) := takeExponent rest
    some (⟨negative, whole, fraction, exponent⟩, rest)

/-- Whether the numeral has neither point nor power of ten. -/
def isInteger (n : Numeral) : Bool := n.fraction.isNone && n.exponent.isNone

/-- The integer that the sign and the digits before the point spell. -/
def integer (n : Numeral) : Int := Binary64.signed n.negative (Decimal.ofDigits n.whole)

def real (n : Numeral) : Float :=
  Decimal.readReal n.negative n.whole (n.fraction.getD []) (n.exponent.getD 0)

end Numeral

end ScalarSql
