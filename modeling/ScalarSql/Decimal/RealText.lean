import ScalarSql.Decimal.Shortest

/-!
# The text of a REAL, and its reading

`realText` writes a double: a whole number below `10 ^ 15` in size keeps one decimal place, any
other number is written with the fewest digits that read back, always in full. `readReal` rounds a
decimal to the closest double.
-/

namespace ScalarSql.Decimal

/-- Sizes from which a whole REAL is written without a decimal place. -/
def plainFrom : Nat := pow10 15

/-- The text of a finite double, without its sign. -/
def magnitudeText (m : Nat) (e : Int) : List Char :=
  let x := Binary64.finite false m e
  if x.isIntegral && x.truncate < plainFrom then toDigits x.truncate.toNat ++ ['.', '0']
  else (shortest m e).positional

def realText (x : Float) : String :=
  match Binary64.ofFloat x with
  | .nan => "NaN"
  | .infinite false => "Inf"
  | .infinite true => "-Inf"
  | .finite s m e => String.ofList (if s then '-' :: magnitudeText m e else magnitudeText m e)

/-- The double closest to `digits * 10 ^ exponent`. Numbers of more than 400 places before the
point are infinite and numbers below `10 ^ (-400)` are zero, so the powers of ten stay small. -/
def closestReal (digits : Nat) (exponent : Int) : Float :=
  let size := ((toDigits digits).length : Int) + exponent
  if digits = 0 ∨ size < -400 then 0.0
  else if 400 < size then Float.ofBits 0x7ff0000000000000
  else Float.ofScientific digits (decide (exponent < 0)) exponent.natAbs

/-- The double closest to a signed decimal with the given digits before and after the point and the
given power of ten. -/
def readReal (negative : Bool) (whole fraction : List Char) (exponent : Int) : Float :=
  let x := closestReal (ofDigits (whole ++ fraction)) (exponent - fraction.length)
  if negative then -x else x

end ScalarSql.Decimal
