import ScalarSql.Binary64
import ScalarSql.Decimal.Digits

/-!
# The shortest decimal of a double

Every positive double is the double closest to all numbers of an interval around it. `shortest`
finds the decimal of fewest digits in that interval, and of those the closest to the double. All
arithmetic is on natural numbers, so the result is exact.
-/

namespace ScalarSql.Decimal

/-- A decimal `digits * 10 ^ exponent`. -/
structure Scaled where
  digits : Nat
  exponent : Int
deriving DecidableEq, Repr, Inhabited

/-- The order of `d * 10 ^ k` and `b * 2 ^ s`. -/
def compareScaled (d : Nat) (k : Int) (b : Nat) (s : Int) : Ordering :=
  compare (d * pow10 k.toNat * pow2 (-s).toNat) (b * pow2 s.toNat * pow10 (-k).toNat)

/-- The numbers that round to `mantissa * 2 ^ exponent`, in quarters of its last place: `lower` and
`upper` bound them, and the bounds belong to them if `closed`. -/
structure Interval where
  /-- Four times the mantissa. -/
  center : Nat
  lower : Nat
  upper : Nat
  exponent : Int
  /-- Whether the bounds round to the center. -/
  closed : Bool

/-- The interval of the double `m * 2 ^ e`. Below a power of two the neighbour is only half as far
away, unless the spacing is already the smallest; the bounds round to an even mantissa. -/
def Interval.of (m : Nat) (e : Int) : Interval :=
  { center := 4 * m
    lower := if m = pow2 52 ∧ -1074 < e then 4 * m - 1 else 4 * m - 2
    upper := 4 * m + 2
    exponent := e - 2
    closed := m % 2 == 0 }

/-- Whether `d * 10 ^ k` lies in the interval. -/
def Interval.holds (i : Interval) (d : Nat) (k : Int) : Bool :=
  match compareScaled d k i.lower i.exponent, compareScaled d k i.upper i.exponent with
  | .gt, .lt => true
  | .eq, _ => i.closed
  | _, .eq => i.closed
  | _, _ => false

/-- The multiple of `10 ^ k` in the interval that is closest to its center, the larger one if two
are equally close. -/
def Interval.onGrid? (i : Interval) (k : Int) : Option Nat :=
  let num := i.center * pow2 i.exponent.toNat * pow10 (-k).toNat
  let den := pow2 (-i.exponent).toNat * pow10 k.toNat
  let below := num / den
  let above := below + 1
  match i.holds below k, i.holds above k with
  | true, true => some (if 2 * (num % den) < den then below else above)
  | true, false => some below
  | false, true => some above
  | false, false => none

/-- Tries the grids `10 ^ k`, `10 ^ (k - 1)`, ... in turn, the coarsest first. -/
def Interval.search (i : Interval) : Nat → Int → Scaled
  | 0, k => ⟨0, k⟩
  | tries + 1, k =>
    match i.onGrid? k with
    | some d => ⟨d, k⟩
    | none => i.search tries (k - 1)

/-- The power of ten of the leading digit of `m * 2 ^ e`, for a positive double. -/
def leadingPower (m : Nat) (e : Int) : Int :=
  ((toDigits (m * pow10 400 * pow2 e.toNat / pow2 (-e).toNat)).length : Int) - 401

/-- The shortest decimal that reads back as the positive double `m * 2 ^ e`. Seventeen digits
always suffice, so the search over nineteen grids succeeds. -/
def shortest (m : Nat) (e : Int) : Scaled :=
  (Interval.of m e).search 19 (leadingPower m e + 1)

/-- A decimal written out in full, without an exponent. -/
def Scaled.positional (d : Scaled) : List Char :=
  let ds := toDigits d.digits
  if 0 ≤ d.exponent then ds ++ List.replicate d.exponent.toNat '0'
  else
    let places := (-d.exponent).toNat
    if places < ds.length then
      ds.take (ds.length - places) ++ '.' :: ds.drop (ds.length - places)
    else '0' :: '.' :: (List.replicate (places - ds.length) '0' ++ ds)

end ScalarSql.Decimal
