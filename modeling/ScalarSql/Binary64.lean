import ScalarSql.Power

/-!
# The exact value of a double

A REAL is a 64-bit double. `Binary64` is its meaning: not a number, an infinity, or a signed integer
times a power of two. Comparison, truncation and the test for an integer are done here on integers
of unbounded size, so they are exact. `nearest` goes the other way: it rounds an integer to the
closest double, a tie to the even one.
-/

namespace ScalarSql

/-- What a double stands for. -/
inductive Binary64 where
  | nan
  | infinite (negative : Bool)
  /-- The number `mantissa * 2 ^ exponent`, negated if `negative`. -/
  | finite (negative : Bool) (mantissa : Nat) (exponent : Int)
deriving DecidableEq, Repr, Inhabited

namespace Binary64

/-- The meaning of the 64 bits `n`: a sign bit, eleven exponent bits and 52 fraction bits. -/
def ofBits (n : Nat) : Binary64 :=
  let negative := n / pow2 63 % 2 == 1
  let exponent : Nat := n / pow2 52 % pow2 11
  let fraction : Nat := n % pow2 52
  if exponent = 2047 then
    if fraction = 0 then .infinite negative else .nan
  else if exponent = 0 then .finite negative fraction (-1074)
  else .finite negative (pow2 52 + fraction) ((exponent : Int) - 1075)

def ofFloat (x : Float) : Binary64 := ofBits x.toBits.toNat

def signed (negative : Bool) (n : Nat) : Int := if negative then -(n : Int) else n

/-- Whether the value is a whole number; an infinity and not-a-number are not. -/
def isIntegral : Binary64 → Bool
  | .finite _ m e => 0 ≤ e || m % pow2 (-e).toNat == 0
  | _ => false

def isZero : Binary64 → Bool
  | .finite _ m _ => m == 0
  | _ => false

/-- The finite value without its fraction, rounded toward zero; zero for the others. -/
def truncate : Binary64 → Int
  | .finite s m e => signed s (m * pow2 e.toNat / pow2 (-e).toNat)
  | _ => 0

def int64Min : Int := -pow2 63

def int64Max : Int := pow2 63 - 1

/-- The closest 64-bit integer toward zero: values beyond the range go to its ends and
not-a-number goes to zero. -/
def toInt64 : Binary64 → Int64
  | .nan => 0
  | .infinite s => Int64.ofInt (if s then int64Min else int64Max)
  | x => Int64.ofInt (max int64Min (min int64Max x.truncate))

/-- The order of two finite values, by their integers over the smaller exponent. -/
def compareFinite (s : Bool) (m : Nat) (e : Int) (t : Bool) (n : Nat) (f : Int) : Ordering :=
  let base := min e f
  compare (signed s (m * pow2 (e - base).toNat)) (signed t (n * pow2 (f - base).toNat))

def order? : Binary64 → Binary64 → Option Ordering
  | .nan, _ => none
  | _, .nan => none
  | .infinite s, .infinite t => some (compare t s)
  | .infinite s, .finite .. => some (if s then .lt else .gt)
  | .finite .., .infinite t => some (if t then .gt else .lt)
  | .finite s m e, .finite t n f => some (compareFinite s m e t n f)

/-- The order of two values, where not-a-number counts as equal to every value. -/
def compare (x y : Binary64) : Ordering := (order? x y).getD .eq

/-- `n / 2 ^ k` rounded to the nearest integer, a tie to the even one. -/
def shiftRound (n k : Nat) : Nat :=
  let q := n / pow2 k
  let twice := 2 * (n % pow2 k)
  if twice < pow2 k then q
  else if pow2 k < twice then q + 1
  else q + q % 2

/-- The mantissa and exponent of the double closest to `n`, for `n` below the largest double. -/
def roundNat (n : Nat) : Nat × Nat :=
  let k := n.log2 - 52
  (shiftRound n k, k)

/-- The bits of the double `m * 2 ^ e` with `m ≤ 2 ^ 53`, which must be representable. -/
def bitsOfNat (m e : Nat) : Nat :=
  if m = 0 then 0
  else
    let width := m.log2
    let fraction := m * pow2 (52 - width) / pow2 (width - 52) - pow2 52
    (width + e + 1023) * pow2 52 + fraction

/-- The double closest to the integer `i`, a tie to the even mantissa; `i` has at most 1000 bits. -/
def nearest (i : Int) : Float :=
  let r := roundNat i.natAbs
  let bits := bitsOfNat r.1 r.2
  Float.ofBits (UInt64.ofNat (if i < 0 then pow2 63 + bits else bits))

end Binary64

end ScalarSql
