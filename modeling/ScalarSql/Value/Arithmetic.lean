import ScalarSql.Value.Basic

/-!
# Operators on values

Arithmetic is exact on integers and falls back to doubles when the result does not fit in 64 bits.
Bit operators work on 64-bit integers. AND, OR and NOT follow three-valued logic, in which an
unknown operand is `none`.
-/

namespace ScalarSql

/-! ## Three-valued logic -/

namespace Truth

/-- False if either operand is false, else unknown if either is unknown. -/
def and : Option Bool → Option Bool → Option Bool
  | some false, _ => some false
  | _, some false => some false
  | some true, some true => some true
  | _, _ => none

/-- True if either operand is true, else unknown if either is unknown. -/
def or : Option Bool → Option Bool → Option Bool
  | some true, _ => some true
  | _, some true => some true
  | some false, some false => some false
  | _, _ => none

/-- The opposite truth; unknown stays unknown. -/
def not (a : Option Bool) : Option Bool := a.map (!·)

end Truth

/-! ## Operators -/

namespace Value

/-- Whether an integer fits in 64 bits. -/
def fits (n : Int) : Bool := Binary64.int64Min ≤ n && n ≤ Binary64.int64Max

/-- A binary operation on numbers: `exact` on two integers, where `none` is NULL, and `onReals` on
doubles, also when the exact integer does not fit in 64 bits. -/
def numericOp (exact : Int → Int → Option Int) (onReals : Float → Float → Value) (a b : Value) :
    Value :=
  if a.isNull || b.isNull then .null
  else
    match a.toNumeric, b.toNumeric with
    | .integer x, .integer y =>
      match exact x.toInt y.toInt with
      | none => .null
      | some n =>
        if fits n then .integer (Int64.ofInt n)
        else onReals (numberReal (.integer x)) (numberReal (.integer y))
    | x, y => onReals x.numberReal y.numberReal

def add : Value → Value → Value :=
  numericOp (fun x y => some (x + y)) (fun x y => ofFloat (x + y))

def subtract : Value → Value → Value :=
  numericOp (fun x y => some (x - y)) (fun x y => ofFloat (x - y))

def multiply : Value → Value → Value :=
  numericOp (fun x y => some (x * y)) (fun x y => ofFloat (x * y))

/-- The quotient, of integers rounded toward zero; NULL for a zero divisor. -/
def divide : Value → Value → Value :=
  numericOp (fun x y => if y = 0 then none else some (x.tdiv y))
    (fun x y => if (Binary64.ofFloat y).isZero then .null else ofFloat (x / y))

/-- The remainder of two doubles: that of their integer parts, as a double. -/
def remainderReals (x y : Float) : Value :=
  let i := (Binary64.ofFloat x).toInt64.toInt
  let j := (Binary64.ofFloat y).toInt64.toInt
  if j = 0 then .null else .real (Binary64.nearest (i.tmod j))

/-- The remainder, of the sign of the dividend; NULL for a zero divisor. -/
def remainder : Value → Value → Value :=
  numericOp (fun x y => if y = 0 then none else some (x.tmod y)) remainderReals

/-- A binary operation on 64-bit integers; NULL if an operand is. -/
def bitwiseOp (f : Int64 → Int64 → Int64) (a b : Value) : Value :=
  if a.isNull || b.isNull then .null else .integer (f a.asInteger b.asInteger)

/-- The opposite of an integer; the greatest one for the least, whose opposite has more than 64 bits. -/
def opposite (n : Int64) : Int64 := if n = Int64.minValue then Int64.maxValue else -n

/-- `x` shifted left by `n` places, or right by `-n` places keeping the sign. -/
def shift (x n : Int64) : Int64 :=
  if 64 ≤ n then 0
  else if 0 ≤ n then x <<< n
  else if n ≤ -64 then if x < 0 then -1 else 0
  else x >>> (-n)

def bitAnd : Value → Value → Value := bitwiseOp (· &&& ·)

def bitOr : Value → Value → Value := bitwiseOp (· ||| ·)

def shiftLeft : Value → Value → Value := bitwiseOp shift

def shiftRight : Value → Value → Value := bitwiseOp fun x n => shift x (opposite n)

def bitNot (v : Value) : Value :=
  if v.isNull then .null else .integer (~~~v.asInteger)

/-- The texts of the operands joined; NULL if either is. -/
def concat (a b : Value) : Value :=
  match a.toText?, b.toText? with
  | some s, some t => .text (s ++ t)
  | _, _ => .null

def and (a b : Value) : Value := ofTruth (Truth.and a.truth b.truth)

def or (a b : Value) : Value := ofTruth (Truth.or a.truth b.truth)

def not (a : Value) : Value := ofTruth (Truth.not a.truth)

end Value

end ScalarSql
