import ScalarSql.Affinity
import ScalarSql.Numeral
import ScalarSql.Text.Hex
import ScalarSql.Text.Utf8

/-!
# Values

A value has one of five storage classes. Text and blobs act as numbers through the longest numeral
they start with; conversions by affinity and by CAST are here too.
-/

namespace ScalarSql

inductive StorageClass where
  | null
  | integer
  | real
  | text
  | blob
deriving DecidableEq, Repr, Inhabited

namespace StorageClass

def ofCode? : Nat → Option StorageClass
  | 0 => some .null
  | 1 => some .integer
  | 2 => some .real
  | 3 => some .text
  | 4 => some .blob
  | _ => none

def unknownMessage (code : Nat) : String := "Unknown storage class: " ++ Decimal.intText code

def name : StorageClass → String
  | .null => "null"
  | .integer => "integer"
  | .real => "real"
  | .text => "text"
  | .blob => "blob"

/-- The place of the class in the order of values; integers and doubles share one. -/
def rank : StorageClass → Nat
  | .null => 0
  | .integer | .real => 1
  | .text => 2
  | .blob => 3

end StorageClass

/-- A value of a register, a record field or a literal. -/
inductive Value where
  | null
  | integer (i : Int64)
  | real (r : Float)
  | text (s : String)
  | blob (bytes : List UInt8)
deriving DecidableEq, Inhabited

namespace Value

/-- The REAL of a computed double, where not-a-number becomes NULL. -/
def ofFloat (x : Float) : Value := if Binary64.ofFloat x = .nan then .null else .real x

/-- One for true and zero for false. -/
def ofBool (b : Bool) : Value := .integer (if b then 1 else 0)

/-- One, zero, or NULL for unknown. -/
def ofTruth : Option Bool → Value
  | some b => ofBool b
  | none => .null

def storageClass : Value → StorageClass
  | .null => .null
  | .integer _ => .integer
  | .real _ => .real
  | .text _ => .text
  | .blob _ => .blob

def isNull : Value → Bool
  | .null => true
  | _ => false

def isNumeric : Value → Bool
  | .integer _ | .real _ => true
  | _ => false

/-! ## Numbers in text -/

/-- The number of a numeral: an INTEGER if it has neither point nor power of ten and fits in 64
bits, else a REAL. -/
def ofNumeral (n : Numeral) : Value :=
  if n.isInteger ∧ Binary64.int64Min ≤ n.integer ∧ n.integer ≤ Binary64.int64Max then
    .integer (Int64.ofInt n.integer)
  else ofFloat n.real

/-- The number that a text starts with, after blanks, and whether nothing but blanks follows it. A
text that starts with no number gives zero. -/
def parseNumber (s : String) : Value × Bool :=
  match Numeral.scan? (Text.trimLeft s.toList) with
  | some (n, rest) => (ofNumeral n, Text.allBlank rest)
  | none => (.integer 0, false)

/-- The value as an arithmetic operand: text and blobs become the number they start with. -/
def toNumeric : Value → Value
  | .text s => (parseNumber s).1
  | .blob b => (parseNumber (Text.ofBytes b)).1
  | v => v

/-- The double of a number, zero for anything else. -/
def numberReal : Value → Float
  | .integer i => Binary64.nearest i.toInt
  | .real r => r
  | _ => 0.0

/-- The integer of a number, zero for anything else. -/
def numberInteger : Value → Int64
  | .integer i => i
  | .real r => (Binary64.ofFloat r).toInt64
  | _ => 0

def asReal (v : Value) : Float := v.toNumeric.numberReal

def asInteger (v : Value) : Int64 := v.toNumeric.numberInteger

/-- The truth of the value: unknown for NULL, else whether it is a number other than zero. -/
def truth : Value → Option Bool
  | .null => none
  | .integer i => some (i != 0)
  | v => some (!(Binary64.ofFloat v.asReal).isZero)

/-- The text of the value; NULL has none. -/
def toText? : Value → Option String
  | .null => none
  | .integer i => some (Decimal.intText i.toInt)
  | .real r => some (Decimal.realText r)
  | .text s => some s
  | .blob b => some (Text.ofBytes b)

def display : Value → String
  | .null => "NULL"
  | .integer i => Decimal.intText i.toInt
  | .real r => Decimal.realText r
  | .text s => s
  | .blob b => "x'" ++ Text.hexBytes b ++ "'"

/-! ## Conversions -/

/-- The bound below which a whole REAL becomes an INTEGER. -/
def exactBound : Int := pow2 63 - 1024

/-- A whole REAL of size below the bound becomes an INTEGER. -/
def integralIfExact : Value → Value
  | .real r =>
    let x := Binary64.ofFloat r
    if x.isIntegral ∧ -exactBound ≤ x.truncate ∧ x.truncate < exactBound then
      .integer (Int64.ofInt x.truncate)
    else .real r
  | v => v

/-- The value as a column or a comparison of the given affinity holds it. Text becomes a number only
if all of it is one. -/
def applyAffinity : Affinity → Value → Value
  | .text, .integer i => .text (Decimal.intText i.toInt)
  | .text, .real r => .text (Decimal.realText r)
  | .numeric, .text s | .integer, .text s =>
    let (number, whole) := parseNumber s
    if whole then number.integralIfExact else .text s
  | .numeric, .real r | .integer, .real r => integralIfExact (.real r)
  | .real, .text s =>
    let (number, whole) := parseNumber s
    if whole then ofFloat number.asReal else .text s
  | .real, .integer i => .real (Binary64.nearest i.toInt)
  | _, v => v

/-- The value converted by CAST to the given affinity; NULL stays NULL. -/
def cast (a : Affinity) (v : Value) : Value :=
  match v.toText? with
  | none => .null
  | some s =>
    match a with
    | .blob | .none =>
      match v with
      | .blob b => .blob b
      | _ => .blob (Text.toBytes s)
    | .text => .text s
    | .numeric => v.toNumeric.integralIfExact
    | .integer => .integer v.asInteger
    | .real => ofFloat v.asReal

end Value

end ScalarSql
