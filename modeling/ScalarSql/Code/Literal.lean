import ScalarSql.Code.Gen
import ScalarSql.Value.Basic

/-!
# Literals

The text of a number is read when its code is written. A number in hexadecimal digits stands for 64
bits. A decimal integer beyond 64 bits becomes a REAL.
-/

namespace ScalarSql

/-- What the text of an integer literal stands for. -/
inductive IntegerText where
  | value (i : Int64)
  /-- `2 ^ 63`, which fits only when negated. -/
  | boundary
  /-- A number that does not fit, or no number. -/
  | tooBig
deriving DecidableEq, Repr

namespace IntegerText

/-- The digits after `0x`, if the text starts so. -/
def hexDigits? : List Char → Option (List Char)
  | '0' :: 'x' :: digits => some digits
  | '0' :: 'X' :: digits => some digits
  | _ => none

/-- The number of hexadecimal digits, zeros at the front aside. -/
def ofHex (digits : List Char) : IntegerText :=
  let significant := digits.dropWhile (· == '0')
  if 16 < (Text.toBytes (String.ofList significant)).length then .tooBig
  else if significant.isEmpty then .value 0
  else
    match Text.readHex? significant with
    | some n => .value (Int64.ofNat n)
    | none => .tooBig

def read (text : String) : IntegerText :=
  match hexDigits? text.toList with
  | some digits => ofHex digits
  | none =>
    match Decimal.readUnsigned? text.toList with
    | some n =>
      if n < pow2 63 then .value (Int64.ofNat n) else if n = pow2 63 then .boundary else .tooBig
    | none => .tooBig

def isHex (text : String) : Bool := (hexDigits? text.toList).any (!·.isEmpty)

/-- The number, negated if wanted, if it fits in 64 bits. -/
def signed? (negated : Bool) : IntegerText → Option Int64
  | .value i => if negated then if i.toInt = Binary64.int64Min then none else some (-i) else some i
  | .boundary => if negated then some (Int64.ofInt Binary64.int64Min) else none
  | .tooBig => none

end IntegerText

namespace Gen

def loadReal (text : String) (negated : Bool) (target : Int) : Gen Unit :=
  let x := (Value.parseNumber text).1.asReal
  emit (.of .real 0 target 0 (.real (if negated then -x else x)))

/-- Loads an integer literal; one in hexadecimal digits that does not fit fails when it is run. -/
def loadInteger (text : String) (negated : Bool) (target : Int) : Gen Unit :=
  match (IntegerText.read text).signed? negated with
  | some i => emit (.of .int64 0 target 0 (.int64 i))
  | none =>
    if IntegerText.isHex text then
      emit (.of .halt 1 0 0 (.text ("hex literal too big: " ++ (if negated then "-" else "") ++ text)))
    else loadReal text negated target

def loadBlob (hex : String) (target : Int) : Gen Unit :=
  match Text.readHexBytes? hex.toList with
  | some bytes => emit (.of .blob bytes.length target 0 (.blob bytes))
  | none => throw (.internal ("malformed blob literal x'" ++ hex ++ "'"))

end Gen

end ScalarSql
