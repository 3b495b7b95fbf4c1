/-!
# Hexadecimal text

Bytes are written as two small hexadecimal digits each. A blob literal is read two characters at a
time; each pair is a number of base sixteen that may start with a plus sign.
-/

namespace ScalarSql.Text

/-- The hexadecimal digit of a number below sixteen. -/
def hexDigit (n : Nat) : Char := Nat.digitChar n

def hexValue? (c : Char) : Option Nat :=
  if '0' ≤ c ∧ c ≤ '9' then some (c.toNat - '0'.toNat)
  else if 'a' ≤ c ∧ c ≤ 'f' then some (c.toNat - 'a'.toNat + 10)
  else if 'A' ≤ c ∧ c ≤ 'F' then some (c.toNat - 'A'.toNat + 10)
  else none

def hexByte (b : UInt8) : List Char := [hexDigit (b.toNat / 16), hexDigit (b.toNat % 16)]

def hexBytes (bytes : List UInt8) : String := String.ofList (bytes.flatMap hexByte)

/-- The number that a list of hexadecimal digits spells, most significant digit first. -/
def ofHexDigits? : List Char → Option Nat :=
  fun cs => cs.foldl (fun n c => do return 16 * (← n) + (← hexValue? c)) (some 0)

def readHex? (cs : List Char) : Option Nat :=
  match cs with
  | ['+'] => none
  | '+' :: ds => ofHexDigits? ds
  | [] => none
  | ds => ofHexDigits? ds

/-- Reads pairs of characters as bytes; an odd number of characters has no reading. -/
def readHexBytes? : List Char → Option (List UInt8)
  | [] => some []
  | [_] => none
  | a :: b :: rest => do
    let byte ← readHex? [a, b]
    let bytes ← readHexBytes? rest
    return UInt8.ofNat byte :: bytes

end ScalarSql.Text
