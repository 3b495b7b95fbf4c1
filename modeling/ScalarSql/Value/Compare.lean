import ScalarSql.Value.Basic

/-!
# The order of values

NULL comes first, then numbers, then text, then blobs. Numbers compare by size, text by the given
text order, blobs byte by byte.
-/

namespace ScalarSql

namespace Text

/-- An order of texts. -/
abbrev Compare := String → String → Ordering

/-- The order by code points, which is the order by UTF-8 bytes. -/
def binary : Compare := fun a b => compare a.toList b.toList

/-- The order that ignores the case of ASCII letters. -/
def nocase : Compare := fun a b =>
  compare (a.toList.map Char.toLower) (b.toList.map Char.toLower)

/-- The characters before the spaces at the end. -/
def dropTrailingSpaces (cs : List Char) : List Char := (cs.reverse.dropWhile (· == ' ')).reverse

/-- The order that ignores spaces at the end. -/
def rtrim : Compare := fun a b =>
  compare (dropTrailingSpaces a.toList) (dropTrailingSpaces b.toList)

end Text

namespace Value

/-- The order of an integer and a double. A whole double in the range of 64-bit integers compares
with the integer exactly; any other compares with the double closest to the integer. -/
def compareIntReal (i : Int64) (r : Float) : Ordering :=
  let x := Binary64.ofFloat r
  if x.isIntegral ∧ Binary64.int64Min ≤ x.truncate ∧ x.truncate ≤ Binary64.int64Max then
    compare i.toInt x.truncate
  else (Binary64.ofFloat (Binary64.nearest i.toInt)).compare x

/-- The order of two values, given an order of texts. -/
def compareWith (order : Text.Compare) : Value → Value → Ordering
  | .null, .null => .eq
  | .integer a, .integer b => compare a.toInt b.toInt
  | .integer a, .real b => compareIntReal a b
  | .real a, .integer b => (compareIntReal b a).swap
  | .real a, .real b => (Binary64.ofFloat a).compare (Binary64.ofFloat b)
  | .text a, .text b => order a b
  | .blob a, .blob b => compare a b
  | a, b => compare a.storageClass.rank b.storageClass.rank

def compare (a b : Value) : Ordering := compareWith Text.binary a b

end Value

end ScalarSql
