/-!
# Blank characters

A character is blank if it has the Unicode property White_Space. Reading of numbers skips blanks
around the number, and a declared type of blanks only is no type.
-/

namespace ScalarSql.Text

/-- The characters of the Unicode property White_Space. -/
def isBlank (c : Char) : Bool :=
  let n := c.toNat
  (9 ≤ n && n ≤ 13) || n == 0x20 || n == 0x85 || n == 0xA0 || n == 0x1680 ||
    (0x2000 ≤ n && n ≤ 0x200A) || n == 0x2028 || n == 0x2029 || n == 0x202F || n == 0x205F ||
    n == 0x3000

def trimLeft (cs : List Char) : List Char := cs.dropWhile isBlank

def allBlank (cs : List Char) : Bool := cs.all isBlank

end ScalarSql.Text
