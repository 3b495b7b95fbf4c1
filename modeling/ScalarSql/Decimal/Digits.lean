/-!
# Decimal digits

Reading and writing of natural numbers and integers as decimal text, on lists of characters.
-/

namespace ScalarSql.Decimal

def digitValue (c : Char) : Nat := c.toNat - '0'.toNat

/-- The number that a list of digits spells, most significant digit first. -/
def ofDigits (cs : List Char) : Nat := cs.foldl (fun n c => 10 * n + digitValue c) 0

def toDigits (n : Nat) : List Char := Nat.toDigits 10 n

def intText (i : Int) : String :=
  String.ofList (if i < 0 then '-' :: toDigits i.natAbs else toDigits i.natAbs)

/-- Reads one or more digits and nothing else. -/
def readNat? (cs : List Char) : Option Nat :=
  if cs ≠ [] ∧ cs.all Char.isDigit then some (ofDigits cs) else none

def readUnsigned? : List Char → Option Nat
  | '+' :: cs => readNat? cs
  | cs => readNat? cs

/-- Reads one or more digits after an optional sign. -/
def readInt? : List Char → Option Int
  | '-' :: cs => (readNat? cs).map fun n => -(n : Int)
  | cs => (readUnsigned? cs).map fun n => (n : Int)

end ScalarSql.Decimal
