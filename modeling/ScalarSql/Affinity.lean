import ScalarSql.Text.Ascii
import ScalarSql.Text.Blank

/-!
# Affinity

The storage class that a column, a cast or a comparison prefers.
-/

namespace ScalarSql

/-- An affinity. `none` is the affinity of an expression that carries none, such as a literal;
`blob` is the affinity of a column without a declared type. -/
inductive Affinity where
  | none
  /-- Values stay as they are. -/
  | blob
  /-- Numbers become text. -/
  | text
  /-- Text that is a number becomes one. -/
  | numeric
  /-- As `numeric`. -/
  | integer
  /-- Text that is a number and integers become REAL. -/
  | real
deriving DecidableEq, Repr, Inhabited

namespace Affinity

def all : List Affinity := [.none, .blob, .text, .numeric, .integer, .real]

/-- The affinity of a declared type. The first rule that applies decides: a name with `INT` in it is
INTEGER; `CHAR`, `CLOB` or `TEXT` is TEXT; `BLOB` or no name is BLOB; `REAL`, `FLOA` or `DOUB` is
REAL; any other name is NUMERIC. -/
def ofType (name : String) : Affinity :=
  let cs := name.toList.map Char.toUpper
  let has (part : String) : Bool := Text.contains part.toList cs
  if has "INT" then .integer
  else if has "CHAR" || has "CLOB" || has "TEXT" then .text
  else if has "BLOB" || Text.allBlank cs then .blob
  else if has "REAL" || has "FLOA" || has "DOUB" then .real
  else .numeric

def ofType? : Option String → Affinity
  | some name => ofType name
  | Option.none => .blob

def isNumeric : Affinity → Bool
  | .numeric | .integer | .real => true
  | _ => false

/-- The affinity applied when operands of two affinities are compared: the side that has one wins
over the side that has none, a numeric one makes the comparison numeric. -/
def compareWith : Affinity → Affinity → Affinity
  | .none, .none => .blob
  | .none, b => b
  | a, .none => a
  | a, b => if a.isNumeric || b.isNumeric then .numeric else .blob

def code : Affinity → Char
  | .none => '@'
  | .blob => 'A'
  | .text => 'B'
  | .numeric => 'C'
  | .integer => 'D'
  | .real => 'E'

def codes (as : List Affinity) : String := String.ofList (as.map code)

def ofCode? : Char → Option Affinity
  | '@' => some .none
  | 'A' => some .blob
  | 'B' => some .text
  | 'C' => some .numeric
  | 'D' => some .integer
  | 'E' => some .real
  | _ => Option.none

def name : Affinity → String
  | .none => "None"
  | .blob => "Blob"
  | .text => "Text"
  | .numeric => "Numeric"
  | .integer => "Integer"
  | .real => "Real"

@[simp]
theorem ofCode?_code (a : Affinity) : ofCode? a.code = some a := by cases a <;> rfl

end Affinity

end ScalarSql
