/-!
# Operators
-/

namespace ScalarSql

inductive BinaryOp where
  | and
  | or
  | eq
  | ne
  | lt
  | le
  | gt
  | ge
  /-- Equality where NULL equals NULL. -/
  | is
  /-- Inequality where NULL equals NULL. -/
  | isNot
  | add
  | sub
  | mul
  | div
  | rem
  | bitAnd
  | bitOr
  | shiftLeft
  | shiftRight
  | concat
deriving DecidableEq, Repr, Inhabited

namespace BinaryOp

def all : List BinaryOp :=
  [.and, .or, .eq, .ne, .lt, .le, .gt, .ge, .is, .isNot, .add, .sub, .mul, .div, .rem, .bitAnd,
    .bitOr, .shiftLeft, .shiftRight, .concat]

def isComparison : BinaryOp → Bool
  | .eq | .ne | .lt | .le | .gt | .ge | .is | .isNot => true
  | _ => false

def isLogical : BinaryOp → Bool
  | .and | .or => true
  | _ => false

/-- The comparison with the opposite outcome on operands other than NULL. -/
def negated? : BinaryOp → Option BinaryOp
  | .eq => some .ne
  | .ne => some .eq
  | .lt => some .ge
  | .le => some .gt
  | .gt => some .le
  | .ge => some .lt
  | .is => some .isNot
  | .isNot => some .is
  | _ => none

def sign : BinaryOp → String
  | .and => "AND"
  | .or => "OR"
  | .eq => "="
  | .ne => "<>"
  | .lt => "<"
  | .le => "<="
  | .gt => ">"
  | .ge => ">="
  | .is => "IS"
  | .isNot => "IS NOT"
  | .add => "+"
  | .sub => "-"
  | .mul => "*"
  | .div => "/"
  | .rem => "%"
  | .bitAnd => "&"
  | .bitOr => "|"
  | .shiftLeft => "<<"
  | .shiftRight => ">>"
  | .concat => "||"

def name : BinaryOp → String
  | .and => "And"
  | .or => "Or"
  | .eq => "Eq"
  | .ne => "Ne"
  | .lt => "Lt"
  | .le => "Le"
  | .gt => "Gt"
  | .ge => "Ge"
  | .is => "Is"
  | .isNot => "IsNot"
  | .add => "Add"
  | .sub => "Sub"
  | .mul => "Mul"
  | .div => "Div"
  | .rem => "Rem"
  | .bitAnd => "BitAnd"
  | .bitOr => "BitOr"
  | .shiftLeft => "ShiftLeft"
  | .shiftRight => "ShiftRight"
  | .concat => "Concat"

def ofName? (name : String) : Option BinaryOp := all.find? (·.name == name)

end BinaryOp

inductive UnaryOp where
  | negate
  | positive
  | bitNot
  | not
  | isNull
  | notNull
  | isTrue
  /-- Whether the operand is false or NULL. -/
  | isNotTrue
  | isFalse
  /-- Whether the operand is true or NULL. -/
  | isNotFalse
deriving DecidableEq, Repr, Inhabited

/-- A test of an operand for true or false. -/
structure TruthTest where
  /-- Whether the test is for true. -/
  forTrue : Bool
  /-- Whether the outcome is inverted. -/
  negated : Bool
deriving DecidableEq, Repr, Inhabited

namespace UnaryOp

def all : List UnaryOp :=
  [.negate, .positive, .bitNot, .not, .isNull, .notNull, .isTrue, .isNotTrue, .isFalse, .isNotFalse]

def truthTest? : UnaryOp → Option TruthTest
  | .isTrue => some ⟨true, false⟩
  | .isNotTrue => some ⟨true, true⟩
  | .isFalse => some ⟨false, false⟩
  | .isNotFalse => some ⟨false, true⟩
  | _ => none

def sign : UnaryOp → String
  | .negate => "-"
  | .positive => "+"
  | .bitNot => "~"
  | .not => "NOT"
  | .isNull => "IS NULL"
  | .notNull => "IS NOT NULL"
  | .isTrue => "IS TRUE"
  | .isNotTrue => "IS NOT TRUE"
  | .isFalse => "IS FALSE"
  | .isNotFalse => "IS NOT FALSE"

def isAfter : UnaryOp → Bool
  | .isNull | .notNull | .isTrue | .isNotTrue | .isFalse | .isNotFalse => true
  | _ => false

def name : UnaryOp → String
  | .negate => "Negate"
  | .positive => "Positive"
  | .bitNot => "BitNot"
  | .not => "Not"
  | .isNull => "IsNull"
  | .notNull => "NotNull"
  | .isTrue => "IsTrue"
  | .isNotTrue => "IsNotTrue"
  | .isFalse => "IsFalse"
  | .isNotFalse => "IsNotFalse"

def ofName? (name : String) : Option UnaryOp := all.find? (·.name == name)

end UnaryOp

end ScalarSql
