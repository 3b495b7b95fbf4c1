import ScalarSql.Decimal.Digits

/-!
# Errors of compilation
-/

namespace ScalarSql

/-- Why an expression has no code. -/
inductive CompileError where
  | tooDeep (max : Nat)
  | tooManyArguments (function : String) (max : Nat)
  | noSuchCollation (name : String)
  | unknownFunction (name : String)
  | wrongArgumentCount (name : String)
  | misuseOfAggregate (name : String)
  | rowValueMisused
  | subselectColumns (actual expected : Nat)
  /-- A sub-query of the wrong width for an assignment. -/
  | vectorAssignment (columns values : Nat)
  | raiseOutsideTrigger
  | unresolvedIdentifier (name : String)
  | ambiguousColumn (name : String)
  | noSelectCoder
  /-- The compiler was asked for what it cannot do. -/
  | internal (message : String)
deriving DecidableEq, Repr, Inhabited

namespace CompileError

def message : CompileError → String
  | .tooDeep max => "Expression tree is too large (maximum depth " ++ Decimal.intText max ++ ")"
  | .tooManyArguments function max =>
    "too many arguments on function " ++ function ++ " (maximum " ++ Decimal.intText max ++ ")"
  | .noSuchCollation name => "no such collation sequence: " ++ name
  | .unknownFunction name => "unknown function: " ++ name ++ "()"
  | .wrongArgumentCount name => "wrong number of arguments to function " ++ name ++ "()"
  | .misuseOfAggregate name => "misuse of aggregate: " ++ name ++ "()"
  | .rowValueMisused => "row value misused"
  | .subselectColumns actual expected =>
    "sub-select returns " ++ Decimal.intText actual ++ " columns - expected " ++
      Decimal.intText expected
  | .vectorAssignment columns values =>
    Decimal.intText columns ++ " columns assigned " ++ Decimal.intText values ++ " values"
  | .raiseOutsideTrigger => "RAISE() may only be used within a trigger-program"
  | .unresolvedIdentifier name => "no such column: " ++ name
  | .ambiguousColumn name => "ambiguous column name: " ++ name
  | .noSelectCoder => "no select compiler available for sub-select"
  | .internal message => "internal error: " ++ message

def name : CompileError → String
  | .tooDeep _ => "ExpressionTooDeep"
  | .tooManyArguments .. => "TooManyArguments"
  | .noSuchCollation _ => "NoSuchCollation"
  | .unknownFunction _ => "UnknownFunction"
  | .wrongArgumentCount _ => "WrongArgumentCount"
  | .misuseOfAggregate _ => "MisuseOfAggregate"
  | .rowValueMisused => "RowValueMisused"
  | .subselectColumns .. => "SubselectColumns"
  | .vectorAssignment .. => "VectorAssignment"
  | .raiseOutsideTrigger => "RaiseOutsideTrigger"
  | .unresolvedIdentifier _ => "UnresolvedIdentifier"
  | .ambiguousColumn _ => "AmbiguousColumn"
  | .noSelectCoder => "NoSelectCoder"
  | .internal _ => "Internal"

end CompileError

end ScalarSql
