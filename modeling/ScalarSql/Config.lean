/-!
# Settings of the compiler
-/

namespace ScalarSql

/-- Limits and choices of the compiler. -/
structure Config where
  maxDepth : Nat := 1000
  maxArguments : Nat := 127
  /-- How many single registers are kept for reuse. -/
  pooledRegisters : Nat := 8
  /-- The greatest length of a constant list that IN compares item by item. -/
  chainedItems : Nat := 2
  /-- Whether constant expressions may be computed before the first row. -/
  hoistConstants : Bool := true
deriving DecidableEq, Repr, Inhabited

end ScalarSql
