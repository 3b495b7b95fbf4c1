/-!
# Flags of expressions and sub-selects

Each flag has a bit by which a set of flags is written as a number.
-/

namespace ScalarSql

/-- Writes flags as a number, the first one as the lowest bit. -/
def bitsOf : List Bool → Nat
  | [] => 0
  | b :: bs => (if b then 1 else 0) + 2 * bitsOf bs

/-- Properties of an expression node. -/
structure ExprFlags where
  /-- The node comes from the ON or USING clause of an outer join. -/
  fromJoin : Bool := false
  distinct : Bool := false
  /-- The tree contains a COLLATE operator. -/
  collate : Bool := false
  subquery : Bool := false
  hasCall : Bool := false
  /-- A sub-select that depends on rows outside of it. -/
  correlated : Bool := false
  /-- A column that may stand on a row of NULLs. -/
  canBeNull : Bool := false
  /-- A call of a function that always gives the same result. -/
  constantCall : Bool := false
  /-- A call that only hints at how likely its argument is. -/
  unlikely : Bool := false
  quoted : Bool := false
  reduced : Bool := false
  /-- A reduced copy of a leaf. -/
  tokenOnly : Bool := false
deriving DecidableEq, Repr, Inhabited

namespace ExprFlags

def union (a b : ExprFlags) : ExprFlags :=
  { fromJoin := a.fromJoin || b.fromJoin
    distinct := a.distinct || b.distinct
    collate := a.collate || b.collate
    subquery := a.subquery || b.subquery
    hasCall := a.hasCall || b.hasCall
    correlated := a.correlated || b.correlated
    canBeNull := a.canBeNull || b.canBeNull
    constantCall := a.constantCall || b.constantCall
    unlikely := a.unlikely || b.unlikely
    quoted := a.quoted || b.quoted
    reduced := a.reduced || b.reduced
    tokenOnly := a.tokenOnly || b.tokenOnly }

/-- The flags that a node passes on to the node above it. -/
def inherited (a : ExprFlags) : ExprFlags :=
  { collate := a.collate, subquery := a.subquery, hasCall := a.hasCall }

def toNat (a : ExprFlags) : Nat :=
  bitsOf [a.fromJoin, a.distinct, a.collate, a.subquery, a.hasCall, a.correlated, a.canBeNull,
    a.constantCall, a.unlikely, a.quoted, a.reduced, a.tokenOnly]

def ofNat (n : Nat) : ExprFlags :=
  { fromJoin := n.testBit 0
    distinct := n.testBit 1
    collate := n.testBit 2
    subquery := n.testBit 3
    hasCall := n.testBit 4
    correlated := n.testBit 5
    canBeNull := n.testBit 6
    constantCall := n.testBit 7
    unlikely := n.testBit 8
    quoted := n.testBit 9
    reduced := n.testBit 10
    tokenOnly := n.testBit 11 }

end ExprFlags

/-- Properties of a sub-select. -/
structure SelectFlags where
  distinct : Bool := false
  aggregate : Bool := false
deriving DecidableEq, Repr, Inhabited

namespace SelectFlags

def toNat (a : SelectFlags) : Nat := bitsOf [a.distinct, a.aggregate]

def ofNat (n : Nat) : SelectFlags := { distinct := n.testBit 0, aggregate := n.testBit 1 }

end SelectFlags

end ScalarSql
