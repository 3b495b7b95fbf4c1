import ScalarSql.Code.Gen
import ScalarSql.Expr.Print

/-!
# Coded expressions

The code of an expression is a record of the ways in which it can be computed: into a register, into
any register, as a branch, and for sub-selects and IN in ways of their own. The record of a node is
built from the records of its parts, so that one recursion over the tree makes them all.
-/

namespace ScalarSql

/-- How the right side of IN is probed. -/
inductive Strategy where
  /-- Each item of a list is compared in turn. -/
  | chain
  | rowid
  | index
  | ephemeral
deriving DecidableEq, Repr, Inhabited

def Strategy.name : Strategy → String
  | .chain => "NoTable"
  | .rowid => "UseRowidTable"
  | .index => "UseExistingIndex"
  | .ephemeral => "UseEphemeralTable"

/-- What the right side of IN is wanted for. -/
structure ProbeUse where
  /-- The caller can compare with each item in turn. -/
  chain : Bool := false
  /-- The caller visits each entry, so no entry may be there twice. -/
  loop : Bool := false
deriving DecidableEq, Repr, Inhabited

/-- How to probe the right side of IN. -/
structure Plan where
  strategy : Strategy
  cursor : Int
  /-- A register that is NULL if there is a NULL key. -/
  hasNull : Option Int
  notNull : Bool
  /-- The key field that each field of the left side is compared with. -/
  map : List Nat
deriving DecidableEq, Repr, Inhabited

/-- The code of an expression that is used for its value. -/
structure Code where
  expr : Expr
  /-- Computes the value, into the given register if it is not in another one already; returns the
  register that holds it. -/
  target : Int → Gen Int
  /-- Computes the value into any register; returns it, and again if it is to be released. -/
  temp : Gen (Int × Option Int)

/-- The code of an expression. -/
structure Coded extends Code where
  fields : List Code := []
  /-- Jumps to the label if the outcome is as wanted, or if it is NULL and NULL is to jump. The
  height of the expression was checked before. -/
  jump : (wanted : Bool) → Label → (jumpIfNull : Bool) → Gen Unit
  /-- As `jump`, with the height checked and AND and OR with a literal reduced. -/
  branch : (wanted : Bool) → Label → (jumpIfNull : Bool) → Gen Unit
  /-- Runs a sub-select and returns the first register of its result. -/
  subselect : Gen Int
  /-- Fills an ephemeral table on the cursor with the right side of IN. -/
  fillRight : Int → Gen Unit
  /-- Chooses how to probe the right side of IN and makes it ready; the flag asks for a register
  that tells of NULL keys. -/
  plan : ProbeUse → Bool → Gen Plan
  /-- Goes on if the left side is in the right side, and jumps to the first label if it is not and
  to the second if that is unknown. -/
  member : (ifFalse ifNull : Label) → Gen Unit

namespace Gen

def isRegister (e : Expr) : Bool :=
  match e.kind with
  | .register .. => true
  | _ => false

/-- Computes an expression into any register: a constant is set aside, any other gets a register
for a short time. -/
def tempOf (e : Expr) (target : Int → Gen Int) : Gen (Int × Option Int) := do
  if !isRegister e && (← hoists e) then return (← hoist e none, none)
  let temp ← getTemp
  let reg ← target temp
  if reg = temp then return (reg, some temp)
  releaseTemp temp
  return (reg, none)

def jumpOnTruth (e : Expr) (temp : Gen (Int × Option Int)) (wanted : Bool) (dest : Label)
    (jumpIfNull : Bool) : Gen Unit := do
  let (always, never) := if wanted then (e.isAlwaysTrue, e.isAlwaysFalse)
    else (e.isAlwaysFalse, e.isAlwaysTrue)
  if always then goto dest
  else if !never then
    let (reg, free) ← temp
    emitJump (.of (if wanted then .ifTrue else .ifFalse) reg 0 (if jumpIfNull then 1 else 0)) dest
    release free

def notSubselect {α : Type} (e : Expr) : Gen α :=
  throw (.internal ("not a sub-select: " ++ e.display))

def notMembership {α : Type} (e : Expr) : Gen α :=
  throw (.internal ("not an IN operator: " ++ e.display))

end Gen

namespace Code

/-- The code of a node whose value `body` computes. -/
def of (e : Expr) (body : Int → Gen Int) : Code :=
  let target (reg : Int) : Gen Int := do
    Gen.checkHeight e
    body reg
  { expr := e, target, temp := Gen.tempOf e target }

def exact (c : Code) (reg : Int) : Gen Unit := do
  let found ← c.target reg
  if found ≠ reg then
    match c.expr.kind with
    | .collate .. => Gen.emit (.of .copy found reg)
    | _ => Gen.emit (.of .copyOne found reg)

/-- Computes the value into exactly the given register, always by a full copy. -/
def copied (c : Code) (reg : Int) : Gen Unit := do
  let found ← c.target reg
  if found ≠ reg then Gen.emit (.of .copy found reg)

/-- Computes the value into exactly the given register, before the first row if it is constant. -/
def factored (c : Code) (reg : Int) : Gen Unit := do
  if ← Gen.hoists c.expr then discard (Gen.hoist c.expr (some reg)) else c.exact reg

end Code

namespace Coded

def ofJump (c : Code) (jump : Bool → Label → Bool → Gen Unit) : Coded :=
  { c with
    jump
    branch := fun wanted dest jumpIfNull => do
      Gen.checkHeight c.expr
      jump wanted dest jumpIfNull
    subselect := Gen.notSubselect c.expr
    fillRight := fun _ => Gen.notMembership c.expr
    plan := fun _ _ => Gen.notMembership c.expr
    member := fun _ _ => Gen.notMembership c.expr }

/-- The code of a node from the code of its value; it branches on the value's truth. -/
def ofCode (c : Code) : Coded := ofJump c (Gen.jumpOnTruth c.expr c.temp)

def of (e : Expr) (body : Int → Gen Int) : Coded := ofCode (.of e body)

/-- The code of a node that loads its value by one step into the given register. -/
def load (e : Expr) (body : Int → Gen Unit) : Coded :=
  of e fun reg => do
    body reg
    return reg

def fail (e : Expr) (error : CompileError) : Coded := of e fun _ => throw error

def register (e : Expr) (reg : Int) : Coded := of e fun _ => return reg

def collate (e : Expr) (operand : Coded) : Coded :=
  ofCode { Code.of e operand.target with temp := operand.temp }

def factorFields : List Code → (reg : Int) → Gen Unit
  | [], _ => return ()
  | c :: rest, reg => do
    c.factored reg
    factorFields rest (reg + 1)

/-- Computes an expression of one or several fields into registers in a row; returns the first, and
again if it is to be released. -/
def row (c : Coded) : Gen (Int × Option Int) := do
  if c.expr.vectorSize = 1 then c.temp
  else
    match c.expr.kind with
    | .register reg _ => return (reg, none)
    | .subquery .. => return (← c.subselect, none)
    | .vector _ =>
      let first ← Gen.allocRegs c.expr.vectorSize
      factorFields c.fields first
      return (first, none)
    | _ => throw .rowValueMisused

end Coded

/-! ## Lists -/

/-- How the expressions of a list are computed. -/
structure ListMode where
  full : Bool := false
  factor : Bool := false
  /-- Items that refer to a result column are copied from it. -/
  byReference : Bool := false
  /-- Items that refer to a result column are left out, together with `byReference`. -/
  omitReferences : Bool := false
deriving DecidableEq, Repr, Inhabited

namespace ListMode

def ofNat (n : Nat) : ListMode :=
  { full := n.testBit 0, factor := n.testBit 1, byReference := n.testBit 2
    omitReferences := n.testBit 3 }

def copyOpcode (m : ListMode) : Opcode := if m.full then .copy else .copyOne

end ListMode

namespace Gen

/-- Copies a register to another one; a full copy next to the last one is made part of it. -/
def listCopy (m : ListMode) (source target : Int) : Gen Unit := do
  match (← get).builder.last? with
  | some ⟨.copy, p1, p2, p3, _, _⟩ =>
    if m.full && p1 + p3 + 1 == source && p2 + p3 + 1 == target then
      modifyAt ((← here) - 1) fun i => { i with p3 := p3 + 1 }
    else emit (.of m.copyOpcode source target)
  | _ => emit (.of m.copyOpcode source target)

/-- Computes the items of a list into registers from `reg` on; `results` is the first register of
the result columns that items refer to. Returns the number of registers filled. -/
def list (m : ListMode) (results : Int) : List (Item Code) → (reg : Int) → Gen Nat
  | [], _ => return 0
  | item :: rest, reg => do
    if m.byReference && item.resultColumn ≠ 0 then
      if m.omitReferences then list m results rest reg
      else
        emit (.of m.copyOpcode (results + item.resultColumn - 1) reg)
        return (← list m results rest (reg + 1)) + 1
    else
      if m.factor && item.expr.expr.isConstant .notJoin then
        discard (hoist item.expr.expr (some reg))
      else
        let found ← item.expr.target reg
        if found ≠ reg then listCopy m found reg
      return (← list m results rest (reg + 1)) + 1

/-- Computes the items of a list, with constants only set aside where that is allowed. -/
def exprList (m : ListMode) (items : List (Item Code)) (reg results : Int) : Gen Nat := do
  let hoisting := (← get).hoisting
  list { m with factor := m.factor && hoisting } results items reg

end Gen

end ScalarSql
