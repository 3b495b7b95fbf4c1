import ScalarSql.Code.Coded

/-!
# Sub-selects

A sub-select reads at most one table, row by row, and delivers the rows that its filter keeps. The
arms of a compound run one after the other. A sub-select that depends on no row outside of it runs
once; its code is a routine that later uses call.
-/

namespace ScalarSql

/-- Where the rows of a sub-select go. -/
inductive Delivery where
  /-- Each row becomes a key of the ephemeral table on a cursor, converted by affinity codes. -/
  | keys (cursor : Int) (affinity : String)
  /-- The first row goes into registers in a row. -/
  | registers (base : Int)
  /-- A register becomes one if there is a row. -/
  | flag (reg : Int)
deriving DecidableEq, Repr, Inhabited

/-- The code of one arm of a sub-select. -/
structure ArmCode where
  sources : List Source
  aggregated : Bool
  limited : Bool
  columns : List (Item Code)
  filter : Option Coded

namespace Gen

/-- Delivers the row that the result columns make. -/
def deliverRow (columns : List (Item Code)) (finished : Label) : Delivery → Gen Unit
  | .keys cursor affinity => do
    let n : Int := columns.length
    let first ← getTempRange n
    discard (exprList {} columns first 0)
    let record ← getTemp
    emit (.of .makeRecord first n record (.affinity affinity))
    emit (.of .idxInsert cursor record)
    releaseTemp record
    releaseTempRange first n
  | .registers base => do
    discard (exprList {} columns base 0)
    goto finished
  | .flag reg => do
    emit (.of .integer 1 reg)
    goto finished

/-- Delivers a row if the filter keeps it, else goes to the label. -/
def deliverKept (arm : ArmCode) (dropped finished : Label) (dest : Delivery) : Gen Unit := do
  match arm.filter with
  | some filter => filter.branch false dropped true
  | none => pure ()
  deliverRow arm.columns finished dest
  resolve dropped

def runArm (arm : ArmCode) (finished : Label) (dest : Delivery) : Gen Unit := do
  if arm.aggregated then throw (.internal "aggregate sub-selects need a statement compiler")
  if arm.limited then throw (.internal "LIMIT in a sub-select needs a statement compiler")
  let dropped ← label
  match arm.sources with
  | [] => deliverKept arm dropped finished dest
  | [source] =>
    noteCursor source.cursor
    emit (.of .openRead source.cursor 0 0 (.table source.table))
    let done ← label
    emitJump (.of .rewind source.cursor) done
    let top ← here
    deliverKept arm dropped finished dest
    emit (.of .next source.cursor top)
    resolve done
  | _ => throw (.internal "joins in a sub-select need a statement compiler")

def runArms (finished : Label) (dest : Delivery) : List ArmCode → Gen Unit
  | [] => return ()
  | arm :: rest => do
    runArm arm finished dest
    runArms finished dest rest

/-- Runs a sub-select, given by its arms in the order in which they run. -/
def runSelect (arms : List ArmCode) (dest : Delivery) : Gen Unit := do
  let finished ← label
  runArms finished dest arms
  resolve finished

def requireSelects : Gen Unit := do
  if !(← get).compilesSelects then throw .noSelectCoder

/-! ## Routines -/

/-- A routine that is being written. -/
structure OpenRoutine where
  ret : Int
  /-- The address of the instruction that loads it. -/
  load : Int
  entry : Int

def openRoutine : Gen OpenRoutine := do
  let ret ← allocReg
  let load ← emitAt (.of .integer 0 ret)
  let entry ← emitAt (.of .once)
  return { ret, load, entry }

/-- Ends a routine and keeps it for later uses of the node. The first run falls through: it returns
behind its own end. -/
def closeRoutine (r : OpenRoutine) (node : Identity) (result : Int) : Gen Unit := do
  jumpHere r.entry
  let address ← emitAt (.of .ret r.ret)
  modifyAt r.load fun i => { i with p1 := address }
  clearTemps
  modify fun c =>
    { c with routines := (node, { ret := r.ret, entry := r.entry, result }) :: c.routines }

/-- Runs a sub-select for its first row, or for whether it has one, and returns the first register
of the result. A sub-query without rows has NULLs. -/
def subselect (e : Expr) (node : Identity) (isFlag : Bool) (width : Nat) (arms : List ArmCode) :
    Gen Int := do
  let routines := (← get).routines
  match if e.flags.correlated then none else routines.lookup node with
  | some r =>
    emit (.of .gosub r.ret r.entry)
    return r.result
  | none =>
    let routine ← if e.flags.correlated then pure none else some <$> openRoutine
    let n : Int := if isFlag then 1 else width
    let base ← allocRegs n
    if isFlag then emit (.of .integer 0 base) else emit (.of .null 0 base (base + n - 1))
    requireSelects
    runSelect arms (if isFlag then .flag base else .registers base)
    match routine with
    | some r => closeRoutine r node base
    | none => pure ()
    return base

/-- A column of a sub-query that several nodes share; the first of them runs it. -/
def sharedColumn (share : Identity) (source : Coded) (column expected : Nat) : Gen Int := do
  let n := source.expr.vectorSize
  if expected ≠ 0 ∧ expected ≠ n then throw (.vectorAssignment expected n)
  match (← get).sharedResults.lookup share with
  | some base => return base + column
  | none =>
    let base ← source.subselect
    modify fun c => { c with sharedResults := (share, base) :: c.sharedResults }
    return base + column

end Gen

namespace Coded

def hasRows (e : Expr) (node : Identity) (arms : List ArmCode) : Coded :=
  { of e fun _ => Gen.subselect e node true 1 arms with
    subselect := Gen.subselect e node true 1 arms }

/-- The code of a sub-query; as a value it must have one column. -/
def subquery (e : Expr) (node : Identity) (width : Nat) (arms : List ArmCode) : Coded :=
  { of e fun _ => do
      if width ≠ 1 then throw (.subselectColumns width 1)
      Gen.subselect e node false width arms with
    subselect := Gen.subselect e node false width arms }

end Coded

end ScalarSql
