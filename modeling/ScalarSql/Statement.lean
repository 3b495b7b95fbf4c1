import ScalarSql.Code.Compile
import ScalarSql.Machine.Run

/-!
# Statements

A program starts with a jump to its end, where the constants that were set aside are computed, and
comes back to the body:

```
0      Init   -> constants
1      body
       Halt
       constants
       Goto 1
```

Two statements are built in: one row of the values of expressions, and a scan of a table with each
expression computed as a value and as the four branches. A scan is a loop over the rows of the table
around a body.
-/

namespace ScalarSql

namespace Gen

def start : Gen Unit := do
  let address ← emitAt (.of .init 0 1)
  modify fun c => { c with start := some address }

/-- Says which register holds the result of a window function; of other expressions none is kept. -/
def setWindowResult (e : Expr) (reg : Int) : Gen Unit :=
  match e.kind with
  | .call _ _ (some window) =>
    modify fun c => { c with windowResults := (window.call, reg) :: c.windowResults }
  | _ => return ()

def computeHoisted : List Hoisted → Gen Unit
  | [] => return ()
  | h :: rest => do
    h.expr.coded.exact h.reg
    computeHoisted rest

/-- Ends the body, computes the constants that were set aside and completes the program. -/
def finish : Gen Program := do
  emit (.of .halt)
  let c ← get
  match c.start with
  | some address =>
    jumpHere address
    set { (← get) with hoisting := false, hoisted := #[] }
    computeHoisted c.hoisted.toList
    emit (.of .goto 0 (address + 1))
  | none =>
    if !c.hoisted.isEmpty then
      throw (.internal "constants were hoisted but the program has no Init")
  let c ← get
  match c.builder.build c.highest c.cursors with
  | .ok p => return p
  | .error e => throw e

/-- What a statement expects of its surroundings. -/
structure Setting where
  cursors : Option Int := none
  inTrigger : Bool := false
  /-- The cursor on the own row, which the columns without a cursor read. -/
  own : Option Int := none

def noteCursor? : Option Int → Gen Unit
  | some n => noteCursor n
  | none => return ()

def startIn (setting : Setting) : Gen Unit := do
  start
  noteCursor? (setting.cursors.map (· - 1))
  noteCursor? setting.own
  modify fun c => { c with inTrigger := setting.inTrigger, ownRow := setting.own.map .cursor }

def values : List Expr → (reg : Int) → Gen Unit
  | [], _ => return ()
  | e :: rest, reg => do
    e.coded.exact reg
    values rest (reg + 1)

/-- The program that delivers one row of the values of expressions. -/
def evaluation (setting : Setting) (es : List Expr) : Gen Program := do
  startIn setting
  let out ← allocRegs es.length
  values es out
  emit (.of .resultRow out es.length)
  finish

/-- Stores whether a branch on an expression is taken. -/
def branchOutcome (e : Coded) (wanted jumpIfNull : Bool) (reg : Int) : Gen Unit := do
  let taken ← label
  emit (.of .integer 1 reg)
  e.branch wanted taken jumpIfNull
  emit (.of .integer 0 reg)
  resolve taken

/-- Computes each expression as a value and as the four branches. -/
def outcomes : List Expr → (reg : Int) → Gen Unit
  | [], _ => return ()
  | e :: rest, reg => do
    e.coded.exact reg
    branchOutcome e.coded true false (reg + 1)
    branchOutcome e.coded true true (reg + 2)
    branchOutcome e.coded false false (reg + 3)
    branchOutcome e.coded false true (reg + 4)
    outcomes rest (reg + 5)

/-- The program that delivers a row of `n` registers for each row of a table. The body fills the
registers, the first of which it is given. -/
def forEachRow (setting : Setting) (t : Table) (cursor : Int) (n : Nat) (body : (reg : Int) → Gen Unit) :
    Gen Program := do
  startIn setting
  noteCursor cursor
  let out ← allocRegs n
  emit (.of .openRead cursor 0 0 (.table t))
  let done ← label
  emitJump (.of .rewind cursor) done
  let top ← here
  body out
  emit (.of .resultRow out n)
  emit (.of .next cursor top)
  resolve done
  finish

/-- The program that delivers, for each row of a table, the values and branches of expressions. -/
def scan (setting : Setting) (t : Table) (cursor : Int) (es : List Expr) : Gen Program :=
  forEachRow setting t cursor (5 * es.length) (outcomes es)

end Gen

end ScalarSql
