import ScalarSql.Config
import ScalarSql.Expr.Constant
import ScalarSql.Program.Builder

/-!
# The compiler's state

A compilation writes a program and takes registers and cursors as it goes. Constant expressions may
be set aside to be computed before the first row, and code that several places share is kept as
routines. `Gen` is a step of a compilation; a failed step keeps what it wrote and took.
-/

namespace ScalarSql

/-- Where references to the statement's own row read. -/
inductive OwnRow where
  /-- Registers from the given one on hold the columns, and the one before it the rowid. -/
  | registers (base : Int)
  | cursor (cursor : Int)
deriving DecidableEq, Repr, Inhabited

/-- A constant expression to be computed before the first row. -/
structure Hoisted where
  expr : Expr
  reg : Int
  /-- Whether equal expressions may use the register. -/
  shared : Bool

/-- Code that runs once and is called by later uses. -/
structure Routine where
  /-- The register of the return address. -/
  ret : Int
  entry : Int
  /-- The cursor or the first register of the result. -/
  result : Int
deriving DecidableEq, Repr, Inhabited

structure Compiler where
  /-- The catalog, whose collating sequences may grow. -/
  catalog : Catalog
  config : Config
  builder : Builder := {}
  highest : Int := 0
  cursors : Int := 0
  /-- Single registers free for reuse, the last one released first. -/
  pool : List Int := []
  /-- The first register and the length of the greatest range free for reuse. -/
  poolRange : Int × Int := (0, 0)
  hoisted : Array Hoisted := #[]
  hoisting : Bool
  /-- The address of the instruction that starts the program. -/
  start : Option Int := none
  /-- The routines, by the nodes they compute. -/
  routines : List (Identity × Routine) := []
  /-- The first result registers of shared sub-queries. -/
  sharedResults : List (Identity × Int) := []
  compilesSelects : Bool := true
  ownRow : Option OwnRow := none
  inTrigger : Bool := false
  aggColumns : List Int := []
  aggCalls : List Int := []
  /-- The registers of the results of window functions. -/
  windowResults : List (Identity × Int) := []

def Compiler.new (catalog : Catalog) (config : Config) : Compiler :=
  { catalog, config, hoisting := config.hoistConstants }

/-- A step of a compilation. -/
abbrev Gen := ExceptT CompileError (StateM Compiler)

namespace Gen

/-! ## Writing instructions -/

def here : Gen Int := do return (← get).builder.here

def build (f : Builder → Builder) : Gen Unit := modify fun c => { c with builder := f c.builder }

def emit (i : Instr) : Gen Unit := build (·.emit i)

def emitAt (i : Instr) : Gen Int := do
  let address ← here
  emit i
  return address

def label : Gen Label := modifyGet fun c =>
  let (l, builder) := c.builder.label
  (l, { c with builder })

def emitJump (i : Instr) (l : Label) : Gen Unit := build (·.emitJump i l)

def goto (l : Label) : Gen Unit := emitJump (.of .goto) l

/-- Gives a label the next address. -/
def resolve (l : Label) : Gen Unit := build (·.resolve l)

/-- Sends the jump at an address to the next instruction. -/
def jumpHere (address : Int) : Gen Unit := build (·.jumpHere address)

def modifyAt (address : Int) (f : Instr → Instr) : Gen Unit := build (·.modifyAt address f)

/-! ## Registers and cursors -/

def allocReg : Gen Int := modifyGet fun c => (c.highest + 1, { c with highest := c.highest + 1 })

/-- Takes `n` new registers in a row and returns the first. -/
def allocRegs (n : Int) : Gen Int :=
  modifyGet fun c => (c.highest + 1, { c with highest := c.highest + n })

def allocCursor : Gen Int := modifyGet fun c => (c.cursors, { c with cursors := c.cursors + 1 })

/-- Counts a cursor that the caller chose. -/
def noteCursor (cursor : Int) : Gen Unit :=
  modify fun c => { c with cursors := max c.cursors (cursor + 1) }

/-- Takes a register for a short time, a free one if there is one. -/
def getTemp : Gen Int := do
  let c ← get
  match c.pool with
  | reg :: pool =>
    set { c with pool }
    return reg
  | [] => allocReg

/-- Frees a register for reuse unless enough are free; register zero is never free. -/
def releaseTemp (reg : Int) : Gen Unit := modify fun c =>
  if reg ≠ 0 ∧ c.pool.length < c.config.pooledRegisters then { c with pool := reg :: c.pool } else c

/-- Frees the register that `Code.temp` took, if it took one. -/
def release : Option Int → Gen Unit
  | some reg => releaseTemp reg
  | none => return ()

/-- Takes `n` registers in a row for a short time. -/
def getTempRange (n : Int) : Gen Int := do
  if n = 1 then getTemp
  else
    let c ← get
    let (first, count) := c.poolRange
    if n ≤ count then
      set { c with poolRange := (first + n, count - n) }
      return first
    else allocRegs n

/-- Frees registers in a row for reuse; only the greatest range is remembered. -/
def releaseTempRange (first n : Int) : Gen Unit :=
  if n = 1 then releaseTemp first
  else modify fun c => if c.poolRange.2 < n then { c with poolRange := (first, n) } else c

def clearTemps : Gen Unit := modify fun c => { c with pool := [], poolRange := (0, 0) }

/-! ## Constants computed before the first row -/

/-- Sets a constant expression aside and returns the register of its value. Without a wanted
register, that of an equal expression is shared. -/
def hoist (e : Expr) (wanted : Option Int) : Gen Int := do
  match wanted with
  | some reg =>
    modify fun c => { c with hoisted := c.hoisted.push { expr := e, reg, shared := false } }
    return reg
  | none =>
    match (← get).hoisted.find? fun h => h.shared && Expr.compare none h.expr e == .equal with
    | some h => return h.reg
    | none =>
      let reg ← allocReg
      modify fun c => { c with hoisted := c.hoisted.push { expr := e, reg, shared := true } }
      return reg

def hoists (e : Expr) : Gen Bool := do return (← get).hoisting && e.isConstant .notJoin

/-! ## Checks and look-ups -/

/-- Refuses an expression that is too high. -/
def checkHeight (e : Expr) : Gen Unit := do
  let limit := (← get).config.maxDepth
  if limit < e.height then throw (.tooDeep limit)

def lookup {α : Type} (l : Lookup α) : Gen α := do
  let c ← get
  let (found, catalog) := l.run c.catalog
  set { c with catalog }
  match found with
  | .ok a => return a
  | .error e => throw e

/-- The given collating sequence, else BINARY. -/
def orBinary : Option Collation → Gen Collation
  | some c => return c
  | none => lookup (Lookup.collation "BINARY")

end Gen

end ScalarSql
