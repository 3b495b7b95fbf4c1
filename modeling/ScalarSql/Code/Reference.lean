import ScalarSql.Code.Coded

/-!
# Columns and calls
-/

namespace ScalarSql

namespace Gen

def readColumn (table : Option Table) (cursor column reg : Int) : Gen Unit := do
  match table with
  | none => emit (.of .column cursor column reg)
  | some t =>
    if t.isRowid column then emit (.of .rowid cursor reg)
    else
      let default := (t.column? column).bind (·.default?)
      emit (.of .column cursor column reg (Operand.ofOption .value default))
      if t.columnAffinity column = .real then emit (.of .realAffinity reg)

/-- Computes the constant that a column is known to equal, with the affinity of the column. -/
def fixedColumn (ref : ColumnRef Expr) (value : Code) (reg : Int) : Gen Int := do
  let found ← value.target reg
  let affinity := (ref.table.map (·.columnAffinity ref.column)).getD .blob
  if affinity = .blob || affinity = .none then return found
  if found ≠ reg then emit (.of .copyOne found reg)
  emit (.of .affinity reg 1 0 (.affinity (Affinity.codes [affinity])))
  return reg

def isRowidRef (ref : ColumnRef Expr) : Bool :=
  ref.column < 0 || ref.table.any (·.isRowid ref.column)

def column (ref : ColumnRef Expr) (fixed : Option Code) (reg : Int) : Gen Int := do
  match fixed with
  | some value => fixedColumn ref value reg
  | none =>
    if 0 ≤ ref.cursor then
      readColumn ref.table ref.cursor ref.column reg
      return reg
    else
      match (← get).ownRow with
      | some (.registers base) => return if isRowidRef ref then base - 1 else base + ref.column
      | some (.cursor cursor) =>
        readColumn ref.table cursor ref.column reg
        return reg
      | none => throw (.internal ("column " ++ ref.name ++ " has no cursor"))

/-! ## Calls -/

/-- The function of a call; an aggregate is refused. -/
def findFunction (name : String) (n : Nat) : Gen Function := do
  let functions := (← get).catalog.functions
  match functions.find? name n with
  | some f => if f.flags.aggregate then throw (.misuseOfAggregate name) else return f
  | none =>
    throw (if functions.contains name then .wrongArgumentCount name else .unknownFunction name)

/-- The first argument that is not NULL: each is computed while those before it are NULL. -/
def firstNotNull (reg : Int) (done : Label) : List (Item Code) → Gen Unit
  | [] => return ()
  | arg :: rest => do
    emitJump (.of .notNull reg) done
    arg.expr.exact reg
    firstNotNull reg done rest

/-- The bits, from the lowest, of the constant arguments among the first 32, as a number of 32 bits
with sign. -/
def constantMask (args : List (Item Code)) : Int :=
  Int.bmod (bitsOf ((args.take 32).map fun a => a.expr.expr.isConstant .plain)) (pow2 32)

def firstCollation : List (Item Code) → Gen (Option Collation)
  | [] => return none
  | arg :: rest => do
    match ← lookup arg.expr.expr.collation with
    | some c => return some c
    | none => firstCollation rest

/-- Calls a function on its arguments in registers in a row. -/
def callFunction (f : Function) (args : List (Item Code)) (reg : Int) : Gen Unit := do
  let n : Int := args.length
  let mask := constantMask args
  let collation ← if f.flags.needsCollation then firstCollation args else pure none
  let first ←
    if args.isEmpty then pure 0
    else
      let first ← if mask = 0 then getTempRange n else allocRegs n
      discard (exprList { full := true, factor := true } args first 0)
      pure first
  if f.flags.needsCollation then
    emit (.of .collSeq 0 0 0 (.collation (← orBinary collation)))
  emit (.of .function mask first reg (.function f) (UInt16.ofNat args.length))
  if !args.isEmpty && mask = 0 then releaseTempRange first n

def call (e : Expr) (name : String) (args : List (Item Code)) (window : Option Identity) (reg : Int) :
    Gen Int := do
  match window with
  | some id =>
    match (← get).windowResults.lookup id with
    | some found => return found
    | none => throw (.internal ("window function " ++ name ++ "() has no result register"))
  | none =>
    if ← hoists e then return ← hoist e none
    let limit := (← get).config.maxArguments
    if limit < args.length then throw (.tooManyArguments name limit)
    let f ← findFunction name args.length
    if f.flags.coalesce then
      match args with
      | first :: second :: rest =>
        let done ← label
        first.expr.exact reg
        firstNotNull reg done (second :: rest)
        resolve done
        return reg
      | _ => throw (.wrongArgumentCount name)
    else
      match f.flags.unlikely, args with
      | true, first :: _ => first.expr.target reg
      | _, _ =>
        callFunction f args reg
        return reg

end Gen

end ScalarSql
