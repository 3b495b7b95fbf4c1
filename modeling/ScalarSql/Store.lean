import ScalarSql.Schema.Table

/-!
# Rows

The store keeps the rows of each table in the order of their rowids.
-/

namespace ScalarSql

structure Row where
  rowid : Int64
  values : List Value
deriving DecidableEq, Inhabited

/-- Why a row is refused. -/
inductive StoreError where
  /-- The row has a wrong number of values. -/
  | width (table : String) (columns values : Nat)
  /-- A column that refuses NULL would hold it. -/
  | notNull (table column : String)
  /-- The rowid is no integer. -/
  | rowidType (value : Value)
  | rowidTaken (table : String)
deriving DecidableEq

def StoreError.message : StoreError → String
  | .width table columns values =>
    "table " ++ table ++ " has " ++ Decimal.intText columns ++ " columns but " ++
      Decimal.intText values ++ " values were supplied"
  | .notNull table column => "NOT NULL constraint failed: " ++ table ++ "." ++ column
  | .rowidType value => "datatype mismatch for rowid: " ++ value.display
  | .rowidTaken table => "UNIQUE constraint failed: " ++ table ++ ".rowid"

/-- The rows of all tables, by the numbers of the tables. -/
structure Store where
  /-- The tables that have rows. -/
  tables : List (Nat × List Row)

namespace Store

def empty : Store := ⟨[]⟩

/-- The rows of a table in the order of their rowids. -/
def rows (s : Store) (tableId : Nat) : List Row := (s.tables.lookup tableId).getD []

def setRows (s : Store) (tableId : Nat) (rows : List Row) : Store :=
  ⟨(tableId, rows) :: s.tables.filter (·.1 != tableId)⟩

/-- The greater one of a rowid and that of a row. -/
def laterRowid (m : Int64) (r : Row) : Int64 := if m < r.rowid then r.rowid else m

/-- The rowid after all rowids in use. -/
def nextRowid : List Row → Int64
  | [] => 1
  | r :: rs => rs.foldl laterRowid r.rowid + 1

/-- The rows with one more, before the first of a greater rowid. -/
def insertRow (row : Row) : List Row → List Row
  | [] => [row]
  | r :: rs => if r.rowid < row.rowid then r :: insertRow row rs else row :: r :: rs

/-- The first column that refuses NULL and would hold it. -/
def nullViolation? : List Value → List Column → Option Column
  | v :: vs, c :: cs =>
    if v.isNull && c.notNull && !c.isRowidAlias then some c else nullViolation? vs cs
  | _, _ => none

/-- The values of a new row, converted to the affinities of the columns. -/
def convert (t : Table) (values : List Value) : Except StoreError (List Value) :=
  if values.length ≠ t.columns.length then
    .error (.width t.name t.columns.length values.length)
  else
    let values := values.zipWith (fun v c => v.applyAffinity c) (t.columns.map Column.affinity)
    match nullViolation? values t.columns with
    | some c => .error (.notNull t.name c.name)
    | none => .ok values

/-- The rowid that a new row is to have: the value of its alias if that is not NULL, else the next one. -/
def wantedRowid (t : Table) (values : List Value) (rows : List Row) : Except StoreError Int64 :=
  match t.rowidAlias.bind fun i => values[i]? with
  | some (.integer i) => .ok i
  | some .null | none => .ok (nextRowid rows)
  | some v => .error (.rowidType v)

def requireFree (t : Table) (rows : List Row) (rowid : Int64) : Except StoreError Unit :=
  if rows.any (·.rowid == rowid) then .error (.rowidTaken t.name) else .ok ()

/-- The row of a rowid and of values, where the alias of the rowid repeats it. -/
def rowOf (t : Table) (rowid : Int64) (values : List Value) : Row :=
  ⟨rowid, t.rowidAlias.elim values fun i => values.set i (.integer rowid)⟩

/-- A step that may change the store and may refuse. -/
abbrev Change := ExceptT StoreError (StateM Store)

/-- Looks up the rows of a table, which is entered if it has none yet. -/
def entry (tableId : Nat) : Change (List Row) := do
  let rows := (← get).rows tableId
  modify (·.setRows tableId rows)
  return rows

def insert (t : Table) (values : List Value) : Change Int64 := do
  let values ← convert t values
  let rows ← entry t.id
  let rowid ← wantedRowid t values rows
  requireFree t rows rowid
  modify (·.setRows t.id (insertRow (rowOf t rowid values) rows))
  return rowid

end Store

end ScalarSql
