import ScalarSql.Function.Builtin
import ScalarSql.Schema.Table

/-!
# The catalog

The catalog holds the tables with their indexes, the collating sequences and the functions.
-/

namespace ScalarSql

/-- Why a table or an index is refused. -/
inductive SchemaError where
  | tableExists (name : String)
  | noColumns (name : String)
  | severalKeys (name : String)
  | duplicateColumn (name : String)
  | noSuchCollation (name : String)
  | noSuchTable (name : String)
  | indexExists (name : String)
  | noKeyColumns (name : String)
  | noSuchColumn (name : String)
deriving DecidableEq, Repr

def SchemaError.message : SchemaError → String
  | .tableExists name => "Table '" ++ name ++ "' already exists"
  | .noColumns name => "Table '" ++ name ++ "' must have at least one column"
  | .severalKeys name => "Table '" ++ name ++ "' has more than one primary key"
  | .duplicateColumn name => "duplicate column name: " ++ name
  | .noSuchCollation name => "no such collation sequence: " ++ name
  | .noSuchTable name => "no such table: " ++ name
  | .indexExists name => "index " ++ name ++ " already exists"
  | .noKeyColumns name => "index " ++ name ++ " has no key columns"
  | .noSuchColumn name => "no such column: " ++ name

/-- The schema and what expressions are compiled against. -/
structure Catalog where
  tables : List Table
  nextTableId : Nat
  nextIndexId : Nat
  collations : Collations
  functions : Functions

namespace Catalog

/-- No tables, and the built-in functions and collating sequences. -/
def empty : Catalog :=
  { tables := [], nextTableId := 1, nextIndexId := 1, collations := .builtin, functions := .builtin }

def table? (c : Catalog) (name : String) : Option Table :=
  c.tables.find? fun t => Text.sameName t.name name

def tableById? (c : Catalog) (id : Nat) : Option Table := c.tables.find? (·.id == id)

/-- Finds a collating sequence for UTF-8 text by name. -/
def collation (name : String) : StateM Catalog (Option Collation) := do
  let c ← get
  let (found, collations) := Collations.resolve name .utf8 c.collations
  set { c with collations }
  return found

/-- A step that may change the catalog and may refuse. -/
abbrev Change := ExceptT SchemaError (StateM Catalog)

def requireCollation (name : String) : Change Unit := do
  match ← (collation name : StateM Catalog _) with
  | some _ => return ()
  | none => throw (.noSuchCollation name)

def requireCollation? : Option String → Change Unit
  | some name => requireCollation name
  | none => return ()

/-- Checks columns against the names of those before them, which are given in small letters: no name
twice, only known collating sequences. -/
def checkColumns : (before : List String) → List Column → Change Unit
  | _, [] => return ()
  | before, column :: columns => do
    let name := Text.lower column.name
    if before.contains name then throw (.duplicateColumn column.name)
    requireCollation? column.collation
    checkColumns (name :: before) columns

def addTable (name : String) (columns : List Column) : Change Table := do
  if ((← get).table? name).isSome then throw (.tableExists name)
  if columns.isEmpty then throw (.noColumns name)
  if 1 < columns.countP (·.primaryKey) then throw (.severalKeys name)
  checkColumns [] columns
  let c ← get
  let table : Table :=
    { id := c.nextTableId, name, columns, rowidAlias := columns.findIdx? (·.isRowidAlias)
      indexes := [] }
  set { c with tables := c.tables ++ [table], nextTableId := c.nextTableId + 1 }
  return table

/-- The number of a key column given by name, where `rowid` names the rowid. -/
def keyColumn? (t : Table) (name : String) : Option Int :=
  if Text.sameName name "rowid" then some rowidColumn
  else (t.columnIndex? name).map columnNumber

/-- The key columns of an index, each given by name and an optional collating sequence; without one
the column's own is taken, else BINARY. -/
def keyColumns (t : Table) : List (String × Option String) → Change (List IndexColumn)
  | [] => return []
  | (name, explicit) :: rest => do
    match keyColumn? t name with
    | none => throw (.noSuchColumn name)
    | some column =>
      let collation :=
        (explicit.or ((t.column? column).bind (·.collation))).getD "BINARY"
      requireCollation collation
      let key : IndexColumn :=
        { column, collation, affinity := t.columnAffinity column, notNull := t.columnNotNull column }
      return key :: (← keyColumns t rest)

def addIndex (tableName indexName : String) (columns : List (String × Option String))
    (unique : Bool) (partialOn : Option String) : Change Index := do
  match (← get).table? tableName with
  | none => throw (.noSuchTable tableName)
  | some table =>
    if table.indexes.any fun i => Text.sameName i.name indexName then
      throw (.indexExists indexName)
    if columns.isEmpty then throw (.noKeyColumns indexName)
    let keys ← keyColumns table columns
    let c ← get
    let index : Index :=
      { id := c.nextIndexId, name := indexName, tableId := table.id, keys, unique, partialOn }
    set { c with tables := c.tables.map (Table.withIndex index), nextIndexId := c.nextIndexId + 1 }
    return index

end Catalog

end ScalarSql
