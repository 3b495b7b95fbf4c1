import ScalarSql.Value.Basic

/-!
# Tables

A table has columns, which may include an alias of the rowid, and indexes. Columns are numbered from
zero by numbers of 16 bits; `rowidColumn` stands for the rowid.
-/

namespace ScalarSql

/-- The column number of the rowid. -/
def rowidColumn : Int := -1

/-- The number of the column at a position. Numbers have 16 bits, so that positions from 32768 on wrap
around. -/
def columnNumber (position : Nat) : Int := (Int16.ofNat position).toInt

structure Column where
  name : String
  declaredType : Option String
  affinity : Affinity := Affinity.ofType? declaredType
  collation : Option String := none
  notNull : Bool := false
  primaryKey : Bool := false
  /-- The value where a row has none. -/
  default? : Option Value := none

namespace Column

/-- Whether the column is another name of the rowid: a primary key of the type INTEGER, spelled
exactly so. -/
def isRowidAlias (c : Column) : Bool :=
  c.primaryKey && c.declaredType.any (Text.sameName · "INTEGER")

end Column

/-- A column of an index key. -/
structure IndexColumn where
  column : Int
  collation : String
  affinity : Affinity
  notNull : Bool
deriving DecidableEq, Repr

/-- An index of a table. -/
structure Index where
  /-- The number of the index, unique in the catalog. -/
  id : Nat
  name : String
  tableId : Nat
  keys : List IndexColumn
  unique : Bool
  /-- The text of the condition that rows of a partial index meet. -/
  partialOn : Option String

namespace Index

def keyPosition? (i : Index) (column : Int) : Option Nat := i.keys.findIdx? (·.column == column)

def affinityCodes (i : Index) (n : Nat) : String :=
  Affinity.codes ((i.keys.take n).map (·.affinity))

def leadingNotNull (i : Index) (n : Nat) : Bool := (i.keys.take n).all (·.notNull)

end Index

structure Table where
  id : Nat
  name : String
  columns : List Column
  /-- The position of the column that is another name of the rowid. -/
  rowidAlias : Option Nat
  /-- The indexes in the order of their declaration. -/
  indexes : List Index

namespace Table

def columnIndex? (t : Table) (name : String) : Option Nat :=
  t.columns.findIdx? fun c => Text.sameName c.name name

/-- The column with the given number; the rowid is no column. -/
def column? (t : Table) (column : Int) : Option Column :=
  if column < 0 then none else t.columns[column.toNat]?

/-- The affinity of the column with the given number; that of the rowid is INTEGER. -/
def columnAffinity (t : Table) (column : Int) : Affinity :=
  ((t.column? column).map Column.affinity).getD .integer

def isRowid (t : Table) (column : Int) : Bool :=
  column < 0 || t.rowidAlias == some column.toNat

def columnNotNull (t : Table) (column : Int) : Bool :=
  t.isRowid column || (t.column? column).any (·.notNull)

/-- The table with one more index, if the index is of this table. -/
def withIndex (index : Index) (t : Table) : Table :=
  if t.id = index.tableId then { t with indexes := t.indexes ++ [index] } else t

end Table

end ScalarSql
