import ScalarSql.Collation
import ScalarSql.Schema.Table
import ScalarSql.Store

/-!
# Cursors

A cursor stands on an entry of a table, of an index or of an ephemeral table, on none of them, or on
a row of NULLs. The entries of an index are its keys in order, each with the rowid as last field.
-/

namespace ScalarSql

/-- A key of an index, or an entry of an ephemeral table. -/
abbrev Key := List Value

/-- What a cursor reads. -/
inductive CursorData where
  | rows (rows : List Row)
  | keys (keys : List Key)
  /-- The ephemeral table of the given number; several cursors may share it. -/
  | ephemeral (table : Nat)

structure Cursor where
  data : CursorData
  /-- The collating sequence of each field; fields after these have none. -/
  collations : List (Option Collation) := []
  position : Option Nat := none
  nullRow : Bool := false

namespace Key

/-- The order of two keys by their fields; a missing field equals any other. -/
def compare : List (Option Collation) → Key → Key → Ordering
  | cs, x :: xs, y :: ys =>
    match Value.compareBy (cs.headD none) x y with
    | .eq => compare cs.tail xs ys
    | o => o
  | _, _, _ => .eq

/-- Halves the range of `size` places from `base` on and keeps the upper half while its first place
satisfies `p`. The result is the number of places before the first that does not, if `p` holds of a
first part of the places only. -/
def bisect (p : Nat → Bool) : (fuel base size : Nat) → Nat
  | 0, base, _ => base
  | fuel + 1, base, size =>
    if size ≤ 1 then if size = 1 && p base then base + 1 else base
    else
      let half := size / 2
      bisect p fuel (if p (base + half) then base + half else base) (size - half)

/-- The place of a new key among the keys of a table: before the first that is not less. -/
def place (cs : List (Option Collation)) (keys : List Key) (key : Key) : Nat :=
  bisect (fun i => (keys[i]?).any fun k => compare cs k key == .lt) (keys.length + 1) 0 keys.length

def insert (cs : List (Option Collation)) (keys : List Key) (key : Key) : List Key :=
  let i := place cs keys key
  keys.take i ++ key :: keys.drop i

/-- Puts a key into keys that are sorted in descending order, before those that are not greater. -/
def insertDescending (cs : List (Option Collation)) (key : Key) : List Key → List Key
  | [] => [key]
  | k :: ks => if compare cs key k == .lt then k :: insertDescending cs key ks else key :: k :: ks

/-- The keys in order; equal keys stay in their order. -/
def sort (cs : List (Option Collation)) (keys : List Key) : List Key :=
  (keys.foldl (fun sorted key => insertDescending cs key sorted) []).reverse

/-- The position of the first key that starts with a probe. -/
def find? (cs : List (Option Collation)) (keys : List Key) (probe : Key) : Option Nat :=
  keys.findIdx? fun k => compare cs probe k == .eq

def field? (key : List Value) (column : Int) : Option Value :=
  if column < 0 then none else key[column.toNat]?

end Key

/-- The rowid of the entry that a cursor stands on; an ephemeral table has none. -/
def Cursor.rowid (c : Cursor) : Value :=
  if c.nullRow then .null
  else
    match c.position, c.data with
    | some i, .rows rows => ((rows[i]?).map fun r => Value.integer r.rowid).getD .null
    | some i, .keys keys =>
      match (keys[i]?).bind List.getLast? with
      | some (.integer r) => .integer r
      | _ => .null
    | _, _ => .null

def Index.key (index : Index) (table : Table) (row : Row) : Key :=
  index.keys.map (fun k =>
    if table.isRowid k.column then .integer row.rowid
    else (Key.field? row.values k.column).getD .null) ++ [.integer row.rowid]

end ScalarSql
