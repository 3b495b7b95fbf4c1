import ScalarSql.Error
import ScalarSql.Expr.Shape
import ScalarSql.Schema.Catalog

/-!
# Affinity and collation of expressions

The affinity of an expression and the name of its collating sequence follow from the tree alone. The
sequence itself is looked up in the catalog, where an unknown name may ask the factory.
-/

namespace ScalarSql

def ColumnRef.affinity {ε : Type} (ref : ColumnRef ε) : Affinity :=
  (ref.table.map (·.columnAffinity ref.column)).getD .none

/-- The name of the collating sequence of a column, if its table is known; the rowid has none. -/
def ColumnRef.collationName? {ε : Type} (ref : ColumnRef ε) : Option String :=
  ref.table.bind fun table =>
    if ref.column < 0 then none
    else some (((table.column? ref.column).bind (·.collation)).getD "BINARY")

namespace Expr

/-! ## Affinity -/

mutual

/-- The affinity of the value, `Affinity.none` if it has none. -/
def affinity : Expr → Affinity
  | .node _ (.collate operand _) => affinity operand
  | .node info (.call _ args _) => if info.flags.unlikely then affinityAt 0 args else .none
  | .node _ (.register _ source) => affinity source
  | .node _ (.subquery _ (.mk parts)) => affinityOfParts 0 parts
  | .node _ (.cast _ type) => Affinity.ofType type
  | .node _ (.column ref) => ref.affinity
  | .node _ (.aggColumn _ ref) => ref.affinity
  | .node _ (.selectColumn _ (.node _ (.subquery _ (.mk parts))) column _) =>
    affinityOfParts column parts
  | .node _ (.vector items) => affinityAt 0 items
  | _ => .none
termination_by structural e => e

def affinityOfParts (i : Nat) : SelectParts Expr Select → Affinity
  | ⟨_, columns, _, _, _, _, _, _, _, _⟩ => affinityAt i columns
termination_by structural parts => parts

def affinityAt : Nat → List (Item Expr) → Affinity
  | _, [] => .none
  | 0, ⟨e, _, _⟩ :: _ => affinity e
  | i + 1, _ :: rest => affinityAt i rest
termination_by structural _ items => items

end

/-- The affinity applied when the value is compared with one of another affinity. -/
def compareAffinity (e : Expr) (other : Affinity) : Affinity := e.affinity.compareWith other

/-- The affinity codes for the fields of the left side of IN: a column of a sub-select is compared
with the field, an item of a list takes the affinity of the field. -/
def membershipAffinity (e : Expr) : String :=
  match e.kind with
  | .inList _ operand _ =>
    Affinity.codes ((List.range operand.vectorSize).map fun i => (operand.vectorField i).affinity)
  | .inSelect _ operand select =>
    Affinity.codes ((List.range operand.vectorSize).map fun i =>
      let left := (operand.vectorField i).affinity
      match select.columns[i]? with
      | some column => column.expr.compareAffinity left
      | none => left)
  | _ => ""

/-! ## Collation -/

/-- The name found through the first part that contains COLLATE, else through the first part; each
part comes with whether it contains COLLATE and the name found through it. -/
def pickCollated (parts : List (Bool × Option String)) : Option String :=
  match parts.find? (·.1) with
  | some part => part.2
  | none => parts.head?.bind (·.2)

mutual

/-- The name of the collating sequence of the value. A column has its own, COLLATE names one, a cast
and a plus sign keep that of the operand; any other node has one only if COLLATE is below it. -/
def collationName? : Expr → Option String
  | .node _ (.register _ source) => collationName? source
  | .node _ (.column ref) => ref.collationName?
  | .node _ (.aggColumn _ ref) => ref.collationName?
  | .node _ (.cast operand _) => collationName? operand
  | .node _ (.collate _ name) => some name
  | .node info (.unary op operand) =>
    if op = .positive || info.flags.collate then collationName? operand else none
  | .node info (.binary _ left right) =>
    if !info.flags.collate then none
    else if left.flags.collate then collationName? left
    else collationName? right
  | .node info (.aggCall _ _ args) =>
    if info.flags.collate then pickCollated (collationNames args) else none
  | .node info (.call _ args _) =>
    if info.flags.collate then pickCollated (collationNames args) else none
  | .node info (.caseOf base arms otherwise) =>
    if info.flags.collate then
      pickCollated ((match base with
          | some e => [(e.flags.collate, collationName? e)]
          | none => []) ++
        collationNamesOfArms arms ++
        match otherwise with
          | some e => [(e.flags.collate, collationName? e)]
          | none => [])
    else none
  | .node info (.between operand low high) =>
    if info.flags.collate then
      pickCollated [(operand.flags.collate, collationName? operand),
        (low.flags.collate, collationName? low), (high.flags.collate, collationName? high)]
    else none
  | .node info (.inList _ operand items) =>
    if info.flags.collate then
      pickCollated ((operand.flags.collate, collationName? operand) :: collationNames items)
    else none
  | .node info (.inSelect _ operand _) =>
    if info.flags.collate then collationName? operand else none
  | .node info (.selectColumn _ source _ _) =>
    if info.flags.collate then collationName? source else none
  | .node info (.vector items) =>
    if info.flags.collate then pickCollated (collationNames items) else none
  | .node info (.ifNullRow _ operand) =>
    if info.flags.collate then collationName? operand else none
  | _ => none
termination_by structural e => e

/-- For each item, whether it contains COLLATE and the name of its collating sequence. -/
def collationNames : List (Item Expr) → List (Bool × Option String)
  | [] => []
  | ⟨e, _, _⟩ :: rest => (e.flags.collate, collationName? e) :: collationNames rest
termination_by structural items => items

/-- For each expression of the arms of CASE, whether it contains COLLATE and the name of its
collating sequence. -/
def collationNamesOfArms : List (Expr × Expr) → List (Bool × Option String)
  | [] => []
  | (condition, result) :: rest =>
    (condition.flags.collate, collationName? condition) ::
      (result.flags.collate, collationName? result) :: collationNamesOfArms rest
termination_by structural arms => arms

end

/-- The name of the collating sequence of a comparison: COLLATE on the left wins, then COLLATE on the
right, then the sequence of the left side, then that of the right side. -/
def compareCollationName? (left right : Expr) : Option String :=
  if left.flags.collate then left.collationName?
  else if right.flags.collate then right.collationName?
  else left.collationName?.or right.collationName?

end Expr

/-! ## Look-up in the catalog -/

/-- A computation that looks things up in the catalog. -/
abbrev Lookup := ExceptT CompileError (StateM Catalog)

namespace Lookup

def collation (name : String) : Lookup Collation := do
  match ← (Catalog.collation name : StateM Catalog _) with
  | some c => return c
  | none => throw (.noSuchCollation name)

def collation? : Option String → Lookup (Option Collation)
  | some name => do return some (← collation name)
  | none => return none

end Lookup

namespace Expr

def collation (e : Expr) : Lookup (Option Collation) := Lookup.collation? e.collationName?

def compareCollation (left right : Expr) : Lookup (Option Collation) :=
  Lookup.collation? (compareCollationName? left right)

end Expr

end ScalarSql
