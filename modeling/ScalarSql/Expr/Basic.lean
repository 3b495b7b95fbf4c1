import ScalarSql.Expr.Flags
import ScalarSql.Operator
import ScalarSql.Schema.Table

/-!
# Expressions

An expression is a tree of nodes. A node has a kind, which holds its parts, and cached facts about
the tree below it: its height and its flags. `Expr.ofKind` builds a node and computes the facts from
the parts.

Nodes that own code which later uses may share carry an identity: copies of a node have the same
identity, two nodes built separately have different ones.
-/

namespace ScalarSql

/-- The identity of a node, a sub-select, a window or a shared sub-query. -/
abbrev Identity := Nat

/-- An integer literal: a number of 32 bits, or text that is read when code is generated. -/
inductive IntLiteral where
  | inline (value : Int32)
  /-- Any other, as it is written. -/
  | text (source : String)
deriving DecidableEq, Repr, Inhabited

def IntLiteral.ofInt64 (i : Int64) : IntLiteral :=
  if -pow2 31 ≤ i.toInt ∧ i.toInt < pow2 31 then .inline (Int32.ofInt i.toInt)
  else .text (Decimal.intText i.toInt)

def IntLiteral.ofText (s : String) : IntLiteral :=
  match Decimal.readInt? s.toList with
  | some i => if -pow2 31 ≤ i ∧ i < pow2 31 then .inline (Int32.ofInt i) else .text s
  | none => .text s

/-- What RAISE does to the statement. -/
inductive RaiseAction where
  | ignore
  | rollback
  | abort
  | fail
deriving DecidableEq, Repr, Inhabited

def RaiseAction.name : RaiseAction → String
  | .ignore => "Ignore"
  | .rollback => "Rollback"
  | .abort => "Abort"
  | .fail => "Fail"

def RaiseAction.ofName? (name : String) : Option RaiseAction :=
  [RaiseAction.ignore, .rollback, .abort, .fail].find? (·.name == name)

/-- An expression of a list, with what its place in the list adds. -/
structure Item (ε : Type) where
  expr : ε
  descending : Bool := false
  /-- The result column, from one, that it refers to; zero for none. -/
  resultColumn : Nat := 0

/-- A reference to a column of the row under a cursor. -/
structure ColumnRef (ε : Type) where
  /-- The cursor; a negative one stands for the statement's own row. -/
  cursor : Int
  column : Int
  table : Option Table
  /-- A constant that the column is known to equal. -/
  fixed : Option ε

def ColumnRef.name {ε : Type} (ref : ColumnRef ε) : String :=
  match ref.table.bind (·.column? ref.column) with
  | some column => column.name
  | none => if ref.column = rowidColumn then "rowid" else "c" ++ Decimal.intText ref.column

/-- The window that a call of a window function works over. Several calls may share one. -/
structure Window (ε : Type) where
  id : Identity
  name : Option String
  partitionBy : List (Item ε)
  orderBy : List (Item ε)
  /-- The identity of the call. -/
  call : Identity

/-- A table of a FROM clause. -/
structure Source where
  table : Table
  cursor : Int
  /-- Its name in the statement, if that is not the name of the table. -/
  alias? : Option String

/-- The kind of a node with its parts, which are expressions `ε` and sub-selects `σ`. -/
inductive Kind (ε σ : Type) where
  | null
  | integer (literal : IntLiteral)
  /-- A REAL literal as it is written. -/
  | float (text : String)
  | string (text : String)
  | blob (hex : String)
  | boolean (value : Bool)
  /-- A bound parameter, numbered from one. -/
  | param (index : Int) (name : Option String)
  | ident (name : String)
  | column (ref : ColumnRef ε)
  /-- A column held by an aggregate's accumulator. -/
  | aggColumn (index : Nat) (ref : ColumnRef ε)
  /-- An aggregate whose result is held by an accumulator. -/
  | aggCall (index : Nat) (name : String) (args : List (Item ε))
  /-- A value that is in a register already, and the expression it is the value of. -/
  | register (reg : Int) (source : ε)
  | unary (op : UnaryOp) (operand : ε)
  | binary (op : BinaryOp) (left right : ε)
  | collate (operand : ε) (collation : String)
  | cast (operand : ε) (type : String)
  | call (name : String) (args : List (Item ε)) (window : Option (Window ε))
  /-- CASE, with arms of a condition and a result. -/
  | caseOf (base : Option ε) (arms : List (ε × ε)) (otherwise : Option ε)
  | between (operand low high : ε)
  | inList (id : Identity) (operand : ε) (items : List (Item ε))
  | inSelect (id : Identity) (operand : ε) (select : σ)
  | hasRows (id : Identity) (select : σ)
  /-- The first row of a sub-select. -/
  | subquery (id : Identity) (select : σ)
  /-- A column of a sub-query that several nodes share; `share` is the identity of the shared
  sub-query and `expected` the number of columns wanted, zero for any. -/
  | selectColumn (share : Identity) (subquery : ε) (column expected : Nat)
  | vector (items : List (Item ε))
  /-- NULL while the cursor is on its row of NULLs, else the operand. -/
  | ifNullRow (cursor : Int) (operand : ε)
  | raise (action : RaiseAction) (message : Option String)

/-- The parts of a sub-select. -/
structure SelectParts (ε σ : Type) where
  id : Identity
  columns : List (Item ε)
  sources : List Source := []
  filter : Option ε := none
  groupBy : Option (List (Item ε)) := none
  having : Option ε := none
  orderBy : Option (List (Item ε)) := none
  limit : Option ε := none
  flags : SelectFlags := {}
  /-- The arm of a compound before this one. -/
  prior : Option σ := none

/-- Cached facts about the tree at a node. -/
structure NodeInfo where
  flags : ExprFlags
  /-- The number of nodes on the longest path down. -/
  height : Nat
deriving DecidableEq, Repr, Inhabited

mutual

inductive Expr where
  | node (info : NodeInfo) (kind : Kind Expr Select)

inductive Select where
  | mk (parts : SelectParts Expr Select)

end

/-! ## Parts of a node -/

namespace Kind

variable {ε σ : Type}

/-- The expressions directly below the node, not those of a sub-select. -/
def children : Kind ε σ → List ε
  | .column ref => ref.fixed.toList
  | .aggCall _ _ args => args.map (·.expr)
  | .call _ args _ => args.map (·.expr)
  | .register _ source => [source]
  | .unary _ operand => [operand]
  | .binary _ left right => [left, right]
  | .collate operand _ => [operand]
  | .cast operand _ => [operand]
  | .caseOf base arms otherwise =>
    base.toList ++ arms.flatMap (fun arm => [arm.1, arm.2]) ++ otherwise.toList
  | .between operand low high => [operand, low, high]
  | .inList _ operand items => operand :: items.map (·.expr)
  | .inSelect _ operand _ => [operand]
  | .selectColumn _ source _ _ => [source]
  | .vector items => items.map (·.expr)
  | .ifNullRow _ operand => [operand]
  | _ => []

def selects : Kind ε σ → List σ
  | .inSelect _ _ select => [select]
  | .hasRows _ select => [select]
  | .subquery _ select => [select]
  | _ => []

/-- The flag that a node has by its kind alone. -/
def ownFlags : Kind ε σ → ExprFlags
  | .collate .. => { collate := true }
  | .call .. => { hasCall := true }
  | .aggCall .. => { hasCall := true }
  | .selectColumn .. => { subquery := true }
  | .inSelect .. => { subquery := true }
  | .hasRows .. => { subquery := true }
  | .subquery .. => { subquery := true }
  | _ => {}

end Kind

namespace Select

def parts : Select → SelectParts Expr Select
  | .mk parts => parts

def id (s : Select) : Identity := s.parts.id

def columns (s : Select) : List (Item Expr) := s.parts.columns

def width (s : Select) : Nat := s.columns.length

/-- The expressions of the sub-select and of the arms before it. -/
def expressions : Select → List Expr
  | .mk ⟨_, columns, _, filter, groupBy, having, orderBy, limit, _, prior⟩ =>
    columns.map (·.expr) ++ filter.toList ++ (groupBy.getD []).map (·.expr) ++ having.toList ++
      (orderBy.getD []).map (·.expr) ++ limit.toList ++
      match prior with
      | some p => expressions p
      | none => []
termination_by structural s => s

end Select

namespace Expr

def info : Expr → NodeInfo
  | .node info _ => info

def kind : Expr → Kind Expr Select
  | .node _ kind => kind

def flags (e : Expr) : ExprFlags := e.info.flags

def height (e : Expr) : Nat := e.info.height

def children (e : Expr) : List Expr := e.kind.children

def selects (e : Expr) : List Select := e.kind.selects

/-- The greatest height of a list of expressions, zero for none. -/
def maxHeight (es : List Expr) : Nat := es.foldl (fun h e => max h e.height) 0

end Expr

def Select.height (s : Select) : Nat := Expr.maxHeight s.expressions

namespace Expr

/-- The facts of a node, from its parts. -/
def infoOf (kind : Kind Expr Select) : NodeInfo :=
  { flags := kind.children.foldl (fun f e => f.union e.flags.inherited) kind.ownFlags
    height := kind.selects.foldl (fun h s => max h s.height) (maxHeight kind.children) + 1 }

/-- The node of a kind, with the facts computed from its parts. -/
def ofKind (kind : Kind Expr Select) : Expr := .node (infoOf kind) kind

def withFlags (flags : ExprFlags) : Expr → Expr
  | .node info kind => .node { info with flags := info.flags.union flags } kind

def isLeaf (e : Expr) : Bool := e.children.isEmpty && e.selects.isEmpty

/-- The copy kept with the schema: marked as reduced, and a leaf also as a token. -/
def reducedCopy (e : Expr) : Expr := e.withFlags { reduced := true, tokenOnly := e.isLeaf }

end Expr

end ScalarSql
