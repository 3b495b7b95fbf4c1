import ScalarSql.Error
import ScalarSql.Expr.Shape
import ScalarSql.Function.Basic

/-!
# Resolution of names

Identifiers become columns of the tables of the FROM clauses around them, the innermost clause first,
and calls take on the properties of their functions. A sub-select that refers to a row outside of it
is marked as correlated.
-/

namespace ScalarSql

namespace Resolve

/-- The FROM clauses around an expression, the innermost one first. -/
abbrev Scopes := List (List Source)

/-- How far out an expression reaches: the number of clauses outside of the outermost one that it
refers to, `none` if it refers to no clause. -/
abbrev Reach := Option Nat

namespace Reach

def join : Reach → Reach → Reach
  | none, b => b
  | a, none => a
  | some a, some b => some (min a b)

/-- Whether an expression reaches beyond the clauses from number `depth` on. -/
def isBeyond (depth : Nat) : Reach → Bool
  | none => false
  | some d => d < depth

end Reach

/-- Splits a name at its first point. -/
def splitName (name : String) : Option String × String :=
  match name.toList.span (· != '.') with
  | (qualifier, _ :: column) => (some (String.ofList qualifier), String.ofList column)
  | (_, []) => (none, name)

def isRowidName (name : String) : Bool :=
  ["rowid", "oid", "_rowid_"].any fun r => Text.sameName r name

/-- The number of the named column in a table; the alias of the rowid has the number of the rowid. -/
def columnNumber? (table : Table) (column : String) : Option Int :=
  match table.columnIndex? column with
  | some i => some (if table.rowidAlias = some i then rowidColumn else columnNumber i)
  | none => if isRowidName column then some rowidColumn else none

/-- The reference that a name makes to a source, if it names a column of it. -/
def inSource? (qualifier : Option String) (column : String) (source : Source) :
    Option (ColumnRef Expr) :=
  if qualifier.all fun q => Text.sameName (source.alias?.getD source.table.name) q then
    (columnNumber? source.table column).map fun n =>
      { cursor := source.cursor, column := n, table := some source.table, fixed := none }
  else none

/-- Finds a name in the innermost scope that has it, and how far out that is. -/
def lookup (name : String) : Scopes → Except CompileError (ColumnRef Expr × Nat)
  | [] => .error (.unresolvedIdentifier name)
  | scope :: outer =>
    let (qualifier, column) := splitName name
    match scope.filterMap (inSource? qualifier column) with
    | [] => lookup name outer
    | [ref] => .ok (ref, outer.length)
    | _ => .error (.ambiguousColumn name)

/-- The flags that a call takes from its function. -/
def callFlags (functions : Functions) (name : String) (n : Nat) : Except CompileError ExprFlags :=
  match functions.find? name n with
  | some f =>
    .ok { constantCall := f.flags.constant && !f.flags.aggregate, unlikely := f.flags.unlikely }
  | none =>
    .error (if functions.contains name then .wrongArgumentCount name else .unknownFunction name)

/-- The facts of a node, marked as correlated if its sub-select reaches beyond the scopes. -/
def markCorrelated (info : NodeInfo) (scopes : Scopes) (reach : Reach) : NodeInfo :=
  if reach.isBeyond scopes.length then
    { info with flags := info.flags.union { correlated := true } }
  else info

mutual

def expr (functions : Functions) (scopes : Scopes) : Expr → Except CompileError (Expr × Reach)
  | .node info kind =>
    match kind with
    | .ident name =>
      match Expr.truthName? (.node info (.ident name)) with
      | some b => .ok (.node info (.boolean b), none)
      | none => do
        let (ref, depth) ← lookup name scopes
        return ((Expr.ofKind (.column ref)).withFlags info.flags, some depth)
    | .call name args window => do
      let flags ← callFlags functions name args.length
      let (args, reach) ← items functions scopes args
      return (.node { info with flags := info.flags.union flags } (.call name args window), reach)
    | .column ⟨cursor, column, table, fixed⟩ => do
      let (fixed, reach) ← option functions scopes fixed
      return (.node info (.column ⟨cursor, column, table, fixed⟩), reach)
    | .aggCall index name args => do
      let (args, reach) ← items functions scopes args
      return (.node info (.aggCall index name args), reach)
    | .register reg source => do
      let (source, reach) ← expr functions scopes source
      return (.node info (.register reg source), reach)
    | .unary op operand => do
      let (operand, reach) ← expr functions scopes operand
      return (.node info (.unary op operand), reach)
    | .binary op left right => do
      let (left, a) ← expr functions scopes left
      let (right, b) ← expr functions scopes right
      return (.node info (.binary op left right), a.join b)
    | .collate operand name => do
      let (operand, reach) ← expr functions scopes operand
      return (.node info (.collate operand name), reach)
    | .cast operand type => do
      let (operand, reach) ← expr functions scopes operand
      return (.node info (.cast operand type), reach)
    | .caseOf base arms otherwise => do
      let (base, a) ← option functions scopes base
      let (arms, b) ← armsOf functions scopes arms
      let (otherwise, c) ← option functions scopes otherwise
      return (.node info (.caseOf base arms otherwise), (a.join b).join c)
    | .between operand low high => do
      let (operand, a) ← expr functions scopes operand
      let (low, b) ← expr functions scopes low
      let (high, c) ← expr functions scopes high
      return (.node info (.between operand low high), (a.join b).join c)
    | .inList id operand list => do
      let (operand, a) ← expr functions scopes operand
      let (list, b) ← items functions scopes list
      return (.node info (.inList id operand list), a.join b)
    | .inSelect id operand sub => do
      let (operand, a) ← expr functions scopes operand
      let (sub, b) ← select functions scopes sub
      return (.node (markCorrelated info scopes b) (.inSelect id operand sub), a.join b)
    | .hasRows id sub => do
      let (sub, reach) ← select functions scopes sub
      return (.node (markCorrelated info scopes reach) (.hasRows id sub), reach)
    | .subquery id sub => do
      let (sub, reach) ← select functions scopes sub
      return (.node (markCorrelated info scopes reach) (.subquery id sub), reach)
    | .vector list => do
      let (list, reach) ← items functions scopes list
      return (.node info (.vector list), reach)
    | .ifNullRow cursor operand => do
      let (operand, reach) ← expr functions scopes operand
      return (.node info (.ifNullRow cursor operand), reach)
    | kind => .ok (.node info kind, none)
termination_by structural e => e

def option (functions : Functions) (scopes : Scopes) :
    Option Expr → Except CompileError (Option Expr × Reach)
  | none => .ok (none, none)
  | some e => do
    let (e, reach) ← expr functions scopes e
    return (some e, reach)
termination_by structural e => e

def items (functions : Functions) (scopes : Scopes) :
    List (Item Expr) → Except CompileError (List (Item Expr) × Reach)
  | [] => .ok ([], none)
  | ⟨e, d, c⟩ :: rest => do
    let (e, a) ← expr functions scopes e
    let (rest, b) ← items functions scopes rest
    return (⟨e, d, c⟩ :: rest, a.join b)
termination_by structural list => list

def optionItems (functions : Functions) (scopes : Scopes) :
    Option (List (Item Expr)) → Except CompileError (Option (List (Item Expr)) × Reach)
  | none => .ok (none, none)
  | some list => do
    let (list, reach) ← items functions scopes list
    return (some list, reach)
termination_by structural list => list

def armsOf (functions : Functions) (scopes : Scopes) :
    List (Expr × Expr) → Except CompileError (List (Expr × Expr) × Reach)
  | [] => .ok ([], none)
  | (condition, result) :: rest => do
    let (condition, a) ← expr functions scopes condition
    let (result, b) ← expr functions scopes result
    let (rest, c) ← armsOf functions scopes rest
    return ((condition, result) :: rest, (a.join b).join c)
termination_by structural arms => arms

/-- Resolves a sub-select within its own FROM clause and the scopes around it. The arm before it is
resolved inside its scope. -/
def select (functions : Functions) (scopes : Scopes) : Select → Except CompileError (Select × Reach)
  | .mk ⟨id, columns, sources, filter, groupBy, having, orderBy, limit, flags, prior⟩ => do
    let inner := sources :: scopes
    let (columns, a) ← items functions inner columns
    let (filter, b) ← option functions inner filter
    let (having, c) ← option functions inner having
    let (limit, d) ← option functions inner limit
    let (groupBy, e) ← optionItems functions inner groupBy
    let (orderBy, f) ← optionItems functions inner orderBy
    let (prior, g) ← optionSelect functions inner prior
    return (.mk ⟨id, columns, sources, filter, groupBy, having, orderBy, limit, flags, prior⟩,
      [b, c, d, e, f, g].foldl Reach.join a)
termination_by structural s => s

def optionSelect (functions : Functions) (scopes : Scopes) :
    Option Select → Except CompileError (Option Select × Reach)
  | none => .ok (none, none)
  | some s => do
    let (s, reach) ← select functions scopes s
    return (some s, reach)
termination_by structural s => s

end

end Resolve

def Expr.resolve (functions : Functions) (sources : List Source) (e : Expr) :
    Except CompileError Expr :=
  (Resolve.expr functions [sources] e).map (·.1)

def Select.resolve (functions : Functions) (sources : List Source) (s : Select) :
    Except CompileError Select :=
  (Resolve.select functions [sources] s).map (·.1)

end ScalarSql
