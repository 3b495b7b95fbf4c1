import ScalarSql.Expr.Basic

/-!
# The shape of an expression

Row values and their fields, operands under COLLATE and hints, literals whose value is plain, and
expressions that cannot be NULL.
-/

namespace ScalarSql.Expr

/-! ## Row values -/

/-- The number of fields: the length of a row value, the width of a sub-query, else one. -/
def vectorSize : Expr → Nat
  | .node _ (.vector items) => items.length
  | .node _ (.subquery _ select) => select.width
  | .node _ (.register _ source) => vectorSize source
  | _ => 1
termination_by structural e => e

def isVector (e : Expr) : Bool := 1 < e.vectorSize

/-- Field `i` of a row value; a single value is its own field. -/
def vectorField (i : Nat) : Expr → Expr
  | .node info (.vector items) =>
    if 1 < items.length then (items[i]?.map (·.expr)).getD (.node info (.vector items))
    else .node info (.vector items)
  | .node info (.subquery id select) =>
    if 1 < select.width then (select.columns[i]?.map (·.expr)).getD (.node info (.subquery id select))
    else .node info (.subquery id select)
  | .node info (.register reg source) =>
    if source.isVector then vectorField i source else .node info (.register reg source)
  | e => e
termination_by structural e => e

/-! ## Operands under COLLATE and hints -/

/-- The operand under any COLLATE operators at the top. -/
def skipCollate : Expr → Expr
  | .node _ (.collate operand _) => skipCollate operand
  | e => e
termination_by structural e => e

/-- The operand under any COLLATE operators and likelihood hints at the top. -/
def skipCollateAndLikely : Expr → Expr
  | .node _ (.collate operand _) => skipCollateAndLikely operand
  | .node info (.call name (⟨first, d, c⟩ :: args) window) =>
    if info.flags.unlikely then skipCollateAndLikely first
    else .node info (.call name (⟨first, d, c⟩ :: args) window)
  | e => e
termination_by structural e => e

/-! ## Literals -/

/-- Whether the expression is a literal that is true, and not from an outer join. -/
def isAlwaysTrue (e : Expr) : Bool :=
  !e.flags.fromJoin &&
    match e.kind with
    | .boolean b => b
    | .integer (.inline v) => v != 0
    | _ => false

/-- Whether the expression is a literal that is false, and not from an outer join. -/
def isAlwaysFalse (e : Expr) : Bool :=
  !e.flags.fromJoin &&
    match e.kind with
    | .boolean b => !b
    | .integer (.inline v) => v == 0
    | _ => false

/-- The value of a 32-bit integer literal under plus and minus signs, if it has 32 bits. -/
def asInteger? : Expr → Option Int32
  | .node _ (.integer (.inline v)) => some v
  | .node _ (.unary .positive operand) => asInteger? operand
  | .node _ (.unary .negate operand) =>
    (asInteger? operand).bind fun v => if v.toInt = -pow2 31 then none else some (-v)
  | _ => none
termination_by structural e => e

/-- The truth value that an unquoted identifier TRUE or FALSE stands for. -/
def truthName? (e : Expr) : Option Bool :=
  match e.kind with
  | .ident name =>
    if e.flags.quoted then none
    else if Text.sameName name "true" then some true
    else if Text.sameName name "false" then some false
    else none
  | _ => none

/-! ## NULL -/

/-- Whether the value may be NULL: not so for literals other than NULL, and for columns that refuse
NULL and stand on no row of NULLs. -/
def canBeNull : Expr → Bool
  | .node _ (.unary .positive operand) => canBeNull operand
  | .node _ (.unary .negate operand) => canBeNull operand
  | .node _ (.register _ source) => canBeNull source
  | .node _ (.integer _) => false
  | .node _ (.string _) => false
  | .node _ (.float _) => false
  | .node _ (.blob _) => false
  | .node info (.column ref) =>
    info.flags.canBeNull ||
      match ref.table with
      | none => true
      | some table => 0 ≤ ref.column && !table.columnNotNull ref.column
  | _ => true
termination_by structural e => e

end ScalarSql.Expr
