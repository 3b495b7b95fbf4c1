import ScalarSql.Code.Literal
import ScalarSql.Proofs.Machine.Tables

/-!
# The meaning of expressions

What an expression means depends on an environment: the functions and collating sequences, the bound
parameters and the rows under the cursors. An expression has a value in an environment, or it fails,
and a branch on it is taken, is not taken, or fails.

A value and a branch do not fail at the same times, because a branch does not compute operands that
cannot matter. So a `Meaning` holds both, and it is built from the meanings of the parts of an
expression just as the code is built from theirs.
-/

namespace ScalarSql

/-! ## Environments -/

/-- The row under a cursor, as expressions read it. -/
structure RowView where
  column : Int → Option Value
  rowid : Value

/-- The value of a column of a table; a row that is too short has the default. -/
def RowView.value (view : RowView) (table : Option Table) (column : Int) : Value :=
  match table with
  | none => (view.column column).getD .null
  | some t =>
    if t.isRowid column then view.rowid
    else
      let v := (view.column column).getD (((t.column? column).bind (·.default?)).getD .null)
      if t.columnAffinity column = .real then Instr.realValue v else v

namespace Cursor

def storedEntries (c : Cursor) : List Key :=
  match c.data with
  | .rows rows => rows.map (·.values)
  | .keys keys => keys
  | .ephemeral _ => []

/-- The row under a cursor on a table or an index. -/
def view (c : Cursor) : RowView where
  column n :=
    if c.nullRow then some .null else do Key.field? (← c.storedEntries[← c.position]?) n
  rowid := c.rowid

theorem column?_eq_view {c : Cursor} (h : c.isStored) (m : Machine) (n : Int) : m.column? c n = c.view.column n := by
  have hentries : m.entries c = c.storedEntries := by
    unfold Machine.entries storedEntries
    unfold isStored at h
    split <;> simp_all
  simp only [Machine.column?, view, hentries]

end Cursor

/-- The cursor whose row columns of a cursor read; those without one read the own row. -/
def readCursor? (own : Option Int) (cursor : Int) : Option Int := if 0 ≤ cursor then some cursor else own

/-- What the meaning of an expression depends on. -/
structure Env where
  functions : Functions
  collation : String → Option Collation
  /-- The greatest length of a constant list whose items IN compares in turn. -/
  chained : Nat
  params : List Value
  row : Int → Option RowView
  /-- The cursor on the own row. -/
  own : Option Int

/-- What code computes: a value in each environment, if there is one. -/
abbrev Reading := Env → Option Value

namespace Env

/-- The value of a parameter; one that is not bound is NULL. -/
def param (env : Env) (index : Int) : Value :=
  if index < 1 then .null else (env.params[(index - 1).toNat]?).getD .null

/-- The row that columns of a cursor read. -/
def seen (env : Env) (cursor : Int) : Option RowView := (readCursor? env.own cursor).bind env.row

/-- The value of a column of the row that it reads. -/
def column (env : Env) (table : Option Table) (cursor column : Int) : Option Value :=
  (env.seen cursor).map (·.value table column)

/-- The order of the values of two expressions under comparison; none if one is NULL and NULL is not
compared. -/
def order? (env : Env) (left right : Expr) (nullEq : Bool) (a b : Value) : Option Ordering :=
  CompareMode.order? { affinity := left.compareAffinity right.affinity, nullEq }
    ((left.compareCollationName? right).bind env.collation) a b

def compare (env : Env) (op : BinaryOp) (left right : Expr) (a b : Value) : Option Bool :=
  (env.order? left right op.comparesNull a b).map op.opcode.accepts

/-- The collating sequence handed to a function: that of the first argument that has one, else
BINARY. -/
def callCollation (env : Env) (args : List Expr) : Option Collation :=
  env.collation ((args.findSome? (·.collationName?)).getD "BINARY")

def call (env : Env) (f : Function) (args : List Expr) (values : List Value) : Option Value :=
  (f.invoke values (if f.flags.needsCollation then env.callCollation args else none) 0).toOption

end Env

/-! ## Literals and tests -/

def realLiteral (text : String) (negated : Bool) : Value :=
  let x := (Value.parseNumber text).1.asReal
  .ofFloat (if negated then -x else x)

/-- The value of an integer literal; one in hexadecimal digits that does not fit has none. -/
def integerLiteral (text : String) (negated : Bool) : Option Value :=
  match (IntegerText.read text).signed? negated with
  | some i => some (.integer i)
  | none => if IntegerText.isHex text then none else some (realLiteral text negated)

/-- Whether a truth test holds of a truth value. -/
def TruthTest.holds (test : TruthTest) (t : Option Bool) : Bool :=
  (t == some test.forTrue) != test.negated

/-- Whether a branch is taken: if the truth value is as wanted, or unknown and that is to jump. -/
def takes (wanted jumpIfNull : Bool) (t : Option Bool) : Bool := t.elim jumpIfNull (· == wanted)

/-! ## Meanings -/

structure Meaning where
  expr : Expr
  value : Env → Option Value
  fields : List (Env → Option Value) := []
  jump : (wanted jumpIfNull : Bool) → Env → Option Bool
  /-- As `jump`, with AND and OR with a literal reduced. -/
  branch : (wanted jumpIfNull : Bool) → Env → Option Bool

namespace Meaning

/-- Whether a branch on the truth of a value is taken; the value of a literal is not computed. -/
def onTruth (e : Expr) (value : Env → Option Value) (wanted jumpIfNull : Bool) (env : Env) :
    Option Bool :=
  if if wanted then e.isAlwaysTrue else e.isAlwaysFalse then some true
  else if if wanted then e.isAlwaysFalse else e.isAlwaysTrue then some false
  else (value env).map fun v => takes wanted jumpIfNull v.truth

/-- The meaning of an expression that branches in a way of its own. -/
def ofJump (e : Expr) (value : Env → Option Value) (jump : Bool → Bool → Env → Option Bool) :
    Meaning :=
  { expr := e, value, jump, branch := jump }

/-- The meaning of an expression that branches on the truth of its value. -/
def ofValue (e : Expr) (value : Env → Option Value) : Meaning := ofJump e value (onTruth e value)

def undefined (e : Expr) : Meaning := ofValue e fun _ => none

def field (μ : Meaning) (i : Nat) (env : Env) : Option Value := (μ.fields[i]?).bind (· env)

/-- The values of all fields; a single value is its own field. -/
def row (μ : Meaning) (env : Env) : Option (List Value) :=
  if μ.expr.vectorSize = 1 then (μ.value env).map ([·]) else μ.fields.mapM (· env)

/-- The meaning of values that were computed before, as those of an expression. -/
def held (e : Expr) (values : List Value) : Meaning :=
  { ofValue e fun _ => values.head? with fields := values.map fun v _ => some v }

/-! ## Binary operators -/

def jumpAnd (left right : Meaning) (wanted jumpIfNull : Bool) (env : Env) : Option Bool := do
  if wanted then
    if ← left.branch false (!jumpIfNull) env then return false else right.branch true jumpIfNull env
  else if ← left.branch false jumpIfNull env then return true
  else right.branch false jumpIfNull env

def jumpOr (left right : Meaning) (wanted jumpIfNull : Bool) (env : Env) : Option Bool := do
  if wanted then
    if ← left.branch true jumpIfNull env then return true else right.branch true jumpIfNull env
  else if ← left.branch true (!jumpIfNull) env then return false
  else right.branch false jumpIfNull env

/-- The opcode that compares the fields before the last one. -/
def strict (op : BinaryOp) : Opcode :=
  match op.opcode with
  | .le => .lt
  | .ge => .gt
  | o => o

/-- Whether fields before the last one decide a comparison of row values, given their order and the
outcome so far. -/
def decides (strict : Opcode) (order : Option Ordering) (outcome : Value) : Bool :=
  match strict with
  | .eq => outcome.truth == some false
  | .ne => outcome.truth == some true
  | _ => order.getD .lt != .eq

/-- The outcome of comparing `n` fields from field `i` on, where `before` is the outcome of the fields
before them. -/
def compareFields (op : BinaryOp) (left right : Meaning) (env : Env) : (n i : Nat) → (before : Value) → Option Value
  | 0, _, before => some before
  | n + 1, i, before => do
    let a ← left.field i env
    let b ← right.field i env
    let order := env.order? (left.expr.vectorField i) (right.expr.vectorField i) op.comparesNull a b
    let keepNull := (strict op == .eq || strict op == .ne) && i != 0
    let outcome := (if n = 0 then op.opcode else strict op).stored keepNull order before
    if n = 0 || decides (strict op) order outcome then return outcome
    else compareFields op left right env n (i + 1) outcome

def binaryValue (op : BinaryOp) (left right : Meaning) (env : Env) : Option Value :=
  if !op.isComparison then do
    return op.compute (← left.value env) (← right.value env)
  else if left.expr.isVector || right.expr.isVector then
    compareFields op left right env left.expr.vectorSize 0 .null
  else do
    return .ofTruth (env.compare op left.expr right.expr (← left.value env) (← right.value env))

def jumpComparison (op : BinaryOp) (left right : Meaning) (wanted jumpIfNull : Bool) (env : Env) :
    Option Bool := do
  return takes wanted jumpIfNull (env.compare op left.expr right.expr (← left.value env) (← right.value env))

/-- The operand that AND or OR with a literal comes down to. -/
def reduced? (op : BinaryOp) (left right : Meaning) : Option Meaning :=
  let keepsSecond := left.expr.isAlwaysTrue || right.expr.isAlwaysFalse
  let keepsFirst := right.expr.isAlwaysTrue || left.expr.isAlwaysFalse
  match op with
  | .and => if keepsSecond then some right else if keepsFirst then some left else none
  | .or => if keepsSecond then some left else if keepsFirst then some right else none
  | _ => none

def jumpBinary (e : Expr) (op : BinaryOp) (left right : Meaning) : Bool → Bool → Env → Option Bool :=
  match op with
  | .and => jumpAnd left right
  | .or => jumpOr left right
  | _ =>
    if op.isComparison && !(left.expr.isVector || right.expr.isVector) then
      jumpComparison op left right
    else onTruth e (binaryValue op left right)

def binary (e : Expr) (op : BinaryOp) (left right : Meaning) : Meaning :=
  { ofJump e (binaryValue op left right) (jumpBinary e op left right) with
    branch := (reduced? op left right).elim (jumpBinary e op left right) jump }

/-- The meaning of a binary operator on two expressions, with a node of its own. -/
def compared (op : BinaryOp) (left right : Meaning) : Meaning :=
  binary (Expr.ofKind (.binary op left.expr right.expr)) op left right

end Meaning

end ScalarSql
