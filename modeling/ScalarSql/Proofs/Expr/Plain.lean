import ScalarSql.Expr.Constant
import ScalarSql.Proofs.Expr.Induction

/-!
# Plain expressions

A scalar expression is built from literals, parameters, columns, operators, CASE, BETWEEN, row values,
IN over lists and calls of scalar functions: it holds no sub-select, and no value that something else
put into a register. Its flags are the ones that building its nodes and resolving its calls set. A plain
expression of a scope is one whose nodes are all among those that are compiled.

Constant plain expressions are the ones that may be computed before the first row. Two facts about
constancy are needed everywhere: a constant has constant parts, and a constant that comes from no outer
join is constant in the plain sense.
-/

namespace ScalarSql

/-- What expressions may refer to. -/
structure Scope where
  functions : Functions
  collation : String → Option Collation
  /-- The cursors on the rows around the expression. -/
  cursors : Int → Prop
  /-- The cursor on the own row, which the columns without a cursor read. -/
  own : Option Int := none
  placed : ∀ n, own = some n → cursors n
  part : Expr → Prop
  /-- Zero is one of them: a value is subtracted from it to change the sign. -/
  zero : part (Expr.ofKind (.integer (.inline 0)))
  node : Identity → Option Expr
  /-- The registers of results that lists refer to. -/
  aside : Int → Prop := fun _ => False

/-- The scope before there are results that lists refer to. -/
def Scope.bare (σ : Scope) : Scope := { σ with aside := fun _ => False }

/-- Code of the node computes the value into the register that is wanted, if it is no constant: the column is
that of a row, the function is no hint, and what COLLATE or a plus sign stands before is of a join if they are. -/
def Expr.Direct (fs : Functions) (e : Expr) : Prop :=
  match e.kind with
  | .column ref => ref.fixed = none
  | .call name args _ => (fs.find? name args.length).all fun f => !f.flags.unlikely
  | .unary .positive operand | .collate operand _ => e.flags.fromJoin = true → operand.flags.fromJoin = true
  | _ => True

def Scope.CallFree (σ : Scope) : Prop :=
  ∀ e, σ.part e → ∀ name args window, e.kind ≠ .call name args window

/-- The arguments of calls are not copied together: there are none, or their values are computed into the registers
that are wanted. -/
def Scope.Unmerged (σ : Scope) : Prop :=
  σ.CallFree ∨ ∀ e, σ.part e → e.Direct σ.functions

namespace Expr

/-- Whether the node passes on whether COLLATE is below it, as building it does. -/
def FlagsComputed (e : Expr) : Prop := e.flags.collate = (infoOf e.kind).flags.collate

@[simp]
theorem flagsComputed_ofKind (kind : Kind Expr Select) : (ofKind kind).FlagsComputed := rfl

/-- A call of a scalar function on at most 32 arguments. One that is marked as constant or as a hint
was resolved: it is marked as a hint exactly if the function is one. -/
def PlainCall (fs : Functions) (flags : ExprFlags) (name : String) (args : List (Item Expr)) : Prop :=
  args.length ≤ 32 ∧ (∀ f, fs.find? name args.length = some f →
      f.body ≠ .random ∧ (f.flags.unlikely = true → f.flags.coalesce = false)) ∧
    (flags.constantCall = true ∨ flags.unlikely = true →
      flags.unlikely = (fs.find? name args.length).any (·.flags.unlikely))

def ScalarNode (fs : Functions) (cursors : Int → Prop) (e : Expr) : Prop :=
  e.FlagsComputed ∧
    match e.kind with
    | .null | .integer _ | .float _ | .string _ | .blob _ | .boolean _ | .param _ _ | .ident _ => True
    | .column ⟨cursor, _, _, fixed⟩ => fixed = none → cursors cursor
    | .unary _ _ | .binary _ _ _ | .collate _ _ | .cast _ _ => True
    | .caseOf _ _ _ | .between _ _ _ | .inList _ _ _ => True
    | .call name args window => window.isNone = true ∧ PlainCall fs e.flags name args
    | .vector items => items ≠ []
    | _ => False

/-- A scalar expression over the rows under some cursors. -/
def Scalar (fs : Functions) (cursors : Int → Prop) (e : Expr) : Prop := e.Every (ScalarNode fs cursors)

theorem scalar_ofKind {fs : Functions} {cursors : Int → Prop} {kind : Kind Expr Select} :
    (ofKind kind).Scalar fs cursors ↔
      (ofKind kind).ScalarNode fs cursors ∧ ∀ x ∈ kind.children, x.Scalar fs cursors := every_ofKind

structure PlainNode (σ : Scope) (e : Expr) : Prop where
  scalar : e.ScalarNode σ.functions σ.cursors
  part : σ.part e
  /-- It is the only IN node of its identity. -/
  node : ∀ id operand items, e.kind = .inList id operand items → σ.node id = some e

def Plain (σ : Scope) (e : Expr) : Prop := e.Every (PlainNode σ)

/-! ## Identities of IN -/

mutual

/-- The identities of the IN nodes that the code of the expression tests. -/
def identities : Expr → List Identity
  | .node _ kind =>
    match kind with
    | .column ⟨_, _, _, fixed⟩ => optionIdentities fixed
    | .call _ args _ => itemsIdentities args
    | .unary _ operand => identities operand
    | .binary _ left right => identities left ++ identities right
    | .collate operand _ => identities operand
    | .cast operand _ => identities operand
    | .caseOf base arms otherwise =>
      optionIdentities base ++ armsIdentities arms ++ optionIdentities otherwise
    | .between operand low high => identities operand ++ identities low ++ identities high
    | .inList id operand items => id :: (identities operand ++ itemsIdentities items)
    | .vector items => itemsIdentities items
    | _ => []
termination_by structural e => e

def optionIdentities : Option Expr → List Identity
  | none => []
  | some e => identities e
termination_by structural e => e

def itemsIdentities : List (Item Expr) → List Identity
  | [] => []
  | ⟨e, _, _⟩ :: rest => identities e ++ itemsIdentities rest
termination_by structural items => items

def armsIdentities : List (Expr × Expr) → List Identity
  | [] => []
  | (condition, result) :: rest =>
    identities condition ++ identities result ++ armsIdentities rest
termination_by structural arms => arms

end

/-- The identities below each field of a row value. -/
def fieldIdentities (e : Expr) : List (List Identity) :=
  match e.kind with
  | .vector items => items.map fun item => item.expr.identities
  | _ => []

theorem itemsIdentities_eq_flatMap (items : List (Item Expr)) :
    itemsIdentities items = items.flatMap fun item => item.expr.identities := by
  induction items with
  | nil => rfl
  | cons item rest ih =>
    rw [itemsIdentities, ih, List.flatMap_cons]

end Expr

end ScalarSql
