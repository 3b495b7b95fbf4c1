import ScalarSql.Code.Membership
import ScalarSql.Proofs.Meaning.Basic

/-!
# The meaning of every kind of node

`Expr.meaning` builds the meaning of an expression from the meanings of its parts. Kinds of nodes
whose value is not a function of the environment alone (sub-selects, accumulators, registers, window
functions and RAISE) have no meaning here.
-/

namespace ScalarSql

namespace Meaning

/-! ## Unary operators, CAST and COLLATE -/

/-- The value of an operand with its sign changed: a literal is read with the sign. -/
def negatedValue (operand : Meaning) (env : Env) : Option Value :=
  match operand.expr.kind with
  | .integer (.inline v) => some (.integer (Int64.ofInt (-v).toInt))
  | .integer (.text t) => integerLiteral t true
  | .float t => some (realLiteral t true)
  | _ => (operand.value env).map (Value.subtract (.integer 0))

def unaryValue (op : UnaryOp) (operand : Meaning) (env : Env) : Option Value :=
  match op with
  | .positive => operand.value env
  | .negate => negatedValue operand env
  | .not => (operand.value env).map Value.not
  | .bitNot => (operand.value env).map Value.bitNot
  | .isNull => (operand.value env).map fun v => .ofBool v.isNull
  | .notNull => (operand.value env).map fun v => .ofBool !v.isNull
  | .isTrue => (operand.value env).map fun v => .ofBool (TruthTest.holds ⟨true, false⟩ v.truth)
  | .isNotTrue => (operand.value env).map fun v => .ofBool (TruthTest.holds ⟨true, true⟩ v.truth)
  | .isFalse => (operand.value env).map fun v => .ofBool (TruthTest.holds ⟨false, false⟩ v.truth)
  | .isNotFalse => (operand.value env).map fun v => .ofBool (TruthTest.holds ⟨false, true⟩ v.truth)

def jumpUnary (e : Expr) (op : UnaryOp) (operand : Meaning) (wanted jumpIfNull : Bool) (env : Env) :
    Option Bool :=
  match op, op.truthTest? with
  | _, some test =>
    operand.branch ((test.forTrue != test.negated) == wanted) (test.negated == wanted) env
  | .not, _ => operand.branch (!wanted) jumpIfNull env
  | .isNull, _ => (operand.value env).map fun v => v.isNull == wanted
  | .notNull, _ => (operand.value env).map fun v => v.isNull == !wanted
  | _, _ => onTruth e (unaryValue op operand) wanted jumpIfNull env

def unary (e : Expr) (op : UnaryOp) (operand : Meaning) : Meaning :=
  ofJump e (unaryValue op operand) (jumpUnary e op operand)

def cast (e : Expr) (operand : Meaning) (type : String) : Meaning :=
  ofValue e fun env => (operand.value env).map (Value.cast (Affinity.ofType type))

def collate (e : Expr) (operand : Meaning) : Meaning := ofValue e operand.value

/-! ## BETWEEN and CASE -/

/-- BETWEEN as two comparisons of values that were computed before. -/
def conjunction (operand low high : Meaning) (values : List Value) : Meaning :=
  compared .and (compared .ge (held operand.expr values) low) (compared .le (held operand.expr values) high)

def between (e : Expr) (operand low high : Meaning) : Meaning :=
  ofJump e (fun env => do (conjunction operand low high (← operand.row env)).value env) fun wanted jumpIfNull env => do
      (conjunction operand low high (← operand.row env)).branch wanted jumpIfNull env

/-- The condition of an arm of CASE; `subject` are the values that it is compared with. -/
def armTest (subject : Option (Expr × List Value)) (condition : Meaning) : Meaning :=
  match subject with
  | some (e, values) => compared .eq (held e values) condition
  | none => condition

def caseArms (subject : Option (Expr × List Value)) (otherwise : Option Meaning) (env : Env) :
    List (Meaning × Meaning) → Option Value
  | [] => otherwise.elim (some .null) (·.value env)
  | (condition, result) :: rest => do
    if ← (armTest subject condition).branch false true env then caseArms subject otherwise env rest
    else result.value env

def caseOf (e : Expr) (base : Option Meaning) (arms : List (Meaning × Meaning))
    (otherwise : Option Meaning) : Meaning :=
  ofValue e fun env => do
    match base with
    | some b => caseArms (some (b.expr, ← b.row env)) otherwise env arms
    | none => caseArms none otherwise env arms

/-! ## Columns and calls -/

/-- The value of a column that is known to equal a constant. -/
def fixedValue (ref : ColumnRef Expr) (v : Value) : Value :=
  let affinity := (ref.table.map (·.columnAffinity ref.column)).getD .blob
  if affinity = .blob || affinity = .none then v else v.applyAffinity affinity

def column (e : Expr) (ref : ColumnRef Expr) (fixed : Option Meaning) : Meaning :=
  ofValue e fun env =>
    match fixed with
    | some μ => (μ.value env).map (fixedValue ref)
    | none => env.column ref.table ref.cursor ref.column

/-- The first value that is not NULL, else the last one. -/
def firstNotNull (env : Env) : List Meaning → Option Value
  | [] => none
  | [μ] => μ.value env
  | μ :: rest => do
    let v ← μ.value env
    if v.isNull then firstNotNull env rest else return v

def callValue (name : String) (args : List Meaning) (env : Env) : Option Value := do
  let f ← env.functions.find? name args.length
  if f.flags.coalesce then firstNotNull env args
  else
    match f.flags.unlikely, args with
    | true, first :: _ => first.value env
    | _, _ => env.call f (args.map (·.expr)) (← args.mapM (·.value env))

/-! ## IN -/

/-- Whether a constant list is so long that its items are looked up and not compared in turn. -/
def looksUp (items : List Meaning) (env : Env) : Bool :=
  items.all (fun μ => μ.expr.isConstant .plain) && env.chained < items.length

/-- The outcome of comparing a value with each item in turn; `unknown` says that a NULL was seen. -/
def chainOutcome (operand : Expr) (x : Value) (env : Env) : (unknown : Bool) → List Meaning → Option (Option Bool)
  | unknown, [] => some (if unknown then none else some false)
  | unknown, μ :: rest => do
    let k ← μ.value env
    let order := CompareMode.order? { affinity := operand.affinity } (operand.collationName?.bind env.collation) x k
    if order = some .eq then return some true
    else chainOutcome operand x env (unknown || μ.expr.canBeNull && k.isNull) rest

/-- The outcome of looking a value up among keys. -/
def lookupOutcome (operand : Expr) (notNull : Bool) (x : Value) (keys : List Value) (env : Env) :
    Option Bool :=
  let converted := keys.map (Value.applyAffinity (if operand.affinity = .none then .blob
    else operand.affinity))
  let collation := env.collation (operand.collationName?.getD "BINARY")
  if operand.canBeNull && x.isNull then none
  else if converted.any fun k =>
      Value.compareBy collation (x.applyAffinity operand.affinity) k == .eq then some true
  else if !notNull && converted.any Value.isNull then none
  else some false

/-- The ephemeral table of IN over a list: the collating sequences of its fields, and its keys. -/
def keyTable (operand : Expr) (items : List Meaning) (env : Env) : Option (List (Option Collation) × List Key) := do
  let values ← items.mapM (·.value env)
  let c ← env.collation (operand.collationName?.getD "BINARY")
  let affinity := if operand.affinity = .none then .blob else operand.affinity
  return ([some c], values.foldl (fun keys v => Key.insert [some c] keys [v.applyAffinity affinity]) [])

/-- The outcome of IN over a list. -/
def listOutcome (operand : Meaning) (items : List Meaning) (env : Env) : Option (Option Bool) := do
  if items.isEmpty then return some false
  else if looksUp items env then
    let keys ← items.mapM (·.value env)
    let x ← operand.value env
    return lookupOutcome operand.expr (items.all fun μ => !μ.expr.canBeNull) x keys env
  else
    let x ← operand.value env
    chainOutcome operand.expr x env x.isNull items

def inList (e : Expr) (operand : Meaning) (items : List Meaning) : Meaning :=
  ofJump e (fun env => (listOutcome operand items env).map Value.ofTruth)
    fun wanted jumpIfNull env => (listOutcome operand items env).map (takes wanted jumpIfNull)

end Meaning

/-! ## Expressions -/

mutual

def Expr.meaning : Expr → Meaning
  | .node info kind => Kind.meaning (.node info kind) kind
termination_by structural e => e

def Kind.meaning (e : Expr) : Kind Expr Select → Meaning
  | .null => .ofValue e fun _ => some .null
  | .integer (.inline v) => .ofValue e fun _ => some (.integer (Int64.ofInt v.toInt))
  | .integer (.text t) => .ofValue e fun _ => integerLiteral t false
  | .float t => .ofValue e fun _ => some (realLiteral t false)
  | .string s => .ofValue e fun _ => some (.text s)
  | .blob hex => .ofValue e fun _ => (Text.readHexBytes? hex.toList).map .blob
  | .boolean b => .ofValue e fun _ => some (.ofBool b)
  | .param index _ => .ofValue e fun env => some (env.param index)
  | .ident _ => .ofValue e fun _ => e.truthName?.map .ofBool
  | .column ⟨cursor, column, table, fixed⟩ =>
    .column e ⟨cursor, column, table, fixed⟩ (optionMeaning fixed)
  | .unary op operand => .unary e op operand.meaning
  | .binary op left right => .binary e op left.meaning right.meaning
  | .collate operand _ => .collate e operand.meaning
  | .cast operand type => .cast e operand.meaning type
  | .call name args _ => .ofValue e (Meaning.callValue name (itemsMeaning args))
  | .caseOf base arms otherwise =>
    .caseOf e (optionMeaning base) (armsMeaning arms) (optionMeaning otherwise)
  | .between operand low high => .between e operand.meaning low.meaning high.meaning
  | .inList _ operand items => .inList e operand.meaning (itemsMeaning items)
  | .vector items =>
    { Meaning.undefined e with fields := (itemsMeaning items).map (·.value) }
  | _ => .undefined e
termination_by structural kind => kind

def optionMeaning : Option Expr → Option Meaning
  | none => none
  | some e => some e.meaning
termination_by structural e => e

def itemsMeaning : List (Item Expr) → List Meaning
  | [] => []
  | ⟨e, _, _⟩ :: rest => e.meaning :: itemsMeaning rest
termination_by structural items => items

def armsMeaning : List (Expr × Expr) → List (Meaning × Meaning)
  | [] => []
  | (condition, result) :: rest => (condition.meaning, result.meaning) :: armsMeaning rest
termination_by structural arms => arms

end

@[simp]
theorem Expr.meaning_expr (e : Expr) : e.meaning.expr = e := by
  obtain ⟨info, kind⟩ := e
  cases kind with
  | integer literal => cases literal <;> rfl
  | _ => rfl

def Expr.keyTable (e : Expr) (env : Env) : Option (List (Option Collation) × List Key) :=
  match e.kind with
  | .inList _ operand items => Meaning.keyTable operand (itemsMeaning items) env
  | _ => none

theorem itemsMeaning_eq_map (items : List (Item Expr)) : itemsMeaning items = items.map (·.expr.meaning) := by
  induction items with
  | nil => rfl
  | cons item rest ih =>
    rw [itemsMeaning, ih]
    rfl

theorem armsMeaning_eq_map (arms : List (Expr × Expr)) :
    armsMeaning arms = arms.map fun arm => (arm.1.meaning, arm.2.meaning) := by
  induction arms with
  | nil => rfl
  | cons arm rest ih =>
    rw [armsMeaning, ih]
    rfl

end ScalarSql
