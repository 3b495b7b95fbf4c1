import ScalarSql.Code.Compare
import ScalarSql.Code.Literal

/-!
# Operators

Code of the unary and binary operators, BETWEEN and CASE. AND, OR and NOT branch without computing a
value.
-/

namespace ScalarSql

namespace Gen

def withoutHoisting {α : Type} (step : Gen α) : Gen α := do
  let saved := (← get).hoisting
  modify fun c => { c with hoisting := false }
  try
    let a ← step
    modify fun c => { c with hoisting := saved }
    return a
  catch error =>
    modify fun c => { c with hoisting := saved }
    throw error

/-- Computes two operands and applies an operation that takes no jump. -/
def arithmetic (opcode : Opcode) (left right : Code) (reg : Int) : Gen Unit := do
  let (r1, free1) ← left.temp
  let (r2, free2) ← right.temp
  emit (.of opcode r1 r2 reg)
  release free1
  release free2

def jumpAnd (left right : Coded) (wanted : Bool) (dest : Label) (jumpIfNull : Bool) : Gen Unit := do
  if wanted then
    let skip ← label
    left.branch false skip !jumpIfNull
    right.branch true dest jumpIfNull
    resolve skip
  else
    left.branch false dest jumpIfNull
    right.branch false dest jumpIfNull

def jumpOr (left right : Coded) (wanted : Bool) (dest : Label) (jumpIfNull : Bool) : Gen Unit := do
  if wanted then
    left.branch true dest jumpIfNull
    right.branch true dest jumpIfNull
  else
    let skip ← label
    left.branch true skip !jumpIfNull
    right.branch false dest jumpIfNull
    resolve skip

def jumpOnNull (operand : Code) (ifNull : Bool) (dest : Label) : Gen Unit := do
  let (reg, free) ← operand.temp
  emitJump (.of (if ifNull then .isNull else .notNull) reg) dest
  release free

end Gen

namespace Coded

/-! ## Binary operators -/

/-- The operand that AND or OR with a literal comes down to. -/
def reduced? (op : BinaryOp) (left right : Coded) : Option Coded :=
  let keepsSecond := left.expr.isAlwaysTrue || right.expr.isAlwaysFalse
  let keepsFirst := right.expr.isAlwaysTrue || left.expr.isAlwaysFalse
  match op with
  | .and => if keepsSecond then some right else if keepsFirst then some left else none
  | .or => if keepsSecond then some left else if keepsFirst then some right else none
  | _ => none

def binary (e : Expr) (op : BinaryOp) (left right : Coded) : Coded :=
  let rows := left.expr.isVector || right.expr.isVector
  let code := Code.of e fun reg => do
    if !op.isComparison then Gen.arithmetic op.opcode left.toCode right.toCode reg
    else if rows then Gen.storeRows op left right reg
    else Gen.storeComparison op left.toCode right.toCode reg
    return reg
  let jump : Bool → Label → Bool → Gen Unit :=
    match op with
    | .and => Gen.jumpAnd left right
    | .or => Gen.jumpOr left right
    | _ =>
      if op.isComparison && !rows then Gen.jumpComparison op left.toCode right.toCode
      else Gen.jumpOnTruth e code.temp
  { ofJump code jump with
    branch := fun wanted dest jumpIfNull => do
      Gen.checkHeight e
      ((reduced? op left right).elim jump Coded.jump) wanted dest jumpIfNull }

/-! ## Unary operators -/

/-- Changes the sign of an operand: that of a literal at once, any other by subtraction from
zero. -/
def negated (operand : Coded) (reg : Int) : Gen Unit :=
  match operand.expr.kind with
  | .integer (.inline v) => Gen.emit (.of .integer (-v).toInt reg)
  | .integer (.text t) => Gen.loadInteger t true reg
  | .float t => Gen.loadReal t true reg
  | _ =>
    let zero := Code.of (Expr.ofKind (.integer (.inline 0))) fun r => do
      Gen.emit (.of .integer 0 r)
      return r
    Gen.arithmetic .subtract zero operand.toCode reg

def applied (opcode : Opcode) (operand : Code) (reg : Int) : Gen Unit := do
  let (r, free) ← operand.temp
  Gen.emit (.of opcode r reg)
  Gen.release free

def nullTest (ifNull : Bool) (operand : Code) (reg : Int) : Gen Unit := do
  Gen.emit (.of .integer 1 reg)
  let (r, free) ← operand.temp
  let address ← Gen.emitAt (.of (if ifNull then .isNull else .notNull) r)
  Gen.emit (.of .addImm reg (-1))
  Gen.jumpHere address
  Gen.release free

def truthTest (test : TruthTest) (operand : Code) (reg : Int) : Gen Unit := do
  let (r, free) ← operand.temp
  let invert : Int := if test.forTrue = test.negated then 1 else 0
  Gen.emit (.of .isTrue r reg (if test.forTrue then 0 else 1) (.int invert))
  Gen.release free

def unary (e : Expr) (op : UnaryOp) (operand : Coded) : Coded :=
  let code := Code.of e fun reg =>
    let stored (step : Gen Unit) : Gen Int := do
      step
      return reg
    match op with
    | .positive => operand.target reg
    | .negate => stored (negated operand reg)
    | .not => stored (applied .not operand.toCode reg)
    | .bitNot => stored (applied .bitNot operand.toCode reg)
    | .isNull => stored (nullTest true operand.toCode reg)
    | .notNull => stored (nullTest false operand.toCode reg)
    | .isTrue => stored (truthTest ⟨true, false⟩ operand.toCode reg)
    | .isNotTrue => stored (truthTest ⟨true, true⟩ operand.toCode reg)
    | .isFalse => stored (truthTest ⟨false, false⟩ operand.toCode reg)
    | .isNotFalse => stored (truthTest ⟨false, true⟩ operand.toCode reg)
  ofJump code fun wanted dest jumpIfNull =>
    match op, op.truthTest? with
    | _, some test =>
      operand.branch ((test.forTrue != test.negated) == wanted) dest (test.negated == wanted)
    | .not, _ => operand.branch (!wanted) dest jumpIfNull
    | .isNull, _ => Gen.jumpOnNull operand.toCode wanted dest
    | .notNull, _ => Gen.jumpOnNull operand.toCode (!wanted) dest
    | _, _ => Gen.jumpOnTruth e code.temp wanted dest jumpIfNull

def cast (e : Expr) (operand : Coded) (type : String) : Coded :=
  load e fun reg => do
    let found ← operand.target reg
    if found ≠ reg then Gen.emit (.of .copyOne found reg)
    Gen.emit (.of .cast reg (Affinity.ofType type).code.toNat)

/-- The code of an operand that is NULL while a cursor is on its row of NULLs. -/
def ifNullRow (e : Expr) (cursor : Int) (operand : Coded) : Coded :=
  of e fun reg => do
    let address ← Gen.emitAt (.of .ifNullRow cursor)
    let found ← Gen.withoutHoisting (operand.target reg)
    Gen.jumpHere address
    Gen.modifyAt address fun i => { i with p3 := found }
    return found

/-! ## BETWEEN and CASE -/

/-- The code of a value that was computed into a register before. -/
def held (c : Coded) (reg : Int) : Coded := register (Expr.ofKind (.register reg c.expr)) reg

def compared (op : BinaryOp) (left right : Coded) : Coded :=
  binary (Expr.ofKind (.binary op left.expr right.expr)) op left right

/-- BETWEEN as two comparisons of an operand that is computed once; also returns the register to
release. -/
def asConjunction (operand low high : Coded) : Gen (Coded × Option Int) := do
  let (reg, free) ← operand.row
  let x := operand.held reg
  return (compared .and (compared .ge x low) (compared .le x high), free)

def between (e : Expr) (operand low high : Coded) : Coded :=
  let code := Code.of e fun reg => do
    let (both, free) ← asConjunction operand low high
    both.exact reg
    Gen.release free
    return reg
  ofJump code fun wanted dest jumpIfNull => do
    let (both, free) ← asConjunction operand low high
    both.branch wanted dest jumpIfNull
    Gen.release free

/-- The arms of CASE in turn; `subject` is the value that conditions are compared with. -/
def caseArms (subject : Option Coded) (reg : Int) (done : Label) : List (Coded × Coded) → Gen Unit
  | [] => return ()
  | (condition, result) :: rest => do
    let next ← Gen.label
    match subject with
    | some x => (compared .eq x condition).branch false next true
    | none => condition.branch false next true
    result.exact reg
    Gen.goto done
    Gen.resolve next
    caseArms subject reg done rest

def caseOf (e : Expr) (base : Option Coded) (arms : List (Coded × Coded)) (otherwise : Option Coded) :
    Coded :=
  load e fun reg => do
    let done ← Gen.label
    match base with
    | some b =>
      let (r, _) ← b.row
      caseArms (some (b.held r)) reg done arms
    | none => caseArms none reg done arms
    match otherwise with
    | some c => c.exact reg
    | none => Gen.emit (.of .null 0 reg)
    Gen.resolve done

/-! ## RAISE -/

/-- The result code of a failed RAISE. -/
def raiseCode : Int := 1811

/-- The code of RAISE, allowed in triggers only. -/
def raise (e : Expr) (action : RaiseAction) (message : Option String) : Coded :=
  load e fun _ => do
    if !(← get).inTrigger then throw .raiseOutsideTrigger
    let (result, mode) : Int × Int := match action with
      | .ignore => (0, 4)
      | .rollback => (raiseCode, 1)
      | .abort => (raiseCode, 2)
      | .fail => (raiseCode, 3)
    Gen.emit (.of .halt result mode 0 (.text (message.getD "")))

end Coded

end ScalarSql
