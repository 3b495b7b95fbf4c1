import ScalarSql.Code.Coded

/-!
# Comparisons

Single values compare by one instruction. Row values compare field by field: the first fields that
differ decide, and only the last field is compared by the operator itself.
-/

namespace ScalarSql

namespace BinaryOp

def opcode : BinaryOp → Opcode
  | .and => .and
  | .or => .or
  | .eq => .eq
  | .ne => .ne
  | .lt => .lt
  | .le => .le
  | .gt => .gt
  | .ge => .ge
  | .is => .eq
  | .isNot => .ne
  | .add => .add
  | .sub => .subtract
  | .mul => .multiply
  | .div => .divide
  | .rem => .remainder
  | .bitAnd => .bitAnd
  | .bitOr => .bitOr
  | .shiftLeft => .shiftLeft
  | .shiftRight => .shiftRight
  | .concat => .concat

def comparesNull : BinaryOp → Bool
  | .is | .isNot => true
  | _ => false

end BinaryOp

namespace Gen

/-- The instruction that compares two registers which hold the given expressions. -/
def comparison (left right : Expr) (opcode : Opcode) (r1 r2 : Int) (mode : CompareMode)
    (p2 : Int := 0) : Gen Instr := do
  let c ← lookup (left.compareCollation right)
  let mode := { mode with affinity := left.compareAffinity right.affinity }
  return .of opcode r1 p2 r2 (Operand.ofOption .collation c) mode.toBits

def storeComparison (op : BinaryOp) (left right : Code) (reg : Int) : Gen Unit := do
  let (r1, free1) ← left.temp
  let (r2, free2) ← right.temp
  let mode := { store := true, nullEq := op.comparesNull : CompareMode }
  emit (← comparison left.expr right.expr op.opcode r1 r2 mode reg)
  release free1
  release free2

def jumpComparison (op : BinaryOp) (left right : Code) (wanted : Bool) (dest : Label)
    (jumpIfNull : Bool) : Gen Unit := do
  let (r1, free1) ← left.temp
  let (r2, free2) ← right.temp
  let opcode := if wanted then op.opcode else op.opcode.negated?.getD op.opcode
  let mode : CompareMode :=
    if op.comparesNull then { nullEq := true } else { jumpIfNull }
  emitJump (← comparison left.expr right.expr opcode r1 r2 mode) dest
  release free1
  release free2

/-! ## Row values -/

/-- Runs a sub-query whose fields are to be compared; returns the first register of its result. -/
def rowBase (c : Coded) : Gen Int :=
  match c.expr.kind with
  | .subquery .. => c.subselect
  | _ => return 0

/-- The register of field `i` of a row value, the field, and the register to release. -/
def rowField (c : Coded) (i : Nat) (base : Int) : Gen (Int × Expr × Option Int) := do
  match c.expr.kind with
  | .register reg _ => return (reg + i, c.expr.vectorField i, none)
  | .subquery .. => return (base + i, c.expr.vectorField i, none)
  | _ =>
    let field := (c.fields[i]?).getD c.toCode
    let (reg, free) ← field.temp
    return (reg, field.expr, free)

/-- Compares the fields from `i` on, `n` of them, and stores the outcome. Fields before the last
decide by `strict`. -/
def storeFields (op strict : Opcode) (mode : CompareMode) (left right : Coded)
    (leftBase rightBase reg : Int) (done : Label) : (n i : Nat) → Gen Unit
  | 0, _ => return ()
  | n + 1, i => do
    let (r1, l, free1) ← rowField left i leftBase
    let (r2, r, free2) ← rowField right i rightBase
    emit (← comparison l r (if n = 0 then op else strict) r1 r2
      { mode with keepNull := mode.keepNull && i != 0 } reg)
    release free1
    release free2
    if n ≠ 0 then
      match strict with
      | .eq => emitJump (.of .ifFalse reg) done
      | .ne => emitJump (.of .ifTrue reg) done
      | _ => emitJump (.of .elseNotEq) done
      storeFields op strict mode left right leftBase rightBase reg done n (i + 1)

def storeRows (op : BinaryOp) (left right : Coded) (reg : Int) : Gen Unit := do
  let n := left.expr.vectorSize
  if n ≠ right.expr.vectorSize then throw .rowValueMisused
  let done ← label
  let strict : Opcode := match op.opcode with
    | .le => .lt
    | .ge => .gt
    | o => o
  let mode : CompareMode :=
    { store := true, nullEq := op.comparesNull, keepNull := strict == .eq || strict == .ne }
  let leftBase ← rowBase left
  let rightBase ← rowBase right
  storeFields op.opcode strict mode left right leftBase rightBase reg done n 0
  resolve done

end Gen

end ScalarSql
