import ScalarSql.Machine.Basic
import ScalarSql.Value.Arithmetic

/-!
# Instructions at work

`step` carries out one instruction and says where the program goes on.
-/

namespace ScalarSql

/-- Where a program goes on after an instruction. -/
inductive Flow where
  | next
  /-- At the address in `p2`. -/
  | jump
  /-- At a computed address. -/
  | goto (address : Nat)
  | halt
deriving DecidableEq, Repr, Inhabited

def Flow.jumpIf (b : Bool) : Flow := if b then .jump else .next

namespace CompareMode

/-- An operand of a comparison, converted as the mode wants. -/
def convert (m : CompareMode) (v : Value) : Value :=
  if m.affinity.isNumeric then
    match v with
    | .text s => Value.applyAffinity .numeric (.text s)
    | v => v
  else if m.affinity = .text then Value.applyAffinity .text v
  else v

/-- The order of two operands; none if one is NULL and NULL is not compared. -/
def order? (m : CompareMode) (c : Option Collation) (left right : Value) : Option Ordering :=
  if left.isNull || right.isNull then
    if m.nullEq then some (if left.isNull && right.isNull then .eq else .lt) else none
  else some (Value.compareBy c (m.convert left) (m.convert right))

end CompareMode

namespace Instr

def collation? (i : Instr) : Option Collation :=
  match i.p4 with
  | .collation c => some c
  | _ => none

def compare (i : Instr) : Exec Flow := do
  let m ← get
  match i.mode.order? i.collation? (m.register i.p1) (m.register i.p3) with
  | none =>
    modify fun m => { m with lastCompare := .lt }
    if i.mode.store then
      Exec.write i.p2 .null
      return .next
    else return .jumpIf i.mode.jumpIfNull
  | some order =>
    modify fun m => { m with lastCompare := order }
    let outcome := i.opcode.accepts order
    if i.mode.store then
      if !(i.mode.keepNull && (i.opcode == .eq) == outcome) then
        Exec.write i.p2 (.ofBool outcome)
      return .next
    else return .jumpIf outcome

def binary (i : Instr) (f : Value → Value → Value) : Exec Flow := do
  Exec.write i.p3 (f (← Exec.read i.p1) (← Exec.read i.p2))
  return .next

def unary (i : Instr) (f : Value → Value) : Exec Flow := do
  Exec.write i.p2 (f (← Exec.read i.p1))
  return .next

/-- Whether a branch on the truth of a register is taken; NULL takes it if `p3` is not zero. -/
def branches (i : Instr) (wanted : Bool) (v : Value) : Bool :=
  match v.truth with
  | some b => b == wanted
  | none => i.p3 != 0

def call (i : Instr) (f : Function) : Exec Flow := do
  let m ← get
  let args := m.registersFrom i.p2 i.p5.toNat
  set { m with
    pending := none
    calls := m.calls + (if f.counted then 1 else 0)
    draws := m.draws + 1 }
  match f.invoke args m.pending (Machine.randomNumber m.draws) with
  | .ok v =>
    Exec.write i.p3 v
    return .next
  | .error e => throw (.call e)

/-- The keys of an index over the stored rows, with the collating sequences of its fields. -/
def openIndex (index : Index) : Exec Cursor := do
  match (← get).catalog.tableById? index.tableId with
  | none => throw (.indexWithoutTable index.name)
  | some table =>
    let collations ← index.keys.mapM fun k => do
      let m ← get
      let (found, catalog) := Catalog.collation k.collation m.catalog
      set { m with catalog }
      return found
    let rows := (← get).store.rows table.id
    return { data := .keys (Key.sort collations (rows.map (index.key table))), collations }

/-- The cursor that a read of the fourth operand opens. -/
def openRead (i : Instr) : Exec Cursor := do
  match i.p4 with
  | .table table => return { data := .rows ((← get).store.rows table.id) }
  | .index index => openIndex index
  | other => throw (.notReadable other)

def openEphemeral (i : Instr) : Exec Cursor := do
  let m ← get
  set { m with ephemeral := m.ephemeral.push [] }
  let collations := match i.p4 with
    | .keyInfo cs => cs.map some
    | _ => []
  return { data := .ephemeral m.ephemeral.size, collations }

/-- The cursor on the ephemeral table of another one. -/
def openDup (i : Instr) : Exec Cursor := do
  let c ← Exec.cursor i.p2
  match c.data with
  | .ephemeral table => return { data := .ephemeral table, collations := c.collations }
  | _ => throw .dupNotEphemeral

/-- The fields of a record, converted by the affinity codes that there are. -/
def recordOf : List Char → List Value → Key
  | _, [] => []
  | [], vs => vs
  | code :: codes, v :: vs =>
    ((Affinity.ofCode? code).elim v fun a => v.applyAffinity a) :: recordOf codes vs

def makeRecord (i : Instr) : Exec Flow := do
  let m ← get
  let codes := match i.p4 with
    | .affinity codes => codes.toList
    | _ => []
  let key := recordOf codes (m.registersFrom i.p1 i.p2.toNat)
  set { m with records := (i.p3, key) :: m.records.filter (·.1 != i.p3) }
  Exec.write i.p3 .null
  return .next

def insertRecord (i : Instr) : Exec Flow := do
  match (← get).records.lookup i.p2 with
  | none => throw (.noRecord i.p2)
  | some key =>
    let c ← Exec.cursor i.p1
    match c.data with
    | .ephemeral table =>
      modify fun m =>
        { m with ephemeral := m.ephemeral.modify table fun keys => Key.insert c.collations keys key }
      return .next
    | _ => throw .insertReadOnly

/-- Looks for an entry that starts with the probed registers and stands on it. A table has none. -/
def probe (i : Instr) (wanted : Bool) : Exec Flow := do
  let n := match i.p4 with
    | .int n => n.toNat
    | _ => 1
  let m ← get
  let key := m.registersFrom i.p3 n
  let c ← Exec.cursor i.p1
  let position := match c.data with
    | .rows _ => none
    | _ => Key.find? c.collations (m.entries c) key
  modify (·.setCursor i.p1 { c with position })
  return .jumpIf (position.isSome == wanted)

/-- Moves a cursor to the row of a rowid. -/
def seekRowid (i : Instr) : Exec Flow := do
  let wanted := (← Exec.read i.p3).applyAffinity .numeric
  let c ← Exec.cursor i.p1
  match c.data with
  | .rows rows =>
    let position := match wanted with
      | .integer k => rows.findIdx? (·.rowid == k)
      | _ => none
    modify (·.setCursor i.p1 { c with position, nullRow := false })
    return .jumpIf position.isNone
  | _ => throw .seekNotTable

/-- Loads a column; a missing one is its default. -/
def loadColumn (i : Instr) : Exec Flow := do
  let c ← Exec.cursor i.p1
  let default := match i.p4 with
    | .value v => v
    | _ => .null
  Exec.write i.p3 (((← get).column? c i.p2).getD default)
  return .next

def rewind (i : Instr) : Exec Flow := do
  let c ← Exec.cursor i.p1
  if ((← get).entries c).isEmpty then
    modify (·.setCursor i.p1 { c with position := none, nullRow := false })
    return .jump
  else
    modify (·.setCursor i.p1 { c with position := some 0, nullRow := false })
    return .next

def advance (i : Instr) : Exec Flow := do
  let c ← Exec.cursor i.p1
  let position := (c.position.map (· + 1)).getD 0
  if position < ((← get).entries c).length then
    modify (·.setCursor i.p1 { c with position := some position })
    return .jump
  else
    modify (·.setCursor i.p1 { c with position := none })
    return .next

def openCursor (i : Instr) (opened : Exec Cursor) : Exec Flow := do
  let c ← opened
  modify (·.setCursor i.p1 c)
  return .next

/-- Carries out an instruction at an address. -/
def step (address : Nat) (i : Instr) : Exec Flow := do
  match i.opcode with
  | .init => return .jump
  | .goto => return .jump
  | .halt =>
    if i.p1 = 0 then return .halt
    else
      match i.p4 with
      | .text message => throw (.raised message)
      | _ => throw (.raised "constraint failed")
  | .integer =>
    Exec.write i.p2 (.integer (Int64.ofInt i.p1))
    return .next
  | .int64 =>
    match i.p4 with
    | .int64 v =>
      Exec.write i.p2 (.integer v)
      return .next
    | _ => throw (.badOperand .int64 "an integer operand" address)
  | .real =>
    match i.p4 with
    | .real v =>
      Exec.write i.p2 (.ofFloat v)
      return .next
    | _ => throw (.badOperand .real "a real operand" address)
  | .text =>
    match i.p4 with
    | .text s =>
      Exec.write i.p2 (.text s)
      return .next
    | _ => throw (.badOperand .text "text" address)
  | .blob =>
    match i.p4 with
    | .blob b =>
      Exec.write i.p2 (.blob b)
      return .next
    | _ => throw (.badOperand .blob "bytes" address)
  | .null =>
    Exec.fill .null ((i.p3 - i.p2).toNat + 1) i.p2
    return .next
  | .param =>
    let params := (← get).params
    Exec.write i.p2 (if i.p1 < 1 then .null else (params[(i.p1 - 1).toNat]?).getD .null)
    return .next
  | .copy =>
    Exec.copy (i.p3.toNat + 1) i.p1 i.p2
    return .next
  | .copyOne => i.unary id
  | .add => i.binary Value.add
  | .subtract => i.binary Value.subtract
  | .multiply => i.binary Value.multiply
  | .divide => i.binary Value.divide
  | .remainder => i.binary Value.remainder
  | .bitAnd => i.binary Value.bitAnd
  | .bitOr => i.binary Value.bitOr
  | .shiftLeft => i.binary Value.shiftLeft
  | .shiftRight => i.binary Value.shiftRight
  | .concat => i.binary Value.concat
  | .and => i.binary Value.and
  | .or => i.binary Value.or
  | .not => i.unary Value.not
  | .bitNot => i.unary Value.bitNot
  | .isTrue =>
    let inverted := match i.p4 with
      | .int n => n == 1
      | _ => false
    i.unary fun v => .ofBool (v.truth.getD (i.p3 != 0) != inverted)
  | .eq => i.compare
  | .ne => i.compare
  | .lt => i.compare
  | .le => i.compare
  | .gt => i.compare
  | .ge => i.compare
  | .elseNotEq => return .jumpIf ((← get).lastCompare != .eq)
  | .ifTrue => return .jumpIf (i.branches true (← Exec.read i.p1))
  | .ifFalse => return .jumpIf (i.branches false (← Exec.read i.p1))
  | .isNull => return .jumpIf (← Exec.read i.p1).isNull
  | .notNull => return .jumpIf !(← Exec.read i.p1).isNull
  | .addImm =>
    Exec.write i.p1 (.integer ((← Exec.read i.p1).asInteger + Int64.ofInt i.p2))
    return .next
  | .cast =>
    match if 0 ≤ i.p2 ∧ i.p2 < 256 then Affinity.ofCode? (Char.ofNat i.p2.toNat) else none with
    | some a =>
      Exec.write i.p1 ((← Exec.read i.p1).cast a)
      return .next
    | none => throw (.badAffinityNumber i.p2)
  | .affinity =>
    match i.p4 with
    | .affinity codes =>
      Exec.applyAffinities (codes.toList.take i.p2.toNat) i.p1
      return .next
    | _ => throw (.badOperand .affinity "an affinity string" address)
  | .realAffinity =>
    match ← Exec.read i.p1 with
    | .integer n =>
      Exec.write i.p1 (.real (Binary64.nearest n.toInt))
      return .next
    | _ => return .next
  | .collSeq =>
    match i.p4 with
    | .collation c =>
      modify fun m => { m with pending := some c }
      return .next
    | _ => return .next
  | .function =>
    match i.p4 with
    | .function f => i.call f
    | _ => throw (.badOperand .function "a definition" address)
  | .once =>
    if (← get).visited.contains address then return .jump
    else
      modify fun m => { m with visited := address :: m.visited }
      return .next
  | .gosub =>
    Exec.write i.p1 (.integer (Int64.ofNat address))
    return .jump
  | .ret => return .goto ((← Exec.read i.p1).asInteger.toInt + 1).toNat
  | .openRead => i.openCursor i.openRead
  | .openEphemeral => i.openCursor i.openEphemeral
  | .openDup => i.openCursor i.openDup
  | .makeRecord => i.makeRecord
  | .idxInsert => i.insertRecord
  | .found => i.probe true
  | .notFound => i.probe false
  | .seekRowid => i.seekRowid
  | .column => i.loadColumn
  | .rowid =>
    let c ← Exec.cursor i.p1
    Exec.write i.p2 c.rowid
    return .next
  | .nullRow =>
    let c ← Exec.cursor i.p1
    modify (·.setCursor i.p1 { c with nullRow := true })
    return .next
  | .ifNullRow =>
    let c ← Exec.cursor i.p1
    if c.nullRow then
      Exec.write i.p3 .null
      return .jump
    else return .next
  | .rewind => i.rewind
  | .next => i.advance
  | .resultRow =>
    modify fun m => { m with rows := m.rows.push (m.registersFrom i.p1 i.p2.toNat) }
    return .next
  | .noop => return .next

end Instr

end ScalarSql
