import ScalarSql.Code.SubSelect

/-!
# Membership

The outcome of `x IN y` is true if `x` equals a member of `y`. It is unknown if it is not true and a
NULL in `x` or in a member stands in the way of a definite answer, and false otherwise. The members
are compared one by one, or looked up in a table, an index or an ephemeral table.
-/

namespace ScalarSql

inductive RightSide where
  | list (items : List (Item Code))
  | select (select : Select) (arms : List ArmCode)

namespace RightSide

def notNull : RightSide → Bool
  | .list items => items.all fun item => !item.expr.expr.canBeNull
  | .select s _ => s.columns.all fun item => !item.expr.canBeNull

/-- Whether the members can be compared one by one: a list that is not constant, or a short one. -/
def isChainable (limit : Nat) : RightSide → Bool
  | .list items =>
    !(items.all fun item => item.expr.expr.isConstant .plain) || items.length ≤ limit
  | .select .. => false

end RightSide

namespace Gen

/-! ## Tables and indexes as right sides -/

/-- The column that a result column reads, if it reads one of the table on the cursor. -/
def plainColumn? (cursor : Int) (e : Expr) : Option Int :=
  match e.kind with
  | .column ref => if ref.cursor = cursor ∧ ref.fixed.isNone then some ref.column else none
  | _ => none

/-- The table and the columns that a sub-select delivers unchanged, if it does. -/
def wholeTable? (e : Expr) (s : Select) : Option (Table × List Int) :=
  let p := s.parts
  if e.flags.correlated || p.prior.isSome || p.flags.distinct || p.flags.aggregate ||
      p.groupBy.isSome || p.limit.isSome || p.filter.isSome then none
  else
    match p.sources with
    | [source] =>
      (p.columns.mapM fun item => plainColumn? source.cursor item.expr).map fun columns =>
        (source.table, columns)
    | _ => none

def sameColumn (t : Table) (a b : Int) : Bool := a == b || (t.isRowid a && t.isRowid b)

/-- The key fields to compare the fields of the left side from `i` on with, if each has one of its
own with the wanted collating sequence. -/
def keyMap (left : Expr) (t : Table) (keys : List (Int × String)) :
    (i : Nat) → List Int → (used : List Nat) → Gen (Option (List Nat))
  | _, [], _ => return some []
  | i, column :: columns, used => do
    let right := Expr.ofKind (.column
      { cursor := 0, column, table := some t, fixed := none })
    let wanted ← lookup ((left.vectorField i).compareCollation right)
    match keys.findIdx? fun key =>
        sameColumn t key.1 column && wanted.all fun c => Text.sameName c.name key.2 with
    | none => return none
    | some j =>
      if used.contains j then return none
      else return (← keyMap left t keys (i + 1) columns (j :: used)).map (j :: ·)

/-- The key fields of an index to compare the fields of the left side with, if the index serves. The
rowid follows the declared key. -/
def indexMap? (left : Expr) (t : Table) (columns : List Int) (index : Index) (use : ProbeUse) :
    Gen (Option (List Nat)) := do
  let n := columns.length
  let keys := index.keys.map (fun k => (k.column, k.collation)) ++ [(rowidColumn, "BINARY")]
  if keys.length < n || index.partialOn.isSome then return none
  else if use.loop &&
      (n < index.keys.length || (n < keys.length && !index.unique)) then return none
  else keyMap left t (keys.take n) 0 columns []

/-- Whether looking up the left side in the columns applies the affinity that comparing would. -/
def affinityFits (left : Expr) (t : Table) : (i : Nat) → List Int → Bool
  | _, [] => true
  | i, column :: columns =>
    let affinity := t.columnAffinity column
    (match (left.vectorField i).compareAffinity affinity with
      | .blob | .none | .text => true
      | _ => affinity.isNumeric) && affinityFits left t (i + 1) columns

/-- Sets a register to the first field of the first key, which is NULL if a key is, or to zero if
there is no key. -/
def loadHasNull (cursor reg : Int) : Gen Unit := do
  emit (.of .integer 0 reg)
  let address ← emitAt (.of .rewind cursor)
  emit (.of .column cursor 0 reg)
  jumpHere address

def planIndex (left : Expr) (t : Table) (columns : List Int) (cursor : Int) (use : ProbeUse)
    (wantNull : Bool) : List Index → Gen (Option Plan)
  | [] => return none
  | index :: rest => do
    match ← indexMap? left t columns index use with
    | none => planIndex left t columns cursor use wantNull rest
    | some map =>
      let once ← emitAt (.of .once)
      emit (.of .openRead cursor 0 0 (.index index))
      let notNull := map.all fun j => ((index.keys[j]?).map (·.notNull)).getD true
      let hasNull ←
        if wantNull && !notNull then
          let reg ← allocReg
          if columns.length = 1 then loadHasNull cursor reg
          pure (some reg)
        else pure none
      jumpHere once
      return some { strategy := .index, cursor, hasNull, notNull, map }

/-- Plans to look the left side up in a table or one of its indexes. -/
def planTable (left : Expr) (t : Table) (columns : List Int) (cursor : Int) (use : ProbeUse)
    (wantNull : Bool) : Gen (Option Plan) := do
  let single := match columns with
    | [column] => t.isRowid column
    | _ => false
  if single then
    let once ← emitAt (.of .once)
    emit (.of .openRead cursor 0 0 (.table t))
    jumpHere once
    return some { strategy := .rowid, cursor, hasNull := none, notNull := true, map := [0] }
  else if affinityFits left t 0 columns then
    planIndex left t columns cursor use wantNull t.indexes
  else return none

/-! ## Ephemeral tables as right sides -/

/-- The collating sequences of the fields of keys from a sub-select, `n` of them from `i` on. -/
def keyCollations (left : Expr) (columns : List (Item Expr)) : (n i : Nat) → Gen (List Collation)
  | 0, _ => return []
  | n + 1, i => do
    let c ← match columns[i]? with
      | some item => lookup ((left.vectorField i).compareCollation item.expr)
      | none => pure none
    let c ← orBinary c
    return c :: (← keyCollations left columns n (i + 1))

/-- Inserts the items of a list as keys. An item that is not constant must be computed each time, so
`once`, the address of the instruction that makes the routine run once, is removed. -/
def insertItems (cursor value record : Int) (affinity : String) :
    (once : Option Int) → List (Item Code) → Gen (Option Int)
  | once, [] => return once
  | once, item :: rest => do
    let keep ← match once with
      | some address =>
        if item.expr.expr.isConstant .plain then pure once
        else
          modifyAt address fun _ => .of .noop
          pure none
      | none => pure none
    let reg ← item.expr.target value
    emit (.of .makeRecord reg 1 record (.affinity affinity))
    emit (.of .idxInsert cursor record)
    insertItems cursor value record affinity keep rest

/-- Fills the ephemeral table; returns the address in `once` unless the table must be filled each
time. -/
def fillTable (e left : Expr) (right : RightSide) (cursor : Int) (once : Option Int) :
    Gen (Option Int) := do
  let n := left.vectorSize
  match right with
  | .select select arms =>
    let collations ← keyCollations left select.columns n 0
    emit (.of .openEphemeral cursor n 0 (.keyInfo collations))
    requireSelects
    runSelect arms (.keys cursor e.membershipAffinity)
    return once
  | .list items =>
    let affinity := if left.affinity = .none then .blob else left.affinity
    let collation ← orBinary (← lookup left.collation)
    emit (.of .openEphemeral cursor n 0 (.keyInfo [collation]))
    let value ← getTemp
    let record ← getTemp
    let once ← insertItems cursor value record (Affinity.codes [affinity]) once items
    releaseTemp value
    releaseTemp record
    return once

/-- Makes an ephemeral table of the right side. A right side that depends on no row is made once,
and later uses of the node share it. -/
def fillRight (e : Expr) (node : Identity) (left : Expr) (right : RightSide) (cursor : Int) :
    Gen Unit := do
  let c ← get
  let shares := !e.flags.correlated && c.ownRow.isNone
  match if shares then c.routines.lookup node else none with
  | some r =>
    let once ← emitAt (.of .once)
    emit (.of .gosub r.ret r.entry)
    emit (.of .openDup cursor r.result)
    jumpHere once
  | none =>
    if shares then
      let r ← openRoutine
      match ← fillTable e left right cursor (some r.entry) with
      | some _ => closeRoutine r node cursor
      | none => return ()
    else discard (fillTable e left right cursor none)

/-! ## The plan -/

def planRight (e : Expr) (node : Identity) (left : Expr) (right : RightSide) (use : ProbeUse)
    (wantNull : Bool) : Gen Plan := do
  let cursor ← allocCursor
  let notNull := right.notNull
  let wantNull := wantNull && !notNull
  let found ← match right with
    | .select select _ =>
      match wholeTable? e select with
      | some (t, columns) => planTable left t columns cursor use wantNull
      | none => pure none
    | .list _ => pure none
  match found with
  | some plan => return plan
  | none =>
    let map := List.range left.vectorSize
    if use.chain && right.isChainable (← get).config.chainedItems then
      return { strategy := .chain, cursor, hasNull := none, notNull, map }
    else
      let hasNull ← if wantNull && !use.loop then some <$> allocReg else pure none
      fillRight e node left right cursor
      match hasNull with
      | some reg => loadHasNull cursor reg
      | none => pure ()
      return { strategy := .ephemeral, cursor, hasNull, notNull, map }

/-! ## The test -/

/-- Compares the left side with each item in turn; the last comparison jumps to `ifFalse` itself if
NULL needs no place of its own. `nullSeen` is a register that becomes NULL with a NULL item. -/
def compareItems (left : Int) (collation : Operand) (affinity : Affinity) (nullSeen : Option Int)
    (matched ifFalse : Label) : List (Item Code) → Gen Unit
  | [] => return ()
  | item :: rest => do
    let (reg, free) ← item.expr.temp
    match nullSeen with
    | some seen => if item.expr.expr.canBeNull then emit (.of .bitAnd seen reg seen)
    | none => pure ()
    if !rest.isEmpty || nullSeen.isSome then
      let mode : CompareMode := { affinity }
      emitJump (.of .eq left 0 reg collation mode.toBits) matched
    else
      let mode : CompareMode := { affinity, jumpIfNull := true }
      emitJump (.of .ne left 0 reg collation mode.toBits) ifFalse
    release free
    compareItems left collation affinity nullSeen matched ifFalse rest

def testChain (operand : Expr) (items : List (Item Code)) (left : Int) (codes : String)
    (ifFalse ifNull : Label) : Gen Unit := do
  let collation := Operand.ofOption .collation (← lookup operand.collation)
  let affinity := (codes.toList.head?.bind Affinity.ofCode?).getD .blob
  let matched ← label
  let nullSeen ←
    if ifFalse = ifNull then pure none
    else
      let reg ← getTemp
      emit (.of .bitAnd left left reg)
      pure (some reg)
  compareItems left collation affinity nullSeen matched ifFalse items
  match nullSeen with
  | some reg =>
    emitJump (.of .isNull reg) ifNull
    goto ifFalse
    releaseTemp reg
  | none => pure ()
  resolve matched

def jumpNullFields (operand : Expr) (left : Int) (dest : Label) : (i : Nat) → List Nat → Gen Unit
  | _, [] => return ()
  | i, j :: map => do
    if (operand.vectorField i).canBeNull then emitJump (.of .isNull (left + j)) dest
    jumpNullFields operand left dest (i + 1) map

/-- Jumps if the entry under the cursor differs for certain from the left side in one of `n` fields
from `j` on. -/
def jumpDifferent (operand : Expr) (plan : Plan) (left : Int) (dest : Label) :
    (n j : Nat) → Gen Unit
  | 0, _ => return ()
  | n + 1, j => do
    let field := (plan.map.findIdx? (· == j)).getD j
    let collation ← lookup (operand.vectorField field).collation
    let reg ← getTemp
    emit (.of .column plan.cursor j reg)
    emitJump (.of .ne (left + j) 0 reg (Operand.ofOption .collation collation)) dest
    releaseTemp reg
    jumpDifferent operand plan left dest n (j + 1)

/-- Searches the entries for one that does not differ for certain from the left side: then the
outcome is unknown. -/
def testUnknown (operand : Expr) (plan : Plan) (left : Int) (ifFalse ifNull : Label) : Gen Unit := do
  let n := operand.vectorSize
  let top ← here
  emitJump (.of .rewind plan.cursor) ifFalse
  if 1 < n then
    let different ← label
    jumpDifferent operand plan left different n 0
    goto ifNull
    resolve different
    emit (.of .next plan.cursor (top + 1))
    goto ifFalse
  else
    jumpDifferent operand plan left ifFalse n 0
    goto ifNull

/-- What follows a look-up that found nothing, if NULL has a place of its own: the outcome is false
if there is no NULL, else the entries are searched. -/
def testNotFound (operand : Expr) (plan : Plan) (left : Int) (distinct : Bool)
    (scan ifFalse ifNull : Label) : Gen Unit := do
  match plan.hasNull with
  | some reg => if operand.vectorSize = 1 then emitJump (.of .notNull reg) ifFalse
  | none => pure ()
  if !distinct || plan.notNull then goto ifFalse
  resolve scan
  testUnknown operand plan left ifFalse ifNull

def testLookup (operand : Expr) (plan : Plan) (left : Int) (codes : String)
    (ifFalse ifNull : Label) : Gen Unit := do
  let n : Int := operand.vectorSize
  let distinct := ifFalse ≠ ifNull
  let scan ← label
  jumpNullFields operand left (if distinct then scan else ifFalse) 0 plan.map
  if plan.strategy = .rowid then
    emitJump (.of .seekRowid plan.cursor 0 left) ifFalse
    let found ← emitAt (.of .goto)
    testNotFound operand plan left distinct scan ifFalse ifNull
    jumpHere found
  else
    emit (.of .affinity left n 0 (.affinity codes))
    if distinct then
      let found ← emitAt (.of .found plan.cursor 0 left (.int n))
      testNotFound operand plan left distinct scan ifFalse ifNull
      jumpHere found
    else
      emitJump (.of .notFound plan.cursor 0 left (.int n)) ifFalse
      resolve scan

/-- Refuses sides of different widths. -/
def checkWidths (operand : Expr) : RightSide → Gen Unit
  | .select select _ =>
    if select.width ≠ operand.vectorSize then
      throw (.subselectColumns select.width operand.vectorSize)
    else return ()
  | .list _ =>
    if operand.vectorSize ≠ 1 then
      match operand.kind with
      | .subquery .. => throw (.subselectColumns operand.vectorSize 1)
      | _ => throw .rowValueMisused
    else return ()

/-- Copies the fields of the left side, from field `i` on, to the places of their key fields. -/
def permute (source target : Int) : (i : Nat) → List Nat → Gen Unit
  | _, [] => return ()
  | i, j :: map => do
    emit (.of .copy (source + i) (target + j) 0)
    permute source target (i + 1) map

/-- The affinity codes in the order of the key fields. -/
def permutedCodes (codes : List Char) : (i : Nat) → List Nat → List Char → List Char
  | _, [], out => out
  | i, j :: map, out => permutedCodes codes (i + 1) map (out.set j ((codes[i]?).getD 'A'))

/-- The test itself, once the left side is in registers. -/
def testPlanned (operand : Expr) (right : RightSide) (plan : Plan) (left : Int) (codes : String)
    (ifFalse ifNull : Label) : Gen Unit :=
  match plan.strategy, right with
  | .chain, .list items => testChain operand items left codes ifFalse ifNull
  | .chain, .select .. => throw (.internal "comparison chain for a sub-select")
  | _, _ => testLookup operand plan left codes ifFalse ifNull

/-- Tests for membership: goes on if the outcome is true, jumps to `ifFalse` if it is false and to
`ifNull` if it is unknown. -/
def member (e : Expr) (node : Identity) (operand : Coded) (right : RightSide)
    (ifFalse ifNull : Label) : Gen Unit := do
  checkWidths operand.expr right
  let isEmpty := match right with
    | .list items => items.isEmpty
    | .select .. => false
  if isEmpty then goto ifFalse
  else
    let n := operand.expr.vectorSize
    let plan ← planRight e node operand.expr right { chain := true } (ifFalse ≠ ifNull)
    let codes := e.membershipAffinity
    let (left, free) ← operand.row
    if plan.map = List.range plan.map.length then
      testPlanned operand.expr right plan left codes ifFalse ifNull
    else
      let ordered ← getTempRange n
      permute left ordered 0 plan.map
      let codes := permutedCodes codes.toList 0 plan.map (List.replicate n 'A')
      testPlanned operand.expr right plan ordered (String.ofList codes) ifFalse ifNull
      if ordered ≠ left then releaseTempRange ordered n
    release free

end Gen

namespace Coded

def membership (e : Expr) (node : Identity) (operand : Coded) (right : RightSide) : Coded :=
  let test := Gen.member e node operand right
  let code := Code.of e fun reg => do
    let ifFalse ← Gen.label
    let ifNull ← Gen.label
    Gen.emit (.of .null 0 reg)
    test ifFalse ifNull
    Gen.emit (.of .integer 1 reg)
    Gen.resolve ifFalse
    Gen.emit (.of .addImm reg 0)
    Gen.resolve ifNull
    return reg
  let jump (wanted : Bool) (dest : Label) (jumpIfNull : Bool) : Gen Unit := do
    if wanted then
      let ifFalse ← Gen.label
      test ifFalse (if jumpIfNull then dest else ifFalse)
      Gen.goto dest
      Gen.resolve ifFalse
    else if jumpIfNull then test dest dest
    else
      let ifNull ← Gen.label
      test dest ifNull
      Gen.resolve ifNull
  { ofJump code jump with
    fillRight := Gen.fillRight e node operand.expr right
    plan := Gen.planRight e node operand.expr right
    member := test }

end Coded

end ScalarSql
