/-!
# Opcodes

The operations of the register machine. Arithmetic computes `r[p3]` from `r[p1]` and `r[p2]`;
comparisons compare `r[p1]` with `r[p3]` and jump to `p2` or store their outcome there.
-/

namespace ScalarSql

inductive Opcode where
  /-- Starts the program: jumps to `p2`. -/
  | init
  | goto
  /-- Stops; with `p1` other than zero, with an error. -/
  | halt
  /-- Loads the integer `p1` into `r[p2]`. -/
  | integer
  /-- Loads a 64-bit integer into `r[p2]`. -/
  | int64
  /-- Loads a REAL into `r[p2]`. -/
  | real
  /-- Loads a text into `r[p2]`. -/
  | text
  /-- Loads a blob into `r[p2]`. -/
  | blob
  /-- Loads NULL into `r[p2]` to `r[p3]`. -/
  | null
  /-- Loads the bound parameter `p1` into `r[p2]`. -/
  | param
  /-- Copies `r[p1]` and the `p3` registers after it to `r[p2]` and those after it. -/
  | copy
  /-- Copies `r[p1]` to `r[p2]`. -/
  | copyOne
  | add
  | subtract
  | multiply
  | divide
  | remainder
  | bitAnd
  | bitOr
  | shiftLeft
  | shiftRight
  | concat
  | and
  | or
  /-- Three-valued NOT of `r[p1]` into `r[p2]`. -/
  | not
  /-- Bits of `r[p1]` not set, into `r[p2]`. -/
  | bitNot
  /-- The truth of `r[p1]` into `r[p2]`, where NULL counts as `p3`. -/
  | isTrue
  | eq
  | ne
  | lt
  | le
  | gt
  | ge
  /-- Jumps to `p2` unless the last comparison found its operands equal. -/
  | elseNotEq
  /-- Jumps to `p2` if `r[p1]` is true. -/
  | ifTrue
  /-- Jumps to `p2` if `r[p1]` is false. -/
  | ifFalse
  /-- Jumps to `p2` if `r[p1]` is NULL. -/
  | isNull
  /-- Jumps to `p2` if `r[p1]` is not NULL. -/
  | notNull
  /-- Adds `p2` to the integer in `r[p1]`. -/
  | addImm
  /-- Converts `r[p1]` to the affinity with the code `p2`. -/
  | cast
  /-- Applies affinities to `p2` registers from `r[p1]` on. -/
  | affinity
  /-- Turns an integer in `r[p1]` into a REAL. -/
  | realAffinity
  /-- Sets the collating sequence for the next call. -/
  | collSeq
  /-- Calls a function on `p5` registers from `r[p2]` on, with the result in `r[p3]`. -/
  | function
  /-- Falls through the first time and jumps to `p2` afterwards. -/
  | once
  /-- Stores its own address in `r[p1]` and jumps to `p2`. -/
  | gosub
  /-- Jumps behind the address in `r[p1]`. -/
  | ret
  /-- Opens cursor `p1` on a table or an index. -/
  | openRead
  /-- Opens cursor `p1` on a new ephemeral table. -/
  | openEphemeral
  /-- Opens cursor `p1` on the ephemeral table of cursor `p2`. -/
  | openDup
  /-- Makes a record of `p2` registers from `r[p1]` on, held by register `p3`. -/
  | makeRecord
  /-- Inserts the record of register `p2` into the ephemeral table of cursor `p1`. -/
  | idxInsert
  /-- Jumps to `p2` if the cursor `p1` has an entry that starts with the registers from `r[p3]` on. -/
  | found
  /-- Jumps to `p2` if it has none. -/
  | notFound
  /-- Moves cursor `p1` to the row with the rowid in `r[p3]`, and jumps to `p2` if there is none. -/
  | seekRowid
  /-- Loads column `p2` of the row under cursor `p1` into `r[p3]`. -/
  | column
  /-- Loads the rowid of the row under cursor `p1` into `r[p2]`. -/
  | rowid
  /-- Puts cursor `p1` on a row of NULLs. -/
  | nullRow
  /-- If cursor `p1` is on a row of NULLs, loads NULL into `r[p3]` and jumps to `p2`. -/
  | ifNullRow
  /-- Moves cursor `p1` to its first row, and jumps to `p2` if there is none. -/
  | rewind
  /-- Moves cursor `p1` to its next row and jumps to `p2` if there is one. -/
  | next
  /-- Delivers a row of `p2` registers from `r[p1]` on. -/
  | resultRow
  | noop
deriving DecidableEq, Repr, Inhabited

namespace Opcode

def all : List Opcode :=
  [.init, .goto, .halt, .integer, .int64, .real, .text, .blob, .null, .param, .copy, .copyOne, .add,
    .subtract, .multiply, .divide, .remainder, .bitAnd, .bitOr, .shiftLeft, .shiftRight, .concat,
    .and, .or, .not, .bitNot, .isTrue, .eq, .ne, .lt, .le, .gt, .ge, .elseNotEq, .ifTrue, .ifFalse,
    .isNull, .notNull, .addImm, .cast, .affinity, .realAffinity, .collSeq, .function, .once, .gosub,
    .ret, .openRead, .openEphemeral, .openDup, .makeRecord, .idxInsert, .found, .notFound,
    .seekRowid, .column, .rowid, .nullRow, .ifNullRow, .rewind, .next, .resultRow, .noop]

def name : Opcode → String
  | .init => "Init"
  | .goto => "Goto"
  | .halt => "Halt"
  | .integer => "Integer"
  | .int64 => "Int64"
  | .real => "Real"
  | .text => "String8"
  | .blob => "Blob"
  | .null => "Null"
  | .param => "Variable"
  | .copy => "Copy"
  | .copyOne => "SCopy"
  | .add => "Add"
  | .subtract => "Subtract"
  | .multiply => "Multiply"
  | .divide => "Divide"
  | .remainder => "Remainder"
  | .bitAnd => "BitAnd"
  | .bitOr => "BitOr"
  | .shiftLeft => "ShiftLeft"
  | .shiftRight => "ShiftRight"
  | .concat => "Concat"
  | .and => "And"
  | .or => "Or"
  | .not => "Not"
  | .bitNot => "BitNot"
  | .isTrue => "IsTrue"
  | .eq => "Eq"
  | .ne => "Ne"
  | .lt => "Lt"
  | .le => "Le"
  | .gt => "Gt"
  | .ge => "Ge"
  | .elseNotEq => "ElseNotEq"
  | .ifTrue => "If"
  | .ifFalse => "IfNot"
  | .isNull => "IsNull"
  | .notNull => "NotNull"
  | .addImm => "AddImm"
  | .cast => "Cast"
  | .affinity => "Affinity"
  | .realAffinity => "RealAffinity"
  | .collSeq => "CollSeq"
  | .function => "Function"
  | .once => "Once"
  | .gosub => "Gosub"
  | .ret => "Return"
  | .openRead => "OpenRead"
  | .openEphemeral => "OpenEphemeral"
  | .openDup => "OpenDup"
  | .makeRecord => "MakeRecord"
  | .idxInsert => "IdxInsert"
  | .found => "Found"
  | .notFound => "NotFound"
  | .seekRowid => "SeekRowid"
  | .column => "Column"
  | .rowid => "Rowid"
  | .nullRow => "NullRow"
  | .ifNullRow => "IfNullRow"
  | .rewind => "Rewind"
  | .next => "Next"
  | .resultRow => "ResultRow"
  | .noop => "Noop"

def ofName? (name : String) : Option Opcode := all.find? (·.name == name)

def isComparison : Opcode → Bool
  | .eq | .ne | .lt | .le | .gt | .ge => true
  | _ => false

/-- Whether `p2` is an address to jump to. -/
def jumps (o : Opcode) : Bool :=
  o.isComparison ||
    match o with
    | .init | .goto | .elseNotEq | .ifTrue | .ifFalse | .isNull | .notNull | .once | .gosub
    | .found | .notFound | .seekRowid | .ifNullRow | .rewind | .next => true
    | _ => false

/-- The comparison with the opposite outcome on operands other than NULL. -/
def negated? : Opcode → Option Opcode
  | .eq => some .ne
  | .ne => some .eq
  | .lt => some .ge
  | .le => some .gt
  | .gt => some .le
  | .ge => some .lt
  | _ => none

/-- Whether an order of two operands makes the comparison true; false for other opcodes. -/
def accepts : Opcode → Ordering → Bool
  | .eq, o => o == .eq
  | .ne, o => o != .eq
  | .lt, o => o == .lt
  | .le, o => o != .gt
  | .gt, o => o == .gt
  | .ge, o => o != .lt
  | _, _ => false

end Opcode

end ScalarSql
