import ScalarSql.Machine.Cursor
import ScalarSql.Program.Builder
import ScalarSql.Program.Describe
import ScalarSql.Schema.Catalog

/-!
# The machine

The state of a running program: registers, records, cursors and the rows delivered so far. A
register that was never written holds NULL.
-/

namespace ScalarSql

/-- Why a program stops before its end. -/
inductive RunError where
  | invalidRegister (reg : Int)
  | cursorNotOpen (cursor : Int)
  /-- The fourth operand of the instruction at an address is not what the opcode needs. -/
  | badOperand (opcode : Opcode) (need : String) (address : Nat)
  /-- A letter that is no affinity code. -/
  | badAffinityCode (code : Char)
  /-- A number that is no affinity code. -/
  | badAffinityNumber (code : Int)
  | noRecord (reg : Int)
  /-- A cursor opened on the table of a cursor that is not ephemeral. -/
  | dupNotEphemeral
  /-- A record inserted into a table that only can be read. -/
  | insertReadOnly
  /-- A rowid looked up with a cursor on no table. -/
  | seekNotTable
  /-- An index without a table. -/
  | indexWithoutTable (index : String)
  /-- A cursor opened on neither a table nor an index. -/
  | notReadable (operand : Operand)
  | call (error : CallError)
  /-- The program stopped itself with a message. -/
  | raised (message : String)
  | noEnd

def RunError.message : RunError → String
  | .invalidRegister reg => "invalid register " ++ Decimal.intText reg
  | .cursorNotOpen cursor => "cursor " ++ Decimal.intText cursor ++ " is not open"
  | .badOperand opcode need address =>
    opcode.name ++ " without " ++ need ++ " at " ++ Decimal.intText address
  | .badAffinityCode code => "bad affinity code " ++ String.ofList [code]
  | .badAffinityNumber code => "bad affinity operand " ++ Decimal.intText code
  | .noRecord reg => "register " ++ Decimal.intText reg ++ " holds no record"
  | .dupNotEphemeral => "OpenDup of a non-ephemeral cursor"
  | .insertReadOnly => "IdxInsert into a read-only cursor"
  | .seekNotTable => "SeekRowid on a non-table cursor"
  | .indexWithoutTable index => "index " ++ index ++ " has no table"
  | .notReadable operand => "OpenRead needs a table or index, got " ++ operand.describe
  | .call error => error.message
  | .raised message => message
  | .noEnd => "program did not terminate"

/-- The state of a running program. -/
structure Machine where
  catalog : Catalog
  store : Store
  params : List Value := []
  registers : Array Value := #[]
  /-- The records that registers hold. -/
  records : List (Int × Key) := []
  cursors : List (Int × Cursor) := []
  ephemeral : Array (List Key) := #[]
  /-- The addresses that run once and have run. -/
  visited : List Nat := []
  lastCompare : Ordering := .eq
  /-- The collating sequence for the next call. -/
  pending : Option Collation := none
  rows : Array (List Value) := #[]
  /-- The calls of counted functions. -/
  calls : Nat := 0
  draws : Nat := 0

/-- A step of the machine; a failed one keeps what it did before it failed. -/
abbrev Exec := ExceptT RunError (StateM Machine)

namespace Machine

def register (m : Machine) (reg : Int) : Value :=
  if reg < 0 then .null else m.registers.getD reg.toNat .null

/-- The values of `n` registers from `reg` on. -/
def registersFrom (m : Machine) (reg : Int) : (n : Nat) → List Value
  | 0 => []
  | n + 1 => m.register reg :: m.registersFrom (reg + 1) n

/-- The registers with a new value at a place; the registers before it exist afterwards. -/
def place (registers : Array Value) (i : Nat) (v : Value) : Array Value :=
  if i < registers.size then registers.setIfInBounds i v
  else (registers ++ Array.replicate (i - registers.size) Value.null).push v

/-- The machine with a new value in the register numbered `i`. -/
def setRegister (m : Machine) (i : Nat) (v : Value) : Machine :=
  { m with registers := place m.registers i v }

def cursor? (m : Machine) (cursor : Int) : Option Cursor := m.cursors.lookup cursor

def setCursor (m : Machine) (number : Int) (c : Cursor) : Machine :=
  { m with cursors := (number, c) :: m.cursors.filter (·.1 != number) }

/-- The entries that a cursor reads, each as its fields. -/
def entries (m : Machine) (c : Cursor) : List Key :=
  match c.data with
  | .rows rows => rows.map (·.values)
  | .keys keys => keys
  | .ephemeral table => m.ephemeral.getD table []

/-- The field of the entry that a cursor stands on, if there is one. -/
def column? (m : Machine) (c : Cursor) (column : Int) : Option Value :=
  if c.nullRow then some .null
  else do Key.field? (← (m.entries c)[← c.position]?) column

/-- The random number of the given place in the sequence. -/
def randomNumber (draw : Nat) : Int64 := Int64.ofNat (0x9E3779B97F4A7C15 * (draw + 1))

end Machine

namespace Exec

def read (reg : Int) : Exec Value := do return (← get).register reg

def write (reg : Int) (v : Value) : Exec Unit :=
  if reg < 0 then throw (.invalidRegister reg) else modify (·.setRegister reg.toNat v)

def fill (v : Value) : (n : Nat) → (reg : Int) → Exec Unit
  | 0, _ => return ()
  | n + 1, reg => do
    write reg v
    fill v n (reg + 1)

def copy : (n : Nat) → (source target : Int) → Exec Unit
  | 0, _, _ => return ()
  | n + 1, source, target => do
    write target (← read source)
    copy n (source + 1) (target + 1)

/-- Applies one affinity to each register from `reg` on. -/
def applyAffinities : List Char → (reg : Int) → Exec Unit
  | [], _ => return ()
  | code :: codes, reg => do
    match Affinity.ofCode? code with
    | none => throw (.badAffinityCode code)
    | some a =>
      write reg ((← read reg).applyAffinity a)
      applyAffinities codes (reg + 1)

def cursor (number : Int) : Exec Cursor := do
  match (← get).cursor? number with
  | some c => return c
  | none => throw (.cursorNotOpen number)

end Exec

end ScalarSql
