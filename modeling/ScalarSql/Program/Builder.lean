import ScalarSql.Error
import ScalarSql.Program.Instr

/-!
# Programs under construction

A builder appends instructions. A jump may name a label that has no address yet; it is patched when
the label gets one. A program is complete once no jump waits.

Addresses and registers are numbers of 32 bits. Here they are not bounded, so what is said of a program is
meant for fewer than 2 ^ 31 instructions and registers.
-/

namespace ScalarSql

/-- A place in a program that may not have an address yet. -/
structure Label where
  index : Nat
deriving DecidableEq, Repr, Inhabited

/-- A complete program. -/
structure Program where
  ops : Array Instr
  registers : Int
  cursors : Int

/-- A program under construction. -/
structure Builder where
  ops : Array Instr := #[]
  /-- The address of each label, once it has one. -/
  labels : Array (Option Int) := #[]
  /-- The jumps that wait for a label, in the order of their addresses. -/
  fixups : List (Nat × Label) := []

namespace Builder

def here (b : Builder) : Int := b.ops.size

def emit (b : Builder) (i : Instr) : Builder := { b with ops := b.ops.push i }

def label (b : Builder) : Label × Builder :=
  (⟨b.labels.size⟩, { b with labels := b.labels.push none })

def address? (b : Builder) (l : Label) : Option Int := b.labels[l.index]?.join

/-- Appends an instruction whose `p2` is the address of a label; it waits if there is none. -/
def emitJump (b : Builder) (i : Instr) (l : Label) : Builder :=
  match b.address? l with
  | some a => b.emit { i with p2 := a }
  | none => { b.emit { i with p2 := -1 } with fixups := b.fixups ++ [(b.ops.size, l)] }

def modifyAt (b : Builder) (address : Int) (f : Instr → Instr) : Builder :=
  if 0 ≤ address then { b with ops := b.ops.modify address.toNat f } else b

/-- Sends the jump at an address to the next instruction. -/
def jumpHere (b : Builder) (address : Int) : Builder :=
  b.modifyAt address fun i => { i with p2 := b.here }

/-- Gives a label the next address and patches the jumps that wait for it. -/
def resolve (b : Builder) (l : Label) : Builder :=
  let (waiting, fixups) := b.fixups.partition (·.2 == l)
  { ops := waiting.foldl (fun ops w => ops.modify w.1 fun i => { i with p2 := b.here }) b.ops
    labels := b.labels.modify l.index fun _ => some b.here
    fixups }

def isResolved (b : Builder) (l : Label) : Bool := (b.address? l).isSome

def op? (b : Builder) (address : Int) : Option Instr :=
  if 0 ≤ address then b.ops[address.toNat]? else none

def last? (b : Builder) : Option Instr := b.ops.back?

/-- The complete program; an error if a jump still waits. -/
def build (b : Builder) (registers cursors : Int) : Except CompileError Program :=
  match b.fixups with
  | (address, l) :: _ =>
    .error (.internal ("unresolved label Label(" ++ Decimal.intText l.index ++ ") at address " ++
      Decimal.intText address))
  | [] => .ok { ops := b.ops, registers, cursors }

end Builder

end ScalarSql
