import ScalarSql.Program.Opcode
import ScalarSql.Function.Basic
import ScalarSql.Schema.Table

/-!
# Instructions

An instruction is an opcode with three numbers `p1`, `p2`, `p3`, a fourth operand of various types
and a number `p5` of 16 bits, which for comparisons holds a `CompareMode`.
-/

namespace ScalarSql

/-- The fourth operand of an instruction. -/
inductive Operand where
  | none
  | int (value : Int)
  | int64 (value : Int64)
  | real (value : Float)
  | text (value : String)
  | blob (value : List UInt8)
  | collation (value : Collation)
  | function (value : Function)
  /-- One affinity code for each register. -/
  | affinity (codes : String)
  /-- The collating sequences of the fields of a key. -/
  | keyInfo (collations : List Collation)
  | table (value : Table)
  | index (value : Index)
  | value (value : Value)

namespace Operand

/-- The operand that holds an optional thing. -/
def ofOption {α : Type} (f : α → Operand) : Option α → Operand
  | some a => f a
  | Option.none => .none

def display : Operand → String
  | .none => ""
  | .int v => Decimal.intText v
  | .int64 v => Decimal.intText v.toInt
  | .real v => Decimal.realText v
  | .text s => s
  | .blob b => "x'" ++ Text.hexBytes b ++ "'"
  | .collation c => "(" ++ c.name ++ ")"
  | .function f => f.name ++ "(" ++ Decimal.intText f.arity ++ ")"
  | .affinity codes => codes
  | .keyInfo cs =>
    "k(" ++ Decimal.intText cs.length ++ "," ++ ",".intercalate (cs.map (·.name)) ++ ")"
  | .table t => t.name
  | .index i => i.name
  | .value v => v.display

def typeName : Operand → String
  | .none => "None"
  | .int _ => "Int"
  | .int64 _ => "Int64"
  | .real _ => "Real"
  | .text _ => "Text"
  | .blob _ => "Blob"
  | .collation _ => "Collation"
  | .function _ => "Function"
  | .affinity _ => "Affinity"
  | .keyInfo _ => "KeyInfo"
  | .table _ => "Table"
  | .index _ => "Index"
  | .value _ => "Value"

end Operand

/-- How a comparison instruction works. -/
structure CompareMode where
  affinity : Affinity := .none
  /-- When storing, an outcome that agrees with the opcode is not stored. -/
  keepNull : Bool := false
  /-- A NULL operand takes the jump. -/
  jumpIfNull : Bool := false
  /-- The outcome is stored in `r[p2]` and no jump is made. -/
  store : Bool := false
  /-- NULL equals NULL, and differs from all else. -/
  nullEq : Bool := false
deriving DecidableEq, Repr, Inhabited

namespace CompareMode

def affinityOfBits : Nat → Affinity
  | 1 => .blob
  | 2 => .text
  | 3 => .numeric
  | 4 => .integer
  | 5 => .real
  | _ => .none

def affinityBits : Affinity → Nat
  | .none => 0
  | .blob => 1
  | .text => 2
  | .numeric => 3
  | .integer => 4
  | .real => 5

def ofBits (n : UInt16) : CompareMode :=
  { affinity := affinityOfBits (n.toNat % 8)
    keepNull := n.toNat.testBit 3
    jumpIfNull := n.toNat.testBit 4
    store := n.toNat.testBit 5
    nullEq := n.toNat.testBit 7 }

def toBits (m : CompareMode) : UInt16 :=
  UInt16.ofNat (affinityBits m.affinity + (if m.keepNull then 8 else 0) +
    (if m.jumpIfNull then 16 else 0) + (if m.store then 32 else 0) + (if m.nullEq then 128 else 0))

@[simp]
theorem ofBits_toBits (m : CompareMode) : ofBits m.toBits = m := by
  rcases m with ⟨a, _ | _, _ | _, _ | _, _ | _⟩ <;> cases a <;> rfl

end CompareMode

structure Instr where
  opcode : Opcode
  p1 : Int := 0
  p2 : Int := 0
  p3 : Int := 0
  p4 : Operand := .none
  p5 : UInt16 := 0

namespace Instr

def of (opcode : Opcode) (p1 : Int := 0) (p2 : Int := 0) (p3 : Int := 0) (p4 : Operand := .none)
    (p5 : UInt16 := 0) : Instr :=
  { opcode, p1, p2, p3, p4, p5 }

section

variable (opcode : Opcode) (p1 p2 p3 : Int) (p4 : Operand) (p5 : UInt16)

@[simp]
theorem of_opcode : (of opcode p1 p2 p3 p4 p5).opcode = opcode := rfl

@[simp]
theorem of_p1 : (of opcode p1 p2 p3 p4 p5).p1 = p1 := rfl

@[simp]
theorem of_p2 : (of opcode p1 p2 p3 p4 p5).p2 = p2 := rfl

@[simp]
theorem of_p3 : (of opcode p1 p2 p3 p4 p5).p3 = p3 := rfl

@[simp]
theorem of_p4 : (of opcode p1 p2 p3 p4 p5).p4 = p4 := rfl

@[simp]
theorem of_p5 : (of opcode p1 p2 p3 p4 p5).p5 = p5 := rfl

end

def mode (i : Instr) : CompareMode := .ofBits i.p5

end Instr

end ScalarSql
