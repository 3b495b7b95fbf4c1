import ScalarSql.Program.Instr
import ScalarSql.Text.Escaped

/-!
# Operands in messages

An error message names the type of an operand and shows what it holds.
-/

namespace ScalarSql

namespace Describe

/-- Sizes from which a number is shown with a power of ten. -/
def plainUpTo : Nat := pow10 16

/-- Whether `m * 2 ^ e` is shown with a power of ten: it is `10 ^ 16` or more, or below
`10 ^ (-4)`. -/
def needsPower (m : Nat) (e : Int) : Bool :=
  plainUpTo * pow2 (-e).toNat ≤ m * pow2 e.toNat || m * pow2 e.toNat * pow10 4 < pow2 (-e).toNat

/-- A decimal with one digit before the point and a power of ten. -/
def withPower (d : Decimal.Scaled) : List Char :=
  match Decimal.toDigits d.digits with
  | [] => []
  | first :: rest =>
    let power := d.exponent + rest.length
    (if rest.isEmpty then [first] else first :: '.' :: rest) ++
      'e' :: (Decimal.intText power).toList

/-- A finite double without its sign. -/
def magnitude (m : Nat) (e : Int) : List Char :=
  if m = 0 then ['0', '.', '0']
  else
    let d := Decimal.shortest m e
    if needsPower m e then withPower d
    else if 0 ≤ d.exponent then d.positional ++ ['.', '0']
    else d.positional

def real (x : Float) : String :=
  match Binary64.ofFloat x with
  | .nan => "NaN"
  | .infinite s => if s then "-inf" else "inf"
  | .finite s m e => String.ofList (if s then '-' :: magnitude m e else magnitude m e)

def bytes (b : List UInt8) : String :=
  "[" ++ ", ".intercalate (b.map fun x => Decimal.intText x.toNat) ++ "]"

def value : Value → String
  | .null => "Null"
  | .integer i => "Integer(" ++ Decimal.intText i.toInt ++ ")"
  | .real r => "Real(" ++ real r ++ ")"
  | .text s => "Text(" ++ Text.escaped s ++ ")"
  | .blob b => "Blob(" ++ bytes b ++ ")"

def collation (c : Collation) : String :=
  "CollSeq \x7b name: " ++ Text.escaped c.name ++ ", encoding: " ++ c.encoding.name ++ " \x7d"

def functionFlags (f : FunctionFlags) : String :=
  let names := [(f.constant, "CONSTANT"), (f.coalesce, "COALESCE"), (f.unlikely, "UNLIKELY"),
    (f.needsCollation, "NEEDCOLL"), (f.aggregate, "AGGREGATE")]
  let set := (names.filter (·.1)).map (·.2)
  "FuncFlags(" ++ (if set.isEmpty then "0x0" else " | ".intercalate set) ++ ")"

def function (f : Function) : String :=
  let body := match f.body with
    | .aggregate => "None"
    | _ => "Some"
  "FuncDef \x7b name: " ++ Text.escaped f.name ++ ", n_arg: " ++ Decimal.intText f.arity ++
    ", flags: " ++ functionFlags f.flags ++ ", body: " ++ body ++ " \x7d"

end Describe

def Operand.describe : Operand → String
  | .none => "None"
  | .int v => "Int(" ++ Decimal.intText v ++ ")"
  | .int64 v => "Int64(" ++ Decimal.intText v.toInt ++ ")"
  | .real v => "Real(" ++ Describe.real v ++ ")"
  | .text s => "Text(" ++ Text.escaped s ++ ")"
  | .blob b => "Blob(" ++ Describe.bytes b ++ ")"
  | .collation c => "Collation(" ++ Describe.collation c ++ ")"
  | .function f => "Function(" ++ Describe.function f ++ ")"
  | .affinity codes => "Affinity(" ++ Text.escaped codes ++ ")"
  | .keyInfo cs => "KeyInfo([" ++ ", ".intercalate (cs.map Describe.collation) ++ "])"
  | .table t => t.name
  | .index i => i.name
  | .value v => "Value(" ++ Describe.value v ++ ")"

end ScalarSql
