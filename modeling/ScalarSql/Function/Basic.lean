import ScalarSql.Collation

/-!
# Functions

A function has a name, a number of arguments and a body. Several functions may share a name if they
differ in the number of arguments.
-/

namespace ScalarSql

/-- What the compiler may assume of a function. -/
structure FunctionFlags where
  /-- The same arguments always give the same result. -/
  constant : Bool := false
  /-- The call is expanded into tests for NULL. -/
  coalesce : Bool := false
  /-- The call is compiled as its first argument. -/
  unlikely : Bool := false
  /-- The body is handed the collating sequence of its arguments. -/
  needsCollation : Bool := false
  /-- The function aggregates rows and has no value for a single one. -/
  aggregate : Bool := false
deriving DecidableEq, Repr, Inhabited

namespace FunctionFlags

def toNat (f : FunctionFlags) : Nat :=
  (if f.constant then 1 else 0) + (if f.coalesce then 2 else 0) + (if f.unlikely then 4 else 0) +
    (if f.needsCollation then 8 else 0) + (if f.aggregate then 16 else 0)

def ofNat (n : Nat) : FunctionFlags :=
  { constant := n.testBit 0, coalesce := n.testBit 1, unlikely := n.testBit 2
    needsCollation := n.testBit 3, aggregate := n.testBit 4 }

@[simp]
theorem ofNat_toNat (f : FunctionFlags) : ofNat f.toNat = f := by
  rcases f with ⟨_ | _, _ | _, _ | _, _ | _, _ | _⟩ <;> rfl

end FunctionFlags

/-- Why a call has no value. -/
inductive CallError where
  | integerOverflow
  | aggregateMisuse (name : String)
  /-- The function gave up with a message of its own. -/
  | failed (message : String)
deriving DecidableEq, Repr, Inhabited

def CallError.message : CallError → String
  | .integerOverflow => "integer overflow"
  | .aggregateMisuse name => "misuse of aggregate function " ++ name ++ "()"
  | .failed message => message

/-- How a function computes its value. -/
inductive FunctionBody where
  /-- From its arguments and the collating sequence it is handed. -/
  | scalar (f : List Value → Option Collation → Except CallError Value)
  /-- By the next draw of the machine's random source. -/
  | random
  | aggregate

structure Function where
  name : String
  /-- The number of arguments; a negative number stands for any number. -/
  arity : Int
  flags : FunctionFlags
  body : FunctionBody
  counted : Bool := false

namespace Function

def ofAggregate (name : String) (arity : Int) : Function :=
  { name, arity, flags := { constant := true, aggregate := true }, body := .aggregate }

/-- The value of a call, where `draw` is the next number of the random source. -/
def invoke (f : Function) (args : List Value) (collation : Option Collation) (draw : Int64) :
    Except CallError Value :=
  match f.body with
  | .scalar g => g args collation
  | .random => .ok (.integer draw)
  | .aggregate => .error (.aggregateMisuse f.name)

end Function

/-- The known functions, in the order of their registration. -/
structure Functions where
  /-- The functions; no two share both name and arity. -/
  entries : List Function

namespace Functions

def named (fs : Functions) (name : String) : List Function :=
  fs.entries.filter fun f => Text.sameName f.name name

def register (fs : Functions) (f : Function) : Functions :=
  ⟨fs.entries.filter (fun g => !(Text.sameName g.name f.name && g.arity == f.arity)) ++ [f]⟩

/-- The function for a call with `n` arguments: one of exactly that arity, else one that takes any
number. -/
def find? (fs : Functions) (name : String) (n : Nat) : Option Function :=
  ((fs.named name).find? fun f => f.arity == (n : Int)).or
    ((fs.named name).find? fun f => f.arity < 0)

def contains (fs : Functions) (name : String) : Bool := !(fs.named name).isEmpty

end Functions

end ScalarSql
