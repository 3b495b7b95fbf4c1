import ScalarSql.Function.Basic

/-!
# Built-in functions
-/

namespace ScalarSql

namespace Builtin

def first (args : List Value) : Value := args.headD .null

/-- The size of a number without its sign. -/
def abs (args : List Value) : Except CallError Value :=
  match (first args).toNumeric with
  | .integer i =>
    if i.toInt = Binary64.int64Min then .error .integerOverflow
    else .ok (.integer (Int64.ofInt i.toInt.natAbs))
  | .real r => .ok (.real r.abs)
  | v => .ok v

def coalesce (args : List Value) : Value := (args.find? fun v => !v.isNull).getD .null

/-- The text of the first argument, its letters changed by `f`. -/
def mapText (f : String → String) (args : List Value) : Value :=
  ((first args).toText?.map fun s => Value.text (f s)).getD .null

/-- The number of bytes of a blob, else the number of characters of the text. -/
def length (args : List Value) : Value :=
  match first args with
  | .null => .null
  | .blob b => .integer (Int64.ofNat b.length)
  | v => .integer (Int64.ofNat (v.toText?.getD "").length)

def typeOf (args : List Value) : Value := .text (first args).storageClass.name

/-! ## Parts of a text -/

/-- The first position, counted from zero, and the number of characters wanted from there: a start
from one counts from the left, a negative start from the right, and positions before the text use
up characters. -/
def substrStart (len start count : Int64) : Int64 × Int64 :=
  if start < 0 then
    let s := start + len
    if s < 0 then (0, count + s) else (s, count)
  else if 0 < start then (start - 1, count)
  else (start, count - 1)

/-- A negative number of characters stands for those before the start. -/
def substrTurn (start count : Int64) : Int64 × Int64 :=
  if count < 0 then
    let s := start + count
    let c := -count
    if s < 0 then (0, c + s) else (s, c)
  else (start, count)

/-- A position brought into `0 .. len`. -/
def clampTo (len i : Int64) : Nat := (max 0 (min len.toInt i.toInt)).toNat

/-- The characters of a text from `start`, at most `count` of them. -/
def substrChars (cs : List Char) (start count : Int64) : List Char :=
  let len := Int64.ofNat cs.length
  let (s, c) := substrStart len start count
  let (s, c) := substrTurn s c
  (cs.take (clampTo len (s + c))).drop (clampTo len s)

/-- Part of the text of the first argument; without a count, all that follows the start. -/
def substr (args : List Value) : Value :=
  if args.any Value.isNull then .null
  else
    let cs := ((first args).toText?.getD "").toList
    let start := (args.getD 1 .null).asInteger
    let count := (args[2]?.map Value.asInteger).getD (Int64.ofNat cs.length + 1)
    .text (String.ofList (substrChars cs start count))

/-! ## Comparisons -/

/-- NULL if the two arguments are equal, else the first. -/
def nullIf (args : List Value) (c : Option Collation) : Value :=
  if Value.compareBy c (first args) (args.getD 1 .null) = .eq then .null else first args

/-- The argument that stands in the order `want` to those before it, starting from `best`; NULL if
one is NULL. -/
def extreme (want : Ordering) (c : Option Collation) : Option Value → List Value → Value
  | best, [] => best.getD .null
  | none, v :: vs => if v.isNull then .null else extreme want c (some v) vs
  | some best, v :: vs =>
    if v.isNull then .null
    else if Value.compareBy c v best = want then extreme want c (some v) vs
    else extreme want c (some best) vs

def min (args : List Value) (c : Option Collation) : Value := extreme .lt c none args

def max (args : List Value) (c : Option Collation) : Value := extreme .gt c none args

/-- A function of its arguments alone, always constant, with further flags. -/
def pure (name : String) (arity : Int) (body : List Value → Value) (flags : FunctionFlags := {}) :
    Function :=
  { name, arity, flags := { flags with constant := true }
    body := .scalar fun args _ => .ok (body args) }

/-- A constant function of its arguments and their collating sequence. -/
def collated (name : String) (arity : Int) (body : List Value → Option Collation → Value) :
    Function :=
  { name, arity, flags := { constant := true, needsCollation := true }
    body := .scalar fun args c => .ok (body args c) }

end Builtin

open Builtin in
def Functions.builtin : Functions :=
  ⟨[{ name := "abs", arity := 1, flags := { constant := true }, body := .scalar fun args _ => abs args },
    pure "coalesce" (-1) coalesce { coalesce := true },
    pure "ifnull" 2 coalesce { coalesce := true },
    pure "unlikely" 1 first { unlikely := true },
    pure "likely" 1 first { unlikely := true },
    pure "likelihood" 2 first { unlikely := true },
    pure "lower" 1 (mapText Text.lower),
    pure "upper" 1 (mapText Text.upper),
    pure "length" 1 length,
    pure "typeof" 1 typeOf,
    pure "substr" 2 substr,
    pure "substr" 3 substr,
    collated "nullif" 2 nullIf,
    collated "min" (-1) min,
    collated "max" (-1) max,
    { name := "random", arity := 0, flags := {}, body := .random },
    .ofAggregate "count" 0,
    .ofAggregate "count" 1,
    .ofAggregate "sum" 1,
    .ofAggregate "total" 1,
    .ofAggregate "avg" 1,
    .ofAggregate "min" 1,
    .ofAggregate "max" 1,
    .ofAggregate "group_concat" 1,
    .ofAggregate "group_concat" 2]⟩

end ScalarSql
