import ScalarSql.Value.Compare

/-!
# Collating sequences

A collating sequence is a named order of texts, registered for a text encoding. A name that has no
sequence yet is put once to the factory, which may supply sequences to register.
-/

namespace ScalarSql

inductive TextEncoding where
  | utf8
  | utf16le
  | utf16be
deriving DecidableEq, Repr, Inhabited

namespace TextEncoding

/-- The encodings in the order in which they are tried for a wanted one. -/
def searchOrder : TextEncoding → List TextEncoding
  | .utf8 => [.utf8, .utf16le, .utf16be]
  | .utf16le => [.utf16le, .utf16be, .utf8]
  | .utf16be => [.utf16be, .utf16le, .utf8]

def name : TextEncoding → String
  | .utf8 => "Utf8"
  | .utf16le => "Utf16le"
  | .utf16be => "Utf16be"

def ofName? (name : String) : Option TextEncoding :=
  [TextEncoding.utf8, .utf16le, .utf16be].find? (·.name == name)

end TextEncoding

/-- A named order of texts. -/
structure Collation where
  name : String
  encoding : TextEncoding
  order : Text.Compare

namespace Collation

def isBinary (c : Collation) : Bool := Text.sameName c.name "BINARY"

/-- Whether two sequences have the same name and encoding. -/
def same (c d : Collation) : Bool := Text.sameName c.name d.name && c.encoding == d.encoding

end Collation

namespace Value

/-- The order of two values by an optional collating sequence; without one, text compares by code
points. -/
def compareBy (c : Option Collation) (a b : Value) : Ordering :=
  compareWith (c.elim Text.binary Collation.order) a b

end Value

structure Collations where
  /-- The registered sequences, at most one for each name and encoding. -/
  sequences : List Collation
  /-- Supplies sequences for a wanted name and encoding that has none. -/
  factory : Option (String → TextEncoding → List Collation)
  /-- How often the factory was asked. -/
  requests : Nat

namespace Collations

def register (cs : Collations) (c : Collation) : Collations :=
  { cs with sequences := c :: cs.sequences.filter fun d => !c.same d }

/-- BINARY, NOCASE and RTRIM for UTF-8, and no factory. -/
def builtin : Collations :=
  { sequences := [⟨"BINARY", .utf8, Text.binary⟩, ⟨"NOCASE", .utf8, Text.nocase⟩,
      ⟨"RTRIM", .utf8, Text.rtrim⟩]
    factory := none
    requests := 0 }

/-- The sequence of the given name, for the wanted encoding or else the next in its search order. -/
def get? (cs : Collations) (name : String) (encoding : TextEncoding) : Option Collation :=
  encoding.searchOrder.findSome? fun e =>
    cs.sequences.find? fun c => Text.sameName c.name name && c.encoding == e

/-- Finds a sequence by name; the factory is asked once if there is none. -/
def resolve (name : String) (encoding : TextEncoding) : StateM Collations (Option Collation) := do
  let cs ← get
  match cs.get? name encoding, cs.factory with
  | some c, _ => return some c
  | none, none => return none
  | none, some factory =>
    let asked := { cs with requests := cs.requests + 1 }
    let supplied := (factory name encoding).foldl register asked
    set supplied
    return supplied.get? name encoding

end Collations

end ScalarSql
