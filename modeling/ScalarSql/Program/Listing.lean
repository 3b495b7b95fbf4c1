import ScalarSql.Program.Builder

/-!
# Listings

A listing has one line for each instruction of a program, in columns.
-/

namespace ScalarSql

namespace Listing

def padded (width : Nat) (s : String) : String :=
  s ++ String.ofList (List.replicate (width - s.length) ' ')

/-- A number in at least two hexadecimal digits. -/
def hexPair (n : Nat) : String :=
  let digits := Nat.toDigits 16 n
  String.ofList (List.replicate (2 - digits.length) '0' ++ digits)

def line (address : Nat) (i : Instr) : String :=
  padded 4 (Decimal.intText address) ++ "  " ++ padded 13 i.opcode.name ++ "  " ++
    padded 4 (Decimal.intText i.p1) ++ "  " ++ padded 4 (Decimal.intText i.p2) ++ "  " ++
    padded 4 (Decimal.intText i.p3) ++ "  " ++ padded 13 i.p4.display ++ "  " ++
    hexPair i.p5.toNat ++ "\n"

def head : String :=
  "addr  opcode         p1    p2    p3    p4             p5\n" ++
    "----  -------------  ----  ----  ----  -------------  --\n"

def lines : Nat → List Instr → String
  | _, [] => ""
  | address, i :: rest => line address i ++ lines (address + 1) rest

end Listing

def Program.listing (p : Program) : String := Listing.head ++ Listing.lines 0 p.ops.toList

end ScalarSql
