import ScalarSql.Machine.Step

/-!
# Running a program

A program runs from its first instruction until it halts, leaves its instructions or has taken the
greatest number of steps.
-/

namespace ScalarSql

namespace Machine

def maxSteps : Nat := 10000000

def start (p : Program) (catalog : Catalog) (store : Store) (params : List Value) : Machine :=
  { catalog, store, params, registers := Array.replicate (p.registers.toNat + 1) .null }

/-- The address after an instruction; none once the program has halted. -/
def nextAddress (address : Nat) (i : Instr) : Flow → Option Nat
  | .next => some (address + 1)
  | .jump => some i.p2.toNat
  | .goto target => some target
  | .halt => none

/-- Runs instructions from an address on, `steps` of them at most. -/
def runFrom (ops : Array Instr) : (steps address : Nat) → Machine → Except RunError Unit × Machine
  | 0, address, m => (if address < ops.size then .error .noEnd else .ok (), m)
  | steps + 1, address, m =>
    match ops[address]? with
    | none => (.ok (), m)
    | some i =>
      match (i.step address).run m with
      | (.error e, m) => (.error e, m)
      | (.ok flow, m) =>
        match nextAddress address i flow with
        | none => (.ok (), m)
        | some next => runFrom ops steps next m

end Machine

/-- Runs a program: its outcome, and the machine it leaves. -/
def Program.run (p : Program) (catalog : Catalog) (store : Store) (params : List Value) :
    Except RunError Unit × Machine :=
  Machine.runFrom p.ops Machine.maxSteps 0 (Machine.start p catalog store params)

end ScalarSql
