/-!
# Powers of two and ten

The natural numbers by which binary and decimal numbers are scaled.
-/

namespace ScalarSql

def pow2 (k : Nat) : Nat := Nat.pow 2 k

def pow10 (k : Nat) : Nat := Nat.pow 10 k

end ScalarSql
