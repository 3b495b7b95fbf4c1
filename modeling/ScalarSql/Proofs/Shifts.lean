import Mathlib.Algebra.Order.Floor.Ring
import Mathlib.Data.Rat.Floor
import ScalarSql.Proofs.Machine.Steps

/-!
# Shifts

A shift multiplies by a power of two, to the left by one with the distance as exponent and to the right by one with its
opposite, rounds down and keeps the low 64 bits (`Instr.shifts_exact`). This holds for every distance, also where the
words of the machine have no such shift and no such opposite.
-/

namespace ScalarSql

namespace Value

/-- `x · 2ⁿ`, rounded down and reduced to 64 bits. -/
def scaled (x : Int64) (n : ℤ) : Int64 := Int64.ofInt ⌊(x.toInt : ℚ) * 2 ^ n⌋

/-- The result of a shift of words, which takes distances from 0 to 63 only. -/
def shifted? (n result : Int64) : Option Int64 := if 0 ≤ n ∧ n < 64 then some result else none

/-- `shift` without a result where a word is shifted by a distance out of range, or the least integer negated. -/
def shift? (x n : Int64) : Option Int64 :=
  if 64 ≤ n then some 0
  else if 0 ≤ n then shifted? n (x <<< n)
  else if n ≤ -64 then some (if x < 0 then -1 else 0)
  else if n = Int64.minValue then none
  else shifted? (-n) (x >>> (-n))

variable {x n : Int64} {k : ℕ}

/-! ## Powers of two -/

theorem scaled_natCast : scaled x k = Int64.ofInt (x.toInt * 2 ^ k) := by
  rw [scaled, zpow_natCast]
  exact_mod_cast congrArg Int64.ofInt (Int.floor_intCast (R := ℚ) (x.toInt * 2 ^ k))

theorem scaled_neg : scaled x (-k) = Int64.ofInt (x.toInt / 2 ^ k) := by
  rw [scaled, zpow_neg, zpow_natCast, ← div_eq_mul_inv]
  exact_mod_cast congrArg Int64.ofInt (Rat.floor_intCast_div_natCast x.toInt (2 ^ k))

theorem scaled_of_le {n : ℤ} (h : 64 ≤ n) : scaled x n = 0 := by
  obtain ⟨k, rfl⟩ : ∃ k : ℕ, n = (k + 64 : ℕ) := ⟨(n - 64).toNat, by omega⟩
  rw [scaled_natCast, Int64.ofInt_eq_iff_bmod_eq_toInt]
  exact Int.bmod_eq_zero_of_dvd ⟨x.toInt * 2 ^ k, by push_cast; ring⟩

theorem scaled_of_le_neg {n : ℤ} (h : n ≤ -64) : scaled x n = if x < 0 then -1 else 0 := by
  obtain ⟨k, rfl⟩ : ∃ k : ℕ, n = -(k + 64 : ℕ) := ⟨(-n - 64).toNat, by omega⟩
  have hpow : (2 : ℤ) ^ 64 ≤ 2 ^ (k + 64) := pow_le_pow_right₀ (by decide) (by omega)
  have hsign : x < 0 ↔ x.toInt < 0 := Int64.lt_iff_toInt_lt
  have hlow := x.le_toInt
  have hhigh := x.toInt_lt
  rw [scaled_neg]
  by_cases hneg : x < 0
  · rw [if_pos hneg, Int.ediv_eq_neg_one_of_neg_of_le (hsign.1 hneg) (by omega)]
    rfl
  · rw [if_neg hneg, Int.ediv_eq_zero_of_lt (Int.not_lt.1 (mt hsign.2 hneg)) (by omega)]
    rfl

/-! ## Words -/

section

variable (h : 0 ≤ n.toInt) (h64 : n.toInt < 64)

include h h64

/-- The distance that a shift of words takes is the given one. -/
theorem toNat_smod : (n.toBitVec.smod 64).toNat = n.toInt.toNat := by
  have hsmod : (n.toBitVec.smod 64).toInt = n.toInt := by
    rw [BitVec.toInt_smod]
    exact Int.fmod_eq_of_lt h h64
  rw [← hsmod, BitVec.toInt_eq_toNat_cond]
  rw [BitVec.toInt_eq_toNat_cond] at hsmod
  omega

theorem shiftLeft_eq_scaled : x <<< n = scaled x n.toInt := by
  have hpow : (Int64.ofInt (2 ^ n.toInt.toNat)).toBitVec = BitVec.twoPow 64 n.toInt.toNat := by
    apply BitVec.eq_of_toNat_eq
    rw [Int64.toBitVec_ofInt, show (2 ^ n.toInt.toNat : ℤ) = (2 ^ n.toInt.toNat : ℕ) by norm_cast, BitVec.ofInt_natCast,
      BitVec.toNat_ofNat, BitVec.toNat_twoPow]
  rw [← Int.toNat_of_nonneg h, scaled_natCast, Int64.ofInt_mul, Int64.ofInt_toInt, ← Int64.toBitVec_inj]
  rw [Int64.toBitVec_shiftLeft, BitVec.shiftLeft_eq', toNat_smod h h64, BitVec.shiftLeft_eq_mul_twoPow,
    Int64.toBitVec_mul, hpow]

theorem shiftRight_eq_scaled : x >>> n = scaled x (-n.toInt) := by
  rw [← Int.toNat_of_nonneg h, scaled_neg, ← Int64.ofInt_toInt (x >>> n), ← Int64.toInt_toBitVec,
    Int64.toBitVec_shiftRight, BitVec.sshiftRight', toNat_smod h h64, BitVec.toInt_sshiftRight,
    Int.shiftRight_eq_div_pow]
  norm_cast

end

/-! ## Any distance -/

theorem toInt_neg_of_ne (h : n ≠ Int64.minValue) : (-n).toInt = -n.toInt := by
  have hne : n.toInt ≠ -2 ^ 63 := fun heq => h (Int64.toInt_inj.1 heq)
  have hlow := n.le_toInt
  have hhigh := n.toInt_lt
  rw [Int64.toInt_neg]
  exact Int.bmod_eq_of_le (by omega) (by omega)

/-- Every distance falls in one of the four ranges that the shift distinguishes. In the two where it shifts a word, the
word and its distance are in range. -/
theorem shift_eq_scaled (x n : Int64) : shift x n = scaled x n.toInt ∧ shift? x n = some (shift x n) := by
  have h64 : (64 : Int64) ≤ n ↔ 64 ≤ n.toInt := Int64.le_iff_toInt_le
  have h0 (n : Int64) : 0 ≤ n ↔ 0 ≤ n.toInt := Int64.le_iff_toInt_le
  have hlow : n ≤ -64 ↔ n.toInt ≤ -64 := Int64.le_iff_toInt_le
  have hlt (n : Int64) : n < 64 ↔ n.toInt < 64 := Int64.lt_iff_toInt_lt
  simp only [shift, shift?, shifted?, h64, h0, hlow, hlt]
  split
  case isTrue h => exact ⟨(scaled_of_le h).symm, rfl⟩
  split
  case isTrue h => exact ⟨shiftLeft_eq_scaled h (by omega), if_pos ⟨h, by omega⟩⟩
  split
  case isTrue h => exact ⟨(scaled_of_le_neg h).symm, rfl⟩
  case isFalse h =>
    have hne : n ≠ Int64.minValue := by
      rintro rfl
      exact h (by decide)
    have hneg := toInt_neg_of_ne hne
    rw [if_neg hne, shiftRight_eq_scaled (by omega) (by omega), if_pos ⟨by omega, by omega⟩, hneg, neg_neg]
    exact ⟨rfl, rfl⟩

/-- The opposite of the least integer is not exact, but either distance shifts all bits out. -/
theorem scaled_opposite (x n : Int64) : scaled x (opposite n).toInt = scaled x (-n.toInt) := by
  by_cases h : n = Int64.minValue
  · subst h
    rw [scaled_of_le (by decide), scaled_of_le (by decide)]
  · rw [opposite, if_neg h, toInt_neg_of_ne h]

end Value

namespace Instr

open Value

variable {m : Machine} {s t r : Int} {a : Nat} {x n : Int64}

/-- A left shift puts `x · 2ⁿ` into its register and a right shift `x · 2⁻ⁿ`, both rounded down and reduced to 64
bits, and no word is shifted out of range on the way. To the right by `n` places is to the left by `-n`, if `-n` has
64 bits. -/
theorem shifts_exact (hr : 0 ≤ r) (hx : m.register s = .integer x) (hn : m.register t = .integer n) :
    ((of .shiftLeft s t r).step a).outcome m = (.ok .next, m.setRegister r.toNat (.integer (scaled x n.toInt))) ∧
      ((of .shiftRight s t r).step a).outcome m = (.ok .next, m.setRegister r.toNat (.integer (scaled x (-n.toInt)))) ∧
      shift? x n = some (scaled x n.toInt) ∧ shift? x (opposite n) = some (scaled x (-n.toInt)) ∧
      ∀ k : Int64, k.toInt = -n.toInt → shiftRight (.integer x) (.integer n) = shiftLeft (.integer x) (.integer k) := by
  have hshift (n : Int64) : shift? x n = some (scaled x n.toInt) := (shift_eq_scaled x n).1 ▸ (shift_eq_scaled x n).2
  have hleft (n : Int64) : Value.shiftLeft (.integer x) (.integer n) = .integer (scaled x n.toInt) :=
    congrArg Value.integer (shift_eq_scaled x n).1
  have hright : Value.shiftRight (.integer x) (.integer n) = .integer (scaled x (-n.toInt)) :=
    scaled_opposite x n ▸ hleft (opposite n)
  have hstep (op : BinaryOp) (hop : op.isComparison = false) : ((of op.opcode s t r).step a).outcome m =
      (.ok .next, m.setRegister r.toNat (op.compute (.integer x) (.integer n))) := hx ▸ hn ▸ step_arithmetic hop hr
  refine ⟨hleft n ▸ hstep .shiftLeft rfl, hright ▸ hstep .shiftRight rfl, hshift n, ?_, fun k hk => ?_⟩
  · rw [hshift, scaled_opposite]
  · rw [hright, hleft, hk]

def holding (registers : Array Value) : Machine := { catalog := .empty, store := .empty, registers }

/-- The least distance has no opposite. To the right by it shifts all bits out to the left. -/
theorem shifts_exact_least : ((of .shiftRight 0 1 2).step 0).outcome
    (holding #[.integer (-5), .integer Int64.minValue]) =
    (.ok .next, holding #[.integer (-5), .integer Int64.minValue, .integer 0]) := by
  refine (shifts_exact (by decide) rfl rfl).2.1.trans ?_
  rw [scaled_of_le (by decide)]
  rfl

end Instr

end ScalarSql
