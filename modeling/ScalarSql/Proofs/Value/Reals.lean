import Mathlib
import ScalarSql.Binary64

/-!
# Zeros among doubles

A REAL is true unless it is a zero, and an operation that gives not-a-number gives NULL. So the truth of an
arithmetic expression comes down to which doubles are zeros and which are no numbers. `Stands` relates the
parts that a double is packed from to what it stands for; what a product, a quotient or a difference is then
follows by cases. That packing undoes unpacking is a lemma that comes with the whole library only.
-/

namespace ScalarSql

theorem pow2_add (a b : Nat) : pow2 (a + b) = pow2 a * pow2 b := Nat.pow_add 2 a b

theorem pow2_pos (a : Nat) : 0 < pow2 a := Nat.two_pow_pos a

namespace Binary64

open Float.Model

/-- What the parts of a double stand for. -/
inductive Stands : UnpackedFloat → Binary64 → Prop
  | nan : Stands .notANumber .nan
  | infinite (s t) : Stands (.infinity s) (.infinite t)
  | zero (s t e) : Stands (.zero s) (.finite t 0 e)
  | finite {s m e h t n f} (hn : n ≠ 0) : Stands (.finite s m e h) (.finite t n f)

theorem exponent_toNat (b : UInt64) :
    (@UnpackedFloat.unpackExponent Format.binary64 b.toBitVec).toNat = b.toNat / pow2 52 % pow2 11 := by
  change (b.toNat >>> 52) % 2 ^ 11 = _
  rw [Nat.shiftRight_eq_div_pow]
  rfl

theorem mantissa_toNat (b : UInt64) :
    (@UnpackedFloat.unpackMantissa Format.binary64 b.toBitVec).toNat = b.toNat % pow2 52 := by
  change (b.toNat >>> 0) % 2 ^ 52 = _
  rfl

theorem stands_bits (b : UInt64) : Stands (UnpackedFloat.unpack Format.binary64 b.toBitVec) (ofBits b.toNat) := by
  have he := exponent_toNat b
  have hm := mantissa_toNat b
  have hpow : 0 < pow2 52 := by decide
  simp only [UnpackedFloat.unpack, ofBits, ← he, ← hm]
  set e := @UnpackedFloat.unpackExponent Format.binary64 b.toBitVec
  set m := @UnpackedFloat.unpackMantissa Format.binary64 b.toBitVec
  have hlast : e = -1#11 ↔ e.toNat = 2047 := by rw [← BitVec.toNat_inj]; rfl
  have hfirst : e = 0#11 ↔ e.toNat = 0 := by rw [← BitVec.toNat_inj]; rfl
  have hnone : m = 0#52 ↔ m.toNat = 0 := by rw [← BitVec.toNat_inj]; rfl
  by_cases h1 : e = -1#11
  · rw [if_pos h1, if_pos (hlast.1 h1)]
    by_cases h2 : m = 0#52
    · rw [if_pos h2, if_pos (hnone.1 h2)]
      exact .infinite _ _
    · rw [if_neg h2, if_neg (mt hnone.2 h2)]
      exact .nan
  rw [if_neg h1, if_neg (mt hlast.2 h1)]
  by_cases h2 : e = 0#11
  · rw [if_pos h2, if_pos (hfirst.1 h2)]
    by_cases h3 : m = 0#52
    · rw [dif_pos h3, hnone.1 h3]
      exact .zero _ _ _
    · rw [dif_neg h3]
      exact .finite (mt hnone.2 h3)
  · rw [if_neg h2, if_neg (mt hfirst.2 h2)]
    exact .finite (by omega)

theorem stands (x : Float) : Stands x.toModel.unpack (ofFloat x) := stands_bits x.toBits

variable {x y : Float} {u : UnpackedFloat}

theorem isZero_iff : (ofFloat x).isZero ↔ ∃ s, x.toModel.unpack = .zero s := by
  have h := stands x
  generalize x.toModel.unpack = u at h ⊢
  generalize ofFloat x = v at h ⊢
  cases h with
  | zero s => simp [isZero]
  | finite hn => simp [isZero, hn]
  | _ => simp [isZero]

theorem eq_nan_iff : ofFloat x = .nan ↔ x.toModel.unpack = .notANumber := by
  have h := stands x
  generalize x.toModel.unpack = u at h ⊢
  generalize ofFloat x = v at h ⊢
  cases h <;> simp

/-! ## Operations on zeros -/

theorem unpack_pack_zero (s : UnpackedFloat.Sign) : (pack (.zero s)).unpack = .zero s := by
  cases s <;> rfl

theorem nan_or_isZero (hx : x.toModel = pack u) (h : u = .notANumber ∨ ∃ s, u = .zero s) :
    ofFloat x = .nan ∨ (ofFloat x).isZero := by
  rw [eq_nan_iff, isZero_iff, hx]
  obtain rfl | ⟨s, rfl⟩ := h
  · exact .inl rfl
  · exact .inr ⟨s, unpack_pack_zero s⟩

theorem mul_of_isZero (h : (ofFloat x).isZero ∨ (ofFloat y).isZero) :
    ofFloat (x * y) = .nan ∨ (ofFloat (x * y)).isZero := by
  refine nan_or_isZero (u := UnpackedFloat.mul _ x.toModel.unpack y.toModel.unpack) rfl ?_
  rw [isZero_iff, isZero_iff] at h
  obtain ⟨s, hs⟩ | ⟨s, hs⟩ := h
  · rw [hs]
    cases y.toModel.unpack <;> simp [UnpackedFloat.mul]
  · rw [hs]
    cases x.toModel.unpack <;> simp [UnpackedFloat.mul]

theorem div_of_isZero (h : (ofFloat x).isZero) (y : Float) : ofFloat (x / y) = .nan ∨ (ofFloat (x / y)).isZero := by
  refine nan_or_isZero (u := UnpackedFloat.div _ x.toModel.unpack y.toModel.unpack) rfl ?_
  obtain ⟨s, hs⟩ := isZero_iff.1 h
  rw [hs]
  cases y.toModel.unpack <;> simp [UnpackedFloat.div]

theorem sub_of_isZero (hx : (ofFloat x).isZero) (hy : (ofFloat y).isZero) : (ofFloat (x - y)).isZero := by
  obtain ⟨s, hs⟩ := isZero_iff.1 hx
  obtain ⟨t, ht⟩ := isZero_iff.1 hy
  rw [isZero_iff]
  change ∃ u, (pack (UnpackedFloat.sub _ x.toModel.unpack y.toModel.unpack)).unpack = _
  rw [hs, ht, UnpackedFloat.sub]
  split <;> exact ⟨_, unpack_pack_zero _⟩

theorem unpack_ne_nan {b : BitVec 64}
    (h : @UnpackedFloat.unpackExponent Format.binary64 b = -1#11 →
      @UnpackedFloat.unpackMantissa Format.binary64 b = 0#52) :
    UnpackedFloat.unpack Format.binary64 b ≠ .notANumber := by
  simp only [UnpackedFloat.unpack]
  split
  · rename_i he
    rw [if_pos (h he)]
    rintro ⟨⟩
  · split
    · split <;> rintro ⟨⟩
    · rintro ⟨⟩

theorem unpack_pack_ne (h : u ≠ .notANumber) : (pack u).unpack ≠ .notANumber := by
  cases u with
  | notANumber => exact absurd rfl h
  | infinity s => cases s <;> rintro ⟨⟩
  | zero s => cases s <;> rintro ⟨⟩
  | finite s m e hm =>
    refine unpack_ne_nan ?_
    change UnpackedFloat.unpackExponent (UnpackedFloat.pack Format.binary64 _) = _ →
      UnpackedFloat.unpackMantissa (UnpackedFloat.pack Format.binary64 _) = _
    simp only [UnpackedFloat.pack]
    split
    · simp [UnpackedFloat.packedInfinity]
    · -- the exponent is below the last one, which infinities and no numbers have
      rename_i hfits
      split <;> intro he <;> rw [UnpackedFloat.unpackExponent_packComponents] at he
      · have he := congrArg BitVec.toNat he
        simp at he hfits
        omega
      · simp at he

theorem sub_ne_nan (hx : (ofFloat x).isZero) (hy : ofFloat y ≠ .nan) : ofFloat (x - y) ≠ .nan := by
  obtain ⟨s, hs⟩ := isZero_iff.1 hx
  rw [ne_eq, eq_nan_iff] at hy ⊢
  refine unpack_pack_ne ?_
  rw [hs]
  generalize y.toModel.unpack = u at hy ⊢
  cases u with
  | notANumber => exact absurd rfl hy
  | zero t => rw [UnpackedFloat.sub]; split <;> rintro ⟨⟩
  | _ => rintro ⟨⟩

theorem neg_ne_nan (h : ofFloat x ≠ .nan) : ofFloat (-x) ≠ .nan := by
  rw [ne_eq, eq_nan_iff] at h ⊢
  refine unpack_pack_ne ?_
  generalize x.toModel.unpack = u at h ⊢
  cases u with
  | notANumber => exact absurd rfl h
  | _ => rintro ⟨⟩

/-! ## The double of an integer -/

theorem bitsOfNat_spec {m : Nat} (e : Nat) (hm : m ≠ 0) (hsize : m ≤ pow2 53) :
    ∃ fraction < pow2 52, bitsOfNat m e = (m.log2 + e + 1023) * pow2 52 + fraction ∧
      (pow2 52 + fraction) * pow2 m.log2 = m * pow2 52 := by
  simp only [bitsOfNat, if_neg hm]
  have hlow : pow2 m.log2 ≤ m := Nat.log2_self_le hm
  have hhigh : m < 2 * pow2 m.log2 := by
    rw [Nat.mul_comm]
    exact Nat.lt_log2_self
  obtain hlog | hlog := Nat.lt_or_ge m.log2 53
  · -- the mantissa is widened to 53 bits
    have hpow : pow2 (52 - m.log2) * pow2 m.log2 = pow2 52 := by
      rw [← pow2_add]
      congr 1
      omega
    have hzero : m.log2 - 52 = 0 := by omega
    have hmin : pow2 52 ≤ m * pow2 (52 - m.log2) := by
      rw [← hpow, Nat.mul_comm]
      exact Nat.mul_le_mul_right _ hlow
    have hmax : m * pow2 (52 - m.log2) < 2 * pow2 52 := by
      rw [← hpow, Nat.mul_comm (pow2 _), ← Nat.mul_assoc]
      exact Nat.mul_lt_mul_of_pos_right hhigh (pow2_pos _)
    rw [hzero, show pow2 0 = 1 from rfl, Nat.div_one]
    refine ⟨_, by omega, rfl, ?_⟩
    rw [Nat.add_sub_cancel' hmin, Nat.mul_assoc, hpow]
  · -- rounding has carried to the next power of two
    have hmono : pow2 53 ≤ pow2 m.log2 := Nat.pow_le_pow_right (by decide) hlog
    obtain rfl : m = pow2 53 := by omega
    exact ⟨0, pow2_pos _, rfl, by decide⟩

/-- An integer below `2 ^ 53` rounds to itself, and the others to between `2 ^ 53` and `2 ^ 63`. -/
theorem roundNat_spec {n m k : Nat} (hn : n ≠ 0) (hsize : n ≤ pow2 63) (hr : roundNat n = (m, k)) :
    m ≠ 0 ∧ m ≤ pow2 53 ∧ k ≤ 11 ∧ (n < pow2 53 → m * pow2 k = n) ∧ (pow2 53 ≤ n → pow2 53 ≤ m * pow2 k) ∧
      m * pow2 k ≤ pow2 63 := by
  obtain ⟨hm, hk⟩ : shiftRound n (n.log2 - 52) = m ∧ n.log2 - 52 = k := Prod.mk.inj hr
  rw [hk] at hm
  obtain hsmall | hlarge := Nat.lt_or_ge n (pow2 53)
  · obtain rfl : k = 0 := by
      have := (Nat.log2_lt hn).2 hsmall
      omega
    have hone : m * pow2 0 = m := Nat.mul_one m
    obtain rfl : n = m := by simpa [shiftRound, show pow2 0 = 1 from rfl, Nat.mod_one] using hm
    omega
  obtain rfl | hmid := Nat.eq_or_lt_of_le hsize
  · subst hm hk
    decide
  -- the mantissa has 53 bits before it is rounded
  have hlog : 53 ≤ n.log2 := (Nat.le_log2 hn).2 hlarge
  have hlog' : n.log2 < 63 := (Nat.log2_lt hn).2 hmid
  have hlow : pow2 52 ≤ n / pow2 k := by
    rw [Nat.le_div_iff_mul_le (pow2_pos _), ← pow2_add, show 52 + k = n.log2 by omega]
    exact Nat.log2_self_le hn
  have hhigh : n / pow2 k < pow2 53 := by
    rw [Nat.div_lt_iff_lt_mul (pow2_pos _), ← pow2_add, show 53 + k = n.log2 + 1 by omega]
    exact Nat.lt_log2_self
  have hround : n / pow2 k ≤ m ∧ m ≤ n / pow2 k + 1 := by
    rw [← hm]
    simp only [shiftRound]
    split
    · omega
    · split <;> omega
  have hpos := pow2_pos 52
  have hone : pow2 1 ≤ pow2 k := Nat.pow_le_pow_right (by decide) (by omega)
  have hten : pow2 k ≤ pow2 10 := Nat.pow_le_pow_right (by decide) (by omega)
  exact ⟨by omega, by omega, by omega, fun h => absurd h (by omega), fun _ => Nat.mul_le_mul (hlow.trans hround.1) hone,
    (Nat.mul_le_mul (hround.2.trans hhigh) hten).trans_eq (pow2_add 53 10).symm⟩

theorem ofFloat_ofBits {b : UInt64} (h : b.toNat / pow2 52 % pow2 11 ≠ 2047) :
    ofFloat (Float.ofBits b) = ofBits b.toNat := by
  have hnan : @UnpackedFloat.isNaNBits Format.binary64 b.toBitVec = false := by
    rw [← exponent_toNat] at h
    refine decide_eq_false fun hnan => h ?_
    rw [hnan.1]
    rfl
  have hbits : (Float.ofBits b).toBits = b := by
    change UInt64.ofBitVec (UnpackedFloat.pack Format.binary64 (UnpackedFloat.unpack Format.binary64 b.toBitVec)) = b
    rw [UnpackedFloat.pack_unpack, hnan]
    rfl
  rw [ofFloat, hbits]

/-- The double of an integer other than zero has the sign of the integer and the value that it rounds to. -/
theorem nearest_spec {i : Int} {n k : Nat} (hi : i ≠ 0) (hsize : i.natAbs ≤ pow2 63) (hr : roundNat i.natAbs = (n, k)) :
    ∃ m, m ≠ 0 ∧ m * pow2 n.log2 = n * pow2 52 ∧
      ofFloat (nearest i) = .finite (decide (i < 0)) m ((n.log2 + k : Nat) - 52) := by
  obtain ⟨hpos, hn, hk, -⟩ := roundNat_spec (Int.natAbs_ne_zero.2 hi) hsize hr
  obtain ⟨fraction, hfraction, hbits, hvalue⟩ := bitsOfNat_spec k hpos hn
  have hlog : n.log2 < 54 := (Nat.log2_lt hpos).2 (Nat.lt_of_le_of_lt hn (by decide))
  have h63 : pow2 63 = 9223372036854775808 := by decide
  have h52 : pow2 52 = 4503599627370496 := by decide
  have h11 : pow2 11 = 2048 := by decide
  generalize hb : UInt64.ofNat (if i < 0 then pow2 63 + bitsOfNat n k else bitsOfNat n k) = b
  have hparts : b.toNat / pow2 52 % pow2 11 = n.log2 + k + 1023 ∧ b.toNat % pow2 52 = fraction ∧
      (b.toNat / pow2 63 % 2 == 1) = decide (i < 0) := by
    rw [← hb, UInt64.toNat_ofNat', hbits, h63, h52, h11]
    split <;> simp [*] <;> omega
  have hfloat : ofFloat (nearest i) = ofBits b.toNat := by
    rw [← ofFloat_ofBits (by omega), ← hb, nearest, hr]
  refine ⟨pow2 52 + fraction, by omega, hvalue, ?_⟩
  simp only [hfloat, ofBits, hparts]
  rw [if_neg (by omega), if_neg (by omega), show ((n.log2 + k + 1023 : Nat) : Int) - 1075 = (n.log2 + k : Nat) - 52
    by omega]

end Binary64

end ScalarSql
