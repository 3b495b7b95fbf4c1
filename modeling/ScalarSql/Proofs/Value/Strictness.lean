import ScalarSql.Proofs.Machine.Steps
import ScalarSql.Proofs.Value.Reals

/-!
# What the value of an operator says of its operands

Operators other than AND, OR and the comparisons that count NULL give NULL if an operand is NULL. Four of them
say more: a product, a quotient, a remainder and the common bits of two operands are true only if both operands
are. The second fact needs doubles, because the operands of arithmetic are doubles if not both are integers.
-/

namespace ScalarSql

open Binary64

namespace Value

/-- What a condition says of its value: that it is true, or only that it is not NULL. -/
def Affirms (mayBeFalse : Bool) (v : Value) : Prop :=
  if mayBeFalse then v.isNull = false else v.truth = some true

/-- Neither NULL nor not-a-number. -/
def isProper : Value → Bool
  | .null => false
  | .real r => Binary64.ofFloat r != .nan
  | _ => true

variable {a b v : Value} {m : Bool} {i : Int64} {x : Float}

theorem isNull_of_truth {t : Bool} (h : v.truth = some t) : v.isNull = false := by
  cases v with
  | null => cases h
  | _ => rfl

theorem Affirms.not_isNull (h : v.Affirms m) : v.isNull = false := by
  cases m with
  | true => exact h
  | false => exact isNull_of_truth h

theorem isNull_of_isProper (h : v.isProper) : v.isNull = false := by
  cases v with
  | null => cases h
  | _ => rfl

/-! ## Truth and doubles -/

theorem nearest_ne_zero (hi : i ≠ 0) :
    Binary64.ofFloat (nearest i.toInt) ≠ .nan ∧ (Binary64.ofFloat (nearest i.toInt)).isZero = false := by
  have hlow := i.le_toInt
  have hhigh := i.toInt_lt
  have hpow : pow2 63 = 2 ^ 63 := rfl
  obtain ⟨m, hm, -, hfloat⟩ := nearest_spec (fun h => hi (Int64.toInt_inj.1 h)) (by omega) rfl
  rw [hfloat]
  exact ⟨by rintro ⟨⟩, beq_eq_false_iff_ne.2 hm⟩

theorem nearest_isZero (i : Int64) : (Binary64.ofFloat (nearest i.toInt)).isZero = (i == 0) := by
  by_cases hi : i = 0
  · subst hi
    decide +kernel
  · rw [(nearest_ne_zero hi).2, beq_eq_false_iff_ne.2 hi]

theorem truth_eq (h : v.isNull = false) : v.truth = some !(Binary64.ofFloat v.asReal).isZero := by
  cases v with
  | null => cases h
  | integer i =>
    show some (i != 0) = some !(Binary64.ofFloat (nearest i.toInt)).isZero
    rw [nearest_isZero]
    rfl
  | _ => rfl

theorem truth_of_toNumeric (h : v.toNumeric = .integer i) (hv : v.isNull = false) : v.truth = some (i != 0) := by
  rw [truth_eq hv, asReal, h]
  show some (!(Binary64.ofFloat (nearest i.toInt)).isZero) = _
  rw [nearest_isZero]
  rfl

theorem isZero_of_truth (hv : v.isNull = false) (h : v.truth ≠ some true) : (Binary64.ofFloat v.asReal).isZero := by
  rw [truth_eq hv] at h
  simpa using h

theorem truth_ofFloat (h : (ofFloat x).truth = some true) :
    ¬ (Binary64.ofFloat x = .nan ∨ (Binary64.ofFloat x).isZero) := by
  rw [ofFloat] at h
  split at h
  · cases h
  · rename_i hnan
    have htrue : some (!(Binary64.ofFloat x).isZero) = some true := h
    simp_all

theorem toInt64_of_isZero {x : Binary64} (h : x.isZero) : x.toInt64 = 0 := by
  cases x with
  | finite s m e =>
    obtain rfl : m = 0 := by simpa [isZero] using h
    cases s <;> simp [toInt64, truncate, signed] <;> decide
  | _ => cases h

theorem truth_of_asInteger (hv : v.isNull = false) (h : v.asInteger ≠ 0) : v.truth = some true := by
  by_contra hfalse
  have hzero := isZero_of_truth hv hfalse
  refine h ?_
  unfold asInteger
  cases hn : v.toNumeric with
  | integer i =>
    rw [truth_of_toNumeric hn hv] at hfalse
    show i = 0
    simpa using hfalse
  | real r =>
    rw [asReal, hn] at hzero
    exact toInt64_of_isZero hzero
  | _ => rfl

/-! ## Operators -/

section

variable {exact : Int → Int → Option Int} {onReals : Float → Float → Value}

theorem isNull_numericOp (h : (numericOp exact onReals a b).isNull = false) : a.isNull = false ∧ b.isNull = false := by
  rw [numericOp] at h
  split at h
  · cases h
  · simp_all

/-- An operation on numbers is exact on integers or one on doubles. -/
theorem numericOp_cases (exact : Int → Int → Option Int) (onReals : Float → Float → Value) (ha : a.isNull = false)
    (hb : b.isNull = false) : numericOp exact onReals a b = onReals a.asReal b.asReal ∨
      ∃ x y, a.toNumeric = .integer x ∧ b.toNumeric = .integer y ∧
        numericOp exact onReals a b = (exact x.toInt y.toInt).elim .null fun n => .integer (Int64.ofInt n) := by
  rw [numericOp, if_neg (by simp [ha, hb])]
  split
  · rename_i x y hx hy
    cases hexact : exact x.toInt y.toInt with
    | none => exact .inr ⟨x, y, hx, hy, by rw [hexact]; rfl⟩
    | some n =>
      by_cases hfits : fits n
      · exact .inr ⟨x, y, hx, hy, (if_pos hfits).trans (by rw [hexact]; rfl)⟩
      · refine .inl ((if_neg hfits).trans ?_)
        rw [asReal, asReal, hx, hy]
  · exact .inl rfl

/-- An operation that keeps zero true on zero operands only says that both operands are true. -/
theorem truth_of_numericOp (hexact : ∀ x y n, exact x y = some n → n ≠ 0 → x ≠ 0 ∧ y ≠ 0)
    (hreals : ∀ x y, (onReals x y).truth = some true →
      (Binary64.ofFloat x).isZero = false ∧ (Binary64.ofFloat y).isZero = false)
    (h : (numericOp exact onReals a b).truth = some true) : a.truth = some true ∧ b.truth = some true := by
  obtain ⟨ha, hb⟩ := isNull_numericOp (isNull_of_truth h)
  obtain heq | ⟨x, y, hx, hy, heq⟩ := numericOp_cases exact onReals ha hb
  · rw [heq] at h
    rw [truth_eq ha, truth_eq hb, (hreals _ _ h).1, (hreals _ _ h).2]
    exact ⟨rfl, rfl⟩
  · rw [heq] at h
    cases hn : exact x.toInt y.toInt with
    | none =>
      rw [hn] at h
      cases h
    | some n =>
      rw [hn] at h
      have hne : n ≠ 0 := by
        rintro rfl
        cases h
      obtain ⟨hx0, hy0⟩ := hexact _ _ n hn hne
      rw [truth_of_toNumeric hx ha, truth_of_toNumeric hy hb]
      refine ⟨congrArg some (bne_iff_ne.2 ?_), congrArg some (bne_iff_ne.2 ?_)⟩
      · rintro rfl
        exact hx0 rfl
      · rintro rfl
        exact hy0 rfl

end

theorem truth_of_multiply (h : (multiply a b).truth = some true) : a.truth = some true ∧ b.truth = some true := by
  refine truth_of_numericOp (fun x y n hn hne => ?_) (fun x y hxy => ?_) h
  · cases hn
    exact mul_ne_zero_iff.1 hne
  · have hne := truth_ofFloat hxy
    exact ⟨Bool.eq_false_iff.2 fun hx => hne (mul_of_isZero (.inl hx)),
      Bool.eq_false_iff.2 fun hy => hne (mul_of_isZero (.inr hy))⟩

theorem truth_of_divide (h : (divide a b).truth = some true) : a.truth = some true ∧ b.truth = some true := by
  refine truth_of_numericOp (fun x y n hn hne => ?_) (fun x y hxy => ?_) h
  · split at hn
    · cases hn
    · cases hn
      refine ⟨?_, by assumption⟩
      rintro rfl
      simp at hne
  · split at hxy
    · cases hxy
    · rename_i hy
      exact ⟨Bool.eq_false_iff.2 fun hx => truth_ofFloat hxy (div_of_isZero hx y), Bool.eq_false_iff.2 hy⟩

theorem truth_of_remainder (h : (remainder a b).truth = some true) : a.truth = some true ∧ b.truth = some true := by
  refine truth_of_numericOp (fun x y n hn hne => ?_) (fun x y hxy => ?_) h
  · split at hn
    · cases hn
    · cases hn
      refine ⟨?_, by assumption⟩
      rintro rfl
      simp at hne
  · simp only [remainderReals] at hxy
    split at hxy
    · cases hxy
    · rename_i hj
      refine ⟨Bool.eq_false_iff.2 fun hx => ?_, Bool.eq_false_iff.2 fun hy => hj ?_⟩
      · rw [toInt64_of_isZero hx, Int64.toInt_zero, Int.zero_tmod] at hxy
        exact absurd hxy (by decide +kernel)
      · rw [toInt64_of_isZero hy]
        rfl

theorem truth_of_bitAnd (h : (bitAnd a b).truth = some true) : a.truth = some true ∧ b.truth = some true := by
  simp only [bitAnd, bitwiseOp] at h
  split at h
  · cases h
  · rename_i hnull
    obtain ⟨ha, hb⟩ : a.isNull = false ∧ b.isNull = false := by simpa using hnull
    have hne : a.asInteger &&& b.asInteger ≠ 0 := by simpa [truth] using h
    refine ⟨truth_of_asInteger ha fun hz => hne ?_, truth_of_asInteger hb fun hz => hne ?_⟩
    · rw [hz, Int64.zero_and]
    · rw [hz, Int64.and_zero]

theorem isNull_bitwiseOp {f : Int64 → Int64 → Int64} (h : (bitwiseOp f a b).isNull = false) :
    a.isNull = false ∧ b.isNull = false := by
  rw [bitwiseOp] at h
  split at h
  · cases h
  · simp_all

theorem isNull_concat (h : (concat a b).isNull = false) : a.isNull = false ∧ b.isNull = false := by
  cases a <;> cases b <;> first | exact ⟨rfl, rfl⟩ | cases h

theorem truth_of_and (h : (and a b).truth = some true) : a.truth = some true ∧ b.truth = some true := by
  have hand : Truth.and a.truth b.truth = some true := by
    rw [and] at h
    generalize Truth.and a.truth b.truth = t at h ⊢
    obtain _ | _ | _ := t
    · cases h
    · cases h
    · rfl
  generalize a.truth = s at hand ⊢
  generalize b.truth = t at hand ⊢
  obtain _ | _ | _ := s <;> obtain _ | _ | _ := t <;> first | exact ⟨rfl, rfl⟩ | cases hand

theorem truth_of_or (h : a.truth = some true ∨ b.truth = some true) : (or a b).truth = some true := by
  rw [or]
  generalize a.truth = s at h ⊢
  generalize b.truth = t at h ⊢
  obtain rfl | rfl := h
  · rfl
  · obtain _ | _ | _ := s <;> rfl

/-! ## Change of sign -/

theorem affirms_of_negated (h : (subtract (.integer 0) v).Affirms m) : v.Affirms m := by
  have hv := (isNull_numericOp h.not_isNull).2
  cases m with
  | true => exact hv
  | false =>
    by_contra hfalse
    have h : (subtract (.integer 0) v).truth = some true := h
    obtain heq | ⟨x, y, hx, hy, heq⟩ := numericOp_cases (fun x y => some (x - y))
      (fun x y => ofFloat (x - y)) (rfl : (Value.integer 0).isNull = false) hv
    · rw [subtract, heq] at h
      exact truth_ofFloat h (.inr (sub_of_isZero (by decide +kernel) (isZero_of_truth hv hfalse)))
    · cases hx
      have hy0 : y = 0 := by
        have hne : v.truth ≠ some true := hfalse
        rw [truth_of_toNumeric hy hv] at hne
        simpa using hne
      rw [subtract, heq, hy0] at h
      exact absurd h (by decide +kernel)

theorem numberReal_ne_nan (h : ∀ r, v = .real r → Binary64.ofFloat r ≠ .nan) :
    Binary64.ofFloat v.numberReal ≠ .nan := by
  cases v with
  | integer i =>
    by_cases hi : i = 0
    · subst hi
      decide +kernel
    · exact (nearest_ne_zero hi).1
  | real r => exact h r rfl
  | _ =>
    show Binary64.ofFloat 0.0 ≠ .nan
    decide +kernel

theorem parseNumber_ne_nan {s : String} {r : Float} (h : (parseNumber s).1 = .real r) : Binary64.ofFloat r ≠ .nan := by
  rw [parseNumber] at h
  split at h
  · simp only [ofNumeral, ofFloat] at h
    split at h
    · cases h
    · split at h
      · cases h
      · cases h
        assumption
  · cases h

theorem asReal_ne_nan (h : ∀ r, v = .real r → Binary64.ofFloat r ≠ .nan) : Binary64.ofFloat v.asReal ≠ .nan := by
  refine numberReal_ne_nan fun r hr => ?_
  cases v with
  | text s => exact parseNumber_ne_nan hr
  | blob b => exact parseNumber_ne_nan hr
  | _ => exact h r hr

theorem ne_nan_of_isProper (h : v.isProper) (r : Float) (hr : v = .real r) : Binary64.ofFloat r ≠ .nan := by
  subst hr
  simpa [isProper] using h

theorem isProper_ofFloat (h : Binary64.ofFloat x ≠ .nan) : (ofFloat x).isProper := by
  rw [ofFloat, if_neg h]
  simpa [isProper] using h

theorem isProper_negated (h : v.isProper) : (subtract (.integer 0) v).isProper := by
  obtain heq | ⟨x, y, hx, hy, heq⟩ := numericOp_cases (fun x y => some (x - y))
    (fun x y => ofFloat (x - y)) (rfl : (Value.integer 0).isNull = false) (isNull_of_isProper h)
  · rw [subtract, heq]
    exact isProper_ofFloat (sub_ne_nan (by decide +kernel) (asReal_ne_nan (ne_nan_of_isProper h)))
  · rw [subtract, heq]
    rfl

end Value

namespace BinaryOp

variable {op : BinaryOp} {m n : Bool} {a b : Value}

/-- An operator that neither compares nor is AND or OR gives NULL on NULL. -/
theorem isNull_of_compute (hop : op.isComparison = false) (hlogical : op.isLogical = false)
    (h : (op.compute a b).isNull = false) : a.isNull = false ∧ b.isNull = false := by
  cases op with
  | add | sub | mul | div | rem =>
    simp only [compute, Value.add, Value.subtract, Value.multiply, Value.divide, Value.remainder] at h
    exact Value.isNull_numericOp h
  | bitAnd | bitOr | shiftLeft | shiftRight =>
    simp only [compute, Value.bitAnd, Value.bitOr, Value.shiftLeft, Value.shiftRight] at h
    exact Value.isNull_bitwiseOp h
  | concat => exact Value.isNull_concat h
  | and | or => cases hlogical
  | _ => cases hop

theorem affirms_of_compute (hs : Expr.strictness op m = some n) (hop : op.isComparison = false)
    (h : (op.compute a b).Affirms m) : a.Affirms n ∧ b.Affirms n := by
  have hlogical : op.isLogical = false := by
    cases op <;> first | rfl | cases hs
  have hnull := isNull_of_compute hop hlogical h.not_isNull
  cases n with
  | true => exact hnull
  | false =>
    cases op with
    | mul =>
      cases hs
      exact Value.truth_of_multiply h
    | div =>
      cases hs
      exact Value.truth_of_divide h
    | rem =>
      cases hs
      exact Value.truth_of_remainder h
    | bitAnd =>
      cases hs
      exact Value.truth_of_bitAnd h
    | _ => cases hs

end BinaryOp

end ScalarSql
