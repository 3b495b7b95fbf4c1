import ScalarSql.Proofs.Value.Reals
import ScalarSql.Value.Compare

/-!
# The order of values as a preorder

Every finite double is a whole number of units of `2 ^ -1074`, so numbers are compared by integers (`Binary64.scaled`).
The order of an integer and a double is that of their values (`Value.compareIntReal_eq`), with one exception: integers
that round up to `2 ^ 63` equal this double. So the order of values is a preorder where the double `2 ^ 63` does not
occur (`Value.compare_preorder`), and is not transitive around it (`Value.compare_not_transitive`).
-/

namespace ScalarSql

open Binary64 Text

namespace Binary64

/-- The side on which an infinity is. -/
def side : Binary64 → Int
  | .infinite s => signed s 1
  | _ => 0

/-- The number one in units of `2 ^ -1074`. -/
@[irreducible] def unit : Nat := pow2 1074

theorem unit_pos : 0 < unit := by
  unfold unit
  exact pow2_pos 1074

theorem pow2_mul_unit {a b : Nat} {e : Int} (h : a + e = b) (he : -1074 ≤ e) :
    pow2 a * pow2 (e + 1074).toNat = pow2 b * unit := by
  unfold unit
  rw [← pow2_add, ← pow2_add, show a + (e + 1074).toNat = b + 1074 by omega]

/-- A finite value in units of `2 ^ -1074`. -/
def scaled : Binary64 → Int
  | .finite s m e => signed s (m * pow2 (e + 1074).toNat)
  | _ => 0

/-- The mantissa and the exponent are those of a double. -/
def InRange : Binary64 → Prop
  | .finite _ m e => m < pow2 53 ∧ -1074 ≤ e
  | _ => True

variable {x y : Binary64} {s : Bool} {m : Nat} {e i : Int}

theorem inRange_ofFloat (r : Float) : (ofFloat r).InRange := by
  have hfraction : r.toBits.toNat % pow2 52 < pow2 52 := Nat.mod_lt _ (pow2_pos 52)
  have hdouble : pow2 53 = 2 * pow2 52 := rfl
  simp only [ofFloat, ofBits]
  split
  · split <;> trivial
  · split <;> simp only [InRange] <;> omega

theorem signed_mul (s : Bool) (a b : Nat) : signed s (a * b) = signed s a * b := by
  cases s <;> simp [signed]

theorem compare_mul (a b : Int) {k : Nat} (hk : 0 < k) : Ord.compare (a * k) (b * k) = Ord.compare a b := by
  rw [← cmp_eq_compare, ← cmp_eq_compare, cmp_mul_pos_right (Int.natCast_pos.2 hk)]

theorem compare_congr {a b c : Int} (h : a = b ∨ a < c ∧ b < c ∨ c < a ∧ c < b) :
    Ord.compare a c = Ord.compare b c := by
  obtain rfl | ⟨ha, hb⟩ | ⟨ha, hb⟩ := h
  · rfl
  · rw [compare_lt_iff_lt.2 ha, compare_lt_iff_lt.2 hb]
  · rw [compare_gt_iff_gt.2 ha, compare_gt_iff_gt.2 hb]

theorem compare_swap (x y : Binary64) : y.compare x = (x.compare y).swap := by
  cases x with
  | nan => cases y <;> rfl
  | infinite s => cases s <;> cases y with
    | infinite t => cases t <;> rfl
    | _ => rfl
  | finite s m e => cases y with
    | nan => rfl
    | infinite t => cases t <;> rfl
    | finite t n f =>
      simp only [compare, order?, Option.getD_some, compareFinite, min_comm f e]
      exact Std.OrientedCmp.eq_swap

theorem compare_eq_scaled (hx : x.InRange) (hy : y.InRange) (hxn : x ≠ .nan) (hyn : y ≠ .nan) :
    x.compare y = (Ord.compare x.side y.side).then (Ord.compare x.scaled y.scaled) := by
  cases x with
  | nan => exact absurd rfl hxn
  | infinite s =>
    cases y with
    | nan => exact absurd rfl hyn
    | infinite t => cases s <;> cases t <;> rfl
    | finite => cases s <;> rfl
  | finite s m e =>
    cases y with
    | nan => exact absurd rfl hyn
    | infinite t => cases t <;> rfl
    | finite t n f =>
      have hunit (s : Bool) (m : Nat) {a : Int} (ha : min e f ≤ a) :
          (finite s m a).scaled = signed s (m * pow2 (a - min e f).toNat) * pow2 (min e f + 1074).toNat := by
        have hmin : -1074 ≤ min e f := le_min hx.2 hy.2
        rw [← signed_mul, Nat.mul_assoc, ← pow2_add, scaled]
        congr 3
        omega
      rw [hunit s m (Int.min_le_left e f), hunit t n (Int.min_le_right e f), compare_mul _ _ (pow2_pos _)]
      rfl

/-- The double of an integer is an integer: the same one below `2 ^ 53`, and otherwise one on the same side. -/
theorem nearest_scaled (hlow : int64Min ≤ i) (hhigh : i ≤ int64Max) :
    ∃ k : Int, (ofFloat (nearest i)).scaled = k * unit ∧ (ofFloat (nearest i)).side = 0 ∧
      ofFloat (nearest i) ≠ .nan ∧ int64Min ≤ k ∧ k ≤ pow2 63 ∧
        (k = i ∨ pow2 53 ≤ i ∧ pow2 53 ≤ k ∨ i ≤ -pow2 53 ∧ k ≤ -pow2 53) := by
  simp only [int64Min, int64Max] at hlow hhigh ⊢
  by_cases hi : i = 0
  · subst hi
    have hzero : ofFloat (nearest 0) = .finite false 0 (-1074) := by decide +kernel
    rw [hzero]
    exact ⟨0, by simp [scaled, signed], rfl, by rintro ⟨⟩, by omega, by omega, .inl rfl⟩
  have hsize : i.natAbs ≤ pow2 63 := by omega
  obtain ⟨n, k, hr⟩ : ∃ n k, roundNat i.natAbs = (n, k) := ⟨_, _, rfl⟩
  obtain ⟨m, -, hvalue, hfloat⟩ := nearest_spec hi hsize hr
  obtain ⟨-, -, -, hsmall, hlarge, hmax⟩ := roundNat_spec (Int.natAbs_ne_zero.2 hi) hsize hr
  rw [hfloat]
  refine ⟨signed (i < 0) (n * pow2 k), ?_, rfl, by rintro ⟨⟩, ?_⟩
  · rw [← signed_mul, scaled, show ((n.log2 + k : Nat) - 52 + 1074 : Int).toNat = n.log2 + (k - 52 + 1074 : Int).toNat
      by omega,
      pow2_add, ← Nat.mul_assoc, hvalue, Nat.mul_assoc, pow2_mul_unit (b := k) (by omega) (by omega), Nat.mul_assoc]
  generalize n * pow2 k = r at hsmall hlarge hmax
  simp only [signed, decide_eq_true_eq]
  split <;> omega

theorem scaled_eq_truncate (h : (finite s m e).isIntegral) (he : -1074 ≤ e) :
    (finite s m e).scaled = (finite s m e).truncate * unit := by
  rw [scaled, truncate, ← signed_mul]
  congr 1
  obtain hle | hlt := lt_or_ge e 0
  · have hdvd : m % pow2 (-e).toNat = 0 := by simpa [isIntegral, Int.not_le.2 hle] using h
    have hunit := pow2_mul_unit (a := (-e).toNat) (b := 0) (by omega) he
    rw [show e.toNat = 0 by omega]
    rw [show pow2 0 = 1 from rfl] at hunit ⊢
    rw [Nat.mul_one]
    nth_rewrite 1 [← Nat.div_mul_cancel (Nat.dvd_of_mod_eq_zero hdvd)]
    rw [Nat.mul_assoc, hunit, Nat.one_mul]
  · have hunit := pow2_mul_unit (a := 0) (b := e.toNat) (by omega) he
    rw [show (-e).toNat = 0 by omega]
    rw [show pow2 0 = 1 from rfl] at hunit ⊢
    rw [Nat.div_one, Nat.mul_assoc, ← hunit, Nat.one_mul]

theorem scaled_of_not_isIntegral (h : (finite s m e).isIntegral = false) (hr : (finite s m e).InRange) :
    -(pow2 53 : Int) * unit < (finite s m e).scaled ∧ (finite s m e).scaled < pow2 53 * unit := by
  have he : e < 0 := by
    by_contra hle
    simp [isIntegral, Int.not_lt.1 hle] at h
  have hle : pow2 (e + 1074).toNat ≤ unit := by
    have hunit := pow2_mul_unit (a := (-e).toNat) (b := 0) (by omega) hr.2
    rw [show pow2 0 = 1 from rfl, Nat.one_mul] at hunit
    exact hunit ▸ Nat.le_mul_of_pos_left _ (pow2_pos _)
  have hsize : m * pow2 (e + 1074).toNat < pow2 53 * unit := Nat.mul_lt_mul_of_lt_of_le hr.1 hle unit_pos
  rw [scaled, signed, Int.neg_mul]
  generalize m * pow2 (e + 1074).toNat = a at hsize
  rw [← Int.natCast_mul]
  generalize pow2 53 * unit = b at hsize
  split <;> omega

end Binary64

namespace Value

open Binary64

def isNaN : Value → Bool
  | .real r => Binary64.ofFloat r == .nan
  | _ => false

/-- Whether the values are other than not-a-number, and not an integer and the double `2 ^ 63` that count as equal, as
no integer is. -/
def comparable (a b : Value) : Bool :=
  !a.isNaN && !b.isNaN && match a, b with
    | .integer i, .real r | .real r, .integer i => (Binary64.ofFloat r).truncate != pow2 63 || compareIntReal i r != .eq
    | _, _ => true

/-- An integer and a double are compared by their values, unless the integer counts as equal to `2 ^ 63`. -/
theorem compareIntReal_eq {i : Int64} {r : Float} (h : comparable (.integer i) (.real r)) : compareIntReal i r =
    (Ord.compare 0 (Binary64.ofFloat r).side).then (Ord.compare (i.toInt * unit) (Binary64.ofFloat r).scaled) := by
  simp only [comparable, isNaN, Bool.not_false, Bool.true_and, Bool.and_eq_true, Bool.not_eq_true', beq_eq_false_iff_ne,
    Bool.or_eq_true, bne_iff_ne] at h
  obtain ⟨hn, hr⟩ := h
  have hrange : (Binary64.ofFloat r).InRange := inRange_ofFloat _
  obtain ⟨k, hk, hside, hnan, hlow, hhigh, hsame⟩ := nearest_scaled i.le_toInt (Int.le_sub_one_of_lt i.toInt_lt)
  have hrounded : (Binary64.ofFloat (nearest i.toInt)).compare (Binary64.ofFloat r) =
      (Ord.compare 0 (Binary64.ofFloat r).side).then (Ord.compare (k * unit) (Binary64.ofFloat r).scaled) := by
    rw [← hk, ← hside]
    exact compare_eq_scaled (inRange_ofFloat _) hrange hnan hn
  simp only [compareIntReal] at hr ⊢
  generalize Binary64.ofFloat r = x at hn hr hrange hrounded ⊢
  cases x with
  | nan => exact absurd rfl hn
  | infinite s =>
    rw [if_neg (by rintro ⟨⟨⟩, -⟩), hrounded]
    cases s <;> rfl
  | finite s m e =>
    show _ = Ord.compare (i.toInt * unit) _
    replace hrounded : _ = Ord.compare (k * unit) _ := hrounded
    by_cases hint : (finite s m e).isIntegral
    · rw [scaled_eq_truncate hint hrange.2, compare_mul _ _ unit_pos] at hrounded ⊢
      split
      · rfl
      · -- beyond the range of integers, rounding reaches the double only at `2 ^ 63`
        rename_i hout
        rw [if_neg hout, hrounded, ne_eq, ne_eq, compare_eq_iff_eq] at hr
        rw [hrounded]
        refine compare_congr (.inr ?_)
        have hi := i.le_toInt
        have hi' := i.toInt_lt
        have h63 : (pow2 63 : Int) = 2 ^ 63 := rfl
        simp only [hint, true_and, int64Min, int64Max] at hlow hout
        omega
    · rw [if_neg fun h => hint h.1, hrounded]
      obtain ⟨hmin, hmax⟩ := scaled_of_not_isIntegral (Bool.eq_false_iff.2 hint) hrange
      have hunit : (0 : Int) ≤ unit := Int.natCast_nonneg unit
      refine compare_congr ?_
      obtain rfl | ⟨hi, hk⟩ | ⟨hi, hk⟩ := hsame
      · exact .inl rfl
      · exact .inr (.inr ⟨hmax.trans_le (Int.mul_le_mul_of_nonneg_right hk hunit),
          hmax.trans_le (Int.mul_le_mul_of_nonneg_right hi hunit)⟩)
      · exact .inr (.inl ⟨(Int.mul_le_mul_of_nonneg_right hk hunit).trans_lt hmin,
          (Int.mul_le_mul_of_nonneg_right hi hunit).trans_lt hmin⟩)

/-! ## Values -/

/-- The number of a value: the side of an infinity, and the finite value in units of `2 ^ -1074`. -/
def number : Value → Int × Int
  | .integer i => (0, i.toInt * unit)
  | .real r => ((Binary64.ofFloat r).side, (Binary64.ofFloat r).scaled)
  | _ => (0, 0)

def textPart : Value → String
  | .text t => t
  | _ => ""

def blobPart : Value → List UInt8
  | .blob bytes => bytes
  | _ => []

/-- The order by class, then by number, text and blob, of which only the part of the class can differ. -/
def compareParts (order : Compare) : Value → Value → Ordering :=
  compareLex (compareOn (·.storageClass.rank)) (compareLex (compareOn (·.number.1)) (compareLex (compareOn (·.number.2))
    (compareLex (fun a b => order a.textPart b.textPart) (compareOn (·.blobPart)))))

variable {order : Compare} {a b c : Value}

instance transCmp_compareParts [Std.TransCmp order] : Std.TransCmp (compareParts order) := by
  have : Std.TransCmp fun a b : Value => order a.textPart b.textPart :=
    letI : Ord String := ⟨order⟩
    haveI : Std.TransOrd String := ‹_›
    inferInstanceAs (Std.TransCmp (compareOn textPart))
  exact inferInstanceAs (Std.TransCmp (compareLex _ _))

theorem compareWith_eq_compareParts [Std.TransCmp order] (h : comparable a b) :
    compareWith order a b = compareParts order a b := by
  have hrefl : order "" "" = .eq := Std.ReflCmp.compare_self
  cases a <;> cases b <;> simp only [compareParts, compareLex, compareOn, number, textPart, blobPart]
  case null.null => simp [compareWith, hrefl]
  case integer.integer => simp [compareWith, hrefl, compare_mul _ _ unit_pos, storageClass]
  case integer.real i r =>
    rw [compareWith, compareIntReal_eq h]
    simp [hrefl, storageClass, StorageClass.rank]
  case real.integer r i =>
    have h : comparable (.integer i) (.real r) := by simpa [comparable, isNaN] using h
    rw [compareWith, compareIntReal_eq h, Ordering.swap_then, ← Std.OrientedCmp.eq_swap, ← Std.OrientedCmp.eq_swap]
    simp [hrefl, storageClass, StorageClass.rank]
  case real.real r s =>
    obtain ⟨hr, hs⟩ : Binary64.ofFloat r ≠ .nan ∧ Binary64.ofFloat s ≠ .nan := by simpa [comparable, isNaN] using h
    simpa [compareWith, hrefl, storageClass] using compare_eq_scaled (inRange_ofFloat r) (inRange_ofFloat s) hr hs
  case text.text => simp [compareWith, storageClass]
  case blob.blob => simp [compareWith, hrefl, storageClass]
  -- the others differ in their class
  all_goals rfl

theorem transCmp_builtin (h : order ∈ [binary, nocase, rtrim]) : Std.TransCmp order := by
  simp only [List.mem_cons, List.not_mem_nil, or_false] at h
  obtain rfl | rfl | rfl := h
  · exact inferInstanceAs (Std.TransCmp (compareOn String.toList))
  · exact inferInstanceAs (Std.TransCmp (compareOn fun s : String => s.toList.map Char.toLower))
  · exact inferInstanceAs (Std.TransCmp (compareOn fun s : String => dropTrailingSpaces s.toList))

theorem compareWith_swap [Std.OrientedCmp order] : compareWith order b a = (compareWith order a b).swap := by
  cases a <;> cases b <;> simp only [compareWith, Ordering.swap_swap]
  case integer.integer | text.text | blob.blob => exact Std.OrientedCmp.eq_swap
  case real.real => exact compare_swap _ _
  -- the others compare their classes, or an integer and a double in one order
  all_goals rfl

/-- The order of values under a built-in collation is total, and it is transitive on values that can be compared. -/
theorem compare_preorder (h : order ∈ [Text.binary, Text.nocase, Text.rtrim]) (a b : Value) :
    compareWith order b a = (compareWith order a b).swap ∧ ∀ c, comparable a b → comparable b c → comparable a c →
      ((compareWith order a b).isLE → (compareWith order b c).isLE → (compareWith order a c).isLE) ∧
        (compareWith order a b = .eq → compareWith order b c = .eq → compareWith order a c = .eq) := by
  have : Std.TransCmp order := transCmp_builtin h
  refine ⟨compareWith_swap, fun c hab hbc hac => ?_⟩
  rw [compareWith_eq_compareParts hab, compareWith_eq_compareParts hbc, compareWith_eq_compareParts hac]
  exact ⟨Std.TransCmp.isLE_trans, Std.TransCmp.eq_trans⟩

/-- The double `2 ^ 53` comes before the two integers that follow it. -/
theorem compare_preorder_rounded : ∃ r, comparable (.real r) (.integer 9007199254740993) ∧
    (compareWith Text.nocase (.real r) (.integer 9007199254740993)).isLE ∧
      (compareWith Text.nocase (.real r) (.integer 9007199254740994)).isLE := by
  refine ⟨Float.ofBits 0x4340000000000000, by decide +kernel, by decide +kernel, ?_⟩
  refine ((compare_preorder (by simp) _ (.integer 9007199254740993)).2 _ ?_ ?_ ?_).1 ?_ ?_ <;> decide +kernel

/-- Two integers that differ count as equal to the double `2 ^ 63`. -/
theorem compare_not_transitive : ∃ r, compare (.integer 9223372036854775807) (.real r) = .eq ∧
    compare (.real r) (.integer 9223372036854775806) = .eq ∧
      compare (.integer 9223372036854775807) (.integer 9223372036854775806) = .gt :=
  ⟨Float.ofBits 0x43E0000000000000, by decide +kernel⟩

end Value

end ScalarSql
