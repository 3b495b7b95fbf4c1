import ScalarSql.Proofs.Value.Reals
import ScalarSql.Value.Basic

/-!
# Numeric text and its grammar

`Numeral.Spells` is the grammar `[+-]? (D+ (. D*)? | . D+) ([eE] [+-]? D+)?`, with the parts that a text of it
spells. What `Numeral.scan?` takes is in the grammar, and it leaves no more than any other numeral would that the
text starts with; so it takes the longest one.
-/

namespace ScalarSql

open Binary64 Decimal Text

namespace Numeral

/-! ## The grammar -/

def Digits (ds : List Char) : Prop := ∀ d ∈ ds, d.isDigit = true

inductive Sign : List Char → Bool → Prop
  | none : Sign [] false
  | plus : Sign ['+'] false
  | minus : Sign ['-'] true

/-- An optional point, with the digits after it. -/
inductive Fraction : List Char → Option (List Char) → Prop
  | none : Fraction [] none
  | point {ds} (hds : Digits ds) : Fraction ('.' :: ds) (some ds)

inductive Exponent : List Char → Option Int → Prop
  | none : Exponent [] none
  | power {c s ds negative} (hmark : c = 'e' ∨ c = 'E') (hsign : Sign s negative) (hds : Digits ds) (hne : ds ≠ []) :
      Exponent (c :: (s ++ ds)) (some (signed negative (ofDigits ds)))

/-- The text is a numeral with these parts. -/
inductive Spells : List Char → Numeral → Prop
  | parts {s negative whole f fraction e exponent} (hsign : Sign s negative) (hwhole : Digits whole)
      (hfraction : Fraction f fraction) (hexponent : Exponent e exponent)
      (hne : whole ≠ [] ∨ ∃ ds, fraction = some ds ∧ ds ≠ []) :
      Spells (s ++ (whole ++ (f ++ e))) ⟨negative, whole, fraction, exponent⟩

/-- The longest numeral that the characters start with. -/
structure Longest (s p : List Char) (n : Numeral) : Prop where
  spells : Spells p n
  starts : p <+: s
  longest : ∀ {q m}, Spells q m → q <+: s → q.length ≤ p.length

variable {p r s cs ds rest whole : List Char} {n m : Numeral} {negative : Bool} {c : Char}

/-! ## What is taken is a numeral -/

theorem sign_takeSign (cs : List Char) : ∃ s, Sign s (takeSign cs).1 ∧ cs = s ++ (takeSign cs).2 := by
  unfold takeSign
  split
  · exact ⟨_, .minus, rfl⟩
  · exact ⟨_, .plus, rfl⟩
  · exact ⟨_, .none, rfl⟩

theorem digits_takeDigits (cs : List Char) : Digits (takeDigits cs).1 ∧ cs = (takeDigits cs).1 ++ (takeDigits cs).2 :=
  ⟨fun _ => List.mem_takeWhile_imp, List.takeWhile_append_dropWhile.symm⟩

theorem fraction_takeFraction (whole cs : List Char) :
    ∃ f, Fraction f (takeFraction whole cs).1 ∧ cs = f ++ (takeFraction whole cs).2 ∧
      ∀ ds, (takeFraction whole cs).1 = some ds → whole ≠ [] ∨ ds ≠ [] := by
  unfold takeFraction
  split
  · rename_i cs
    obtain ⟨hds, hcs⟩ := digits_takeDigits cs
    dsimp only
    split
    · rename_i hne
      refine ⟨_, .point hds, congrArg _ hcs, ?_⟩
      rintro _ ⟨⟩
      exact hne
    · exact ⟨_, .none, rfl, by rintro _ ⟨⟩⟩
  · exact ⟨_, .none, rfl, by rintro _ ⟨⟩⟩

theorem exponent_takeExponent (cs : List Char) :
    ∃ e, Exponent e (takeExponent cs).1 ∧ cs = e ++ (takeExponent cs).2 := by
  unfold takeExponent
  split
  · rename_i c cs
    split
    · rename_i hmark
      obtain ⟨s, hsign, hs⟩ := sign_takeSign cs
      obtain ⟨hds, hcs⟩ := digits_takeDigits (takeSign cs).2
      simp only [takePower]
      by_cases hne : (takeDigits (takeSign cs).2).1 = []
      · simp only [if_pos hne]
        exact ⟨_, .none, rfl⟩
      · simp only [if_neg hne]
        refine ⟨_, .power hmark hsign hds hne, ?_⟩
        rw [List.cons_append, List.append_assoc, ← hcs, ← hs]
    · exact ⟨_, .none, rfl⟩
  · exact ⟨_, .none, rfl⟩

theorem scan?_sound (h : scan? cs = some (n, rest)) : ∃ p, Spells p n ∧ cs = p ++ rest := by
  obtain ⟨s, hsign, hs⟩ := sign_takeSign cs
  obtain ⟨hds, hcs⟩ := digits_takeDigits (takeSign cs).2
  obtain ⟨f, hfraction, hf, hne⟩ :=
    fraction_takeFraction (takeDigits (takeSign cs).2).1 (takeDigits (takeSign cs).2).2
  obtain ⟨e, hexponent, he⟩ :=
    exponent_takeExponent (takeFraction (takeDigits (takeSign cs).2).1 (takeDigits (takeSign cs).2).2).2
  simp only [scan?] at h
  split at h
  · cases h
  · rename_i hsome
    cases h
    refine ⟨_, .parts hsign hds hfraction hexponent ?_, ?_⟩
    · cases hpoint : (takeFraction (takeDigits (takeSign cs).2).1 (takeDigits (takeSign cs).2).2).1 with
      | none => exact .inl fun hnil => hsome ⟨hnil, hpoint⟩
      | some ds => exact (hne ds hpoint).imp_right fun hds => ⟨ds, rfl, hds⟩
    · rw [List.append_assoc, List.append_assoc, List.append_assoc, ← he, ← hf, ← hcs, ← hs]

/-! ## No other numeral leaves less -/

theorem takeDigits_append (hds : Digits ds) (r : List Char) :
    takeDigits (ds ++ r) = (ds ++ (takeDigits r).1, (takeDigits r).2) := by
  simp only [takeDigits, List.takeWhile_append_of_pos hds, List.dropWhile_append_of_pos hds]

theorem takeDigits_cons (hc : c.isDigit = false) (r : List Char) : takeDigits (c :: r) = ([], c :: r) := by
  simp [takeDigits, hc]

theorem takeFraction_point (hds : Digits ds) (hne : whole ≠ [] ∨ ds ≠ []) (r : List Char) :
    takeFraction whole ('.' :: (ds ++ r)) = (some (ds ++ (takeDigits r).1), (takeDigits r).2) := by
  simp only [takeFraction, takeDigits_append hds]
  rw [if_pos (hne.imp_right fun hne => by simp [hne])]

/-- A sign is taken if no other sign follows. -/
theorem takeSign_append (h : Sign s negative) (hc : c.isDigit = true ∨ c = '.') (r : List Char) :
    takeSign (s ++ c :: r) = (negative, c :: r) := by
  cases h with
  | none =>
    simp only [List.nil_append]
    unfold takeSign
    split
    · rename_i heq
      cases heq
      simp at hc
    · rename_i heq
      cases heq
      simp at hc
    · rfl
  | plus => rfl
  | minus => rfl

theorem takeExponent_power (hmark : c = 'e' ∨ c = 'E') (hsign : Sign s negative) (hds : Digits ds) (hne : ds ≠ [])
    (r : List Char) : takeExponent (c :: (s ++ (ds ++ r))) =
      (some (signed negative (ofDigits (ds ++ (takeDigits r).1))), (takeDigits r).2) := by
  obtain ⟨d, ds, rfl⟩ := List.exists_cons_of_ne_nil hne
  have hd := takeSign_append hsign (.inl (hds d List.mem_cons_self)) (ds ++ r)
  rw [← List.cons_append] at hd
  simp only [takeExponent, if_pos hmark, hd, takePower, takeDigits_append hds]
  rw [if_neg (by simp)]
  rfl

theorem takeFraction_other (hc : c ≠ '.') (r : List Char) : takeFraction whole (c :: r) = (none, c :: r) := by
  unfold takeFraction
  split
  · rename_i heq
    cases heq
    exact absurd rfl hc
  · rfl

theorem length_takeDigits (r : List Char) : (takeDigits r).2.length ≤ r.length := (List.dropWhile_suffix _).length_le

theorem length_takeFraction (whole r : List Char) : (takeFraction whole r).2.length ≤ r.length := by
  obtain ⟨f, -, hf, -⟩ := fraction_takeFraction whole r
  exact List.IsSuffix.length_le ⟨f, hf.symm⟩

theorem length_takeExponent (r : List Char) : (takeExponent r).2.length ≤ r.length := by
  obtain ⟨e, -, he⟩ := exponent_takeExponent r
  exact List.IsSuffix.length_le ⟨e, he.symm⟩

theorem isDigit_mark (hmark : c = 'e' ∨ c = 'E') : c.isDigit = false ∧ c ≠ '.' := by
  rcases hmark with rfl | rfl <;> decide

/-- The scanner takes at least the numeral, and no other parts if nothing follows it. -/
theorem scan?_append (h : Spells p n) (r : List Char) :
    ∃ m rest, scan? (p ++ r) = some (m, rest) ∧ rest.length ≤ r.length ∧ (r = [] → m = n) := by
  obtain @⟨s, negative, whole, f, fraction, e, exponent, hsign, hwhole, hfraction, hexponent, hne⟩ := h
  have hstart : takeSign (s ++ (whole ++ (f ++ e)) ++ r) = (negative, whole ++ (f ++ (e ++ r))) := by
    cases whole with
    | cons c cs => simpa using takeSign_append hsign (.inl (hwhole c List.mem_cons_self)) (cs ++ (f ++ (e ++ r)))
    | nil =>
      cases hfraction with
      | none => simp at hne
      | @point ds hds => simpa using takeSign_append hsign (.inr rfl) (ds ++ (e ++ r))
  simp only [scan?, hstart, takeDigits_append hwhole]
  -- what follows the digits before the point is a point, a power of ten, or the rest
  cases hfraction with
  | none =>
    have hwhole : whole ≠ [] := by simpa using hne
    cases hexponent with
    | none =>
      rw [List.nil_append, List.nil_append, if_neg (by simp [hwhole])]
      refine ⟨_, _, rfl, ?_, ?_⟩
      · exact (length_takeExponent _).trans ((length_takeFraction _ _).trans (length_takeDigits r))
      · rintro rfl
        simp [takeDigits, takeFraction, takeExponent]
    | @power c s ds b hmark hsign hds hne =>
      obtain ⟨hdigit, hpoint⟩ := isDigit_mark hmark
      simp only [List.nil_append, List.cons_append, List.append_assoc, takeDigits_cons hdigit, List.append_nil,
        takeFraction_other hpoint, takeExponent_power hmark hsign hds hne]
      rw [if_neg (by simp [hwhole])]
      refine ⟨_, _, rfl, length_takeDigits r, ?_⟩
      rintro rfl
      simp [takeDigits]
  | @point fs hfs =>
    have hne : whole ≠ [] ∨ fs ≠ [] := by simpa using hne
    simp only [List.cons_append, takeDigits_cons (show Char.isDigit '.' = false from rfl), List.append_nil,
      takeFraction_point hfs hne]
    rw [if_neg (by simp)]
    cases hexponent with
    | none =>
      refine ⟨_, _, rfl, (length_takeExponent _).trans (length_takeDigits r), ?_⟩
      rintro rfl
      simp [takeDigits, takeExponent]
    | @power c s ds b hmark hsign hds hne =>
      simp only [List.cons_append, List.append_assoc, takeDigits_cons (isDigit_mark hmark).1, List.append_nil,
        takeExponent_power hmark hsign hds hne]
      refine ⟨_, _, rfl, length_takeDigits r, ?_⟩
      rintro rfl
      simp [takeDigits]

theorem Spells.scan? (h : Spells p n) : scan? p = some (n, []) := by
  obtain ⟨m, rest, hscan, hlen, hparts⟩ := scan?_append h []
  rw [List.append_nil, hparts rfl, List.eq_nil_of_length_eq_zero (Nat.le_zero.1 hlen)] at hscan
  exact hscan

theorem Spells.unique (h : Spells p n) (h' : Spells p m) : m = n := by
  cases h.scan?.symm.trans h'.scan?
  rfl

theorem longest_of_scan? (h : Numeral.scan? s = some (n, rest)) : ∃ p, Longest s p n ∧ s = p ++ rest := by
  obtain ⟨p, hp, rfl⟩ := scan?_sound h
  refine ⟨p, ⟨hp, List.prefix_append _ _, ?_⟩, rfl⟩
  rintro q m hq ⟨r, hr⟩
  obtain ⟨m, rest', hscan, hlen, -⟩ := scan?_append hq r
  rw [hr, h] at hscan
  cases hscan
  have hsize := congrArg List.length hr
  simp only [List.length_append] at hsize
  omega

theorem scan?_isSome (h : Spells p n) (hp : p <+: s) : (Numeral.scan? s).isSome := by
  obtain ⟨r, rfl⟩ := hp
  obtain ⟨m, rest, hscan, -⟩ := scan?_append h r
  rw [hscan]
  rfl

/-! ## Blanks around a numeral -/

theorem not_isBlank_of_isDigit (hc : c.isDigit = true) : isBlank c = false := by
  have hrange : 48 ≤ c.toNat ∧ c.toNat ≤ 57 := by
    simpa [Char.isDigit, UInt32.le_iff_toNat_le] using hc
  simp only [isBlank, Bool.or_eq_false_iff, Bool.and_eq_false_iff, decide_eq_false_iff_not, beq_eq_false_iff_ne]
  omega

variable (h : Spells p n)

include h

theorem Spells.not_isBlank (hc : c ∈ p) : isBlank c = false := by
  have hdigits {ds : List Char} (hds : Digits ds) (hc : c ∈ ds) := not_isBlank_of_isDigit (hds c hc)
  have hsign {s : List Char} {b : Bool} (hs : Sign s b) (hc : c ∈ s) : isBlank c = false := by
    cases hs <;> simp at hc <;> subst hc <;> rfl
  obtain @⟨s, negative, whole, f, fraction, e, exponent, hs, hwhole, hfraction, hexponent, -⟩ := h
  simp only [List.mem_append] at hc
  rcases hc with hc | hc | hc | hc
  · exact hsign hs hc
  · exact hdigits hwhole hc
  · cases hfraction with
    | none => cases hc
    | point hds =>
      rcases List.mem_cons.1 hc with rfl | hc
      · rfl
      · exact hdigits hds hc
  · cases hexponent with
    | none => cases hc
    | power hmark hs hds _ =>
      rcases List.mem_cons.1 hc with rfl | hc
      · rcases hmark with rfl | rfl <;> rfl
      · exact (List.mem_append.1 hc).elim (hsign hs) (hdigits hds)

variable (hr : ∀ c ∈ r, isBlank c = true)

include hr

theorem scan?_blanks : Numeral.scan? (p ++ r) = some (n, r) := by
  obtain ⟨m, rest, hscan, hlen, -⟩ := scan?_append h r
  obtain ⟨q, hq, heq⟩ := scan?_sound hscan
  have hsize := congrArg List.length heq
  simp only [List.length_append] at hsize
  obtain ⟨t, rfl⟩ := List.prefix_of_prefix_length_le ⟨r, rfl⟩ ⟨rest, heq.symm⟩ (by omega : p.length ≤ q.length)
  rw [List.append_assoc, List.append_cancel_left_eq] at heq
  -- what was taken after the numeral is blank and part of a numeral, so there is none of it
  have ht : t = [] := by
    refine List.eq_nil_iff_forall_not_mem.2 fun c hc => ?_
    have hblank := hr c (heq ▸ List.mem_append_left rest hc)
    rw [hq.not_isBlank (List.mem_append_right p hc)] at hblank
    cases hblank
  subst ht
  rw [List.append_nil] at hq
  rw [hscan, h.unique hq, heq, List.nil_append]

theorem rdropWhile_blanks : (p ++ r).rdropWhile isBlank = p := by
  have hp : p.rdropWhile isBlank = p :=
    List.rdropWhile_eq_self_iff.2 fun hne => by rw [h.not_isBlank (List.getLast_mem hne)]; decide
  rw [List.rdropWhile] at hp ⊢
  rw [List.reverse_append, List.dropWhile_append_of_pos fun c hc => hr c (List.mem_reverse.1 hc), hp]

theorem trimLeft_blanks : trimLeft (r ++ (p ++ rest)) = p ++ rest := by
  rw [trimLeft, List.dropWhile_append_of_pos hr]
  cases p with
  | nil => cases h.scan?
  | cons c p => exact List.dropWhile_cons_of_neg (by rw [h.not_isBlank List.mem_cons_self]; decide)

end Numeral

/-! ## The number of a numeral -/

namespace Binary64

open Float.Model

theorem roundWithAccuracy_ne_nan (s : UnpackedFloat.Sign) (m : Nat) (e : Int) (a : UnpackedFloat.Accuracy) :
    UnpackedFloat.roundWithAccuracy Format.binary64 s m e a ≠ .notANumber := by
  simp only [UnpackedFloat.roundWithAccuracy]
  split <;> rintro ⟨⟩

/-- A number times a power of ten, or divided by one, is a number. -/
theorem scale_ne_nan {u : UnpackedFloat} (hu : u ≠ .notANumber) (s : UnpackedFloat.Sign) (m : Nat) (e : Int)
    (hm : 0 < m) : UnpackedFloat.mul Format.binary64 u (.finite s m e hm) ≠ .notANumber ∧
      UnpackedFloat.div Format.binary64 u (.finite s m e hm) ≠ .notANumber := by
  cases u with
  | notANumber => exact absurd rfl hu
  | finite t n f hn => exact ⟨roundWithAccuracy_ne_nan _ _ _ _, roundWithAccuracy_ne_nan _ _ _ _⟩
  | _ => exact ⟨by rintro ⟨⟩, by rintro ⟨⟩⟩

theorem powerOfTen_finite {x : Float} (hx : x ∈ Float.exactlyRepresentablePowersOfTen) :
    ∃ s m e hm, x.toModel.unpack = .finite s m e hm := by
  have hall : ∀ x ∈ Float.exactlyRepresentablePowersOfTen.toList,
      x.toModel.unpack.isFinite = true ∧ (ofFloat x).isZero = false := by decide +kernel
  obtain ⟨hfinite, hzero⟩ := hall x (Array.mem_toList_iff.2 hx)
  cases h : x.toModel.unpack with
  | finite s m e hm => exact ⟨s, m, e, hm, rfl⟩
  | zero s =>
    rw [isZero_iff.2 ⟨s, h⟩] at hzero
    cases hzero
  | _ =>
    rw [h] at hfinite
    cases hfinite

theorem toFloat_ne_nan (n : UInt64) : n.toFloat.toModel.unpack ≠ .notANumber := by
  refine unpack_pack_ne ?_
  simp only [UnpackedFloat.ofUInt64, UnpackedFloat.ofNat, UnpackedFloat.ofInt, UnpackedFloat.normalize]
  split
  · exact roundWithAccuracy_ne_nan _ _ _ _
  · rintro ⟨⟩
  · exact roundWithAccuracy_ne_nan _ _ _ _

theorem unpacked_ofScientific_ne_nan (m : Nat) (e : Int) :
    UnpackedFloat.ofScientific Format.binary64 m e ≠ .notANumber := by
  rw [UnpackedFloat.ofScientific]
  split
  · rintro ⟨⟩
  split
  · rintro ⟨⟩
  split
  · rintro ⟨⟩
  split
  · exact roundWithAccuracy_ne_nan _ _ _ _
  · exact roundWithAccuracy_ne_nan _ _ _ _

theorem ofScientific_ne_nan (m : Nat) (s : Bool) (e : Nat) : ofFloat (Float.ofScientific m s e) ≠ .nan := by
  rw [ne_eq, eq_nan_iff, Float.ofScientific]
  split
  · rename_i h
    have he : e < Float.exactlyRepresentablePowersOfTen.size := Nat.lt_succ_of_le h.2
    obtain ⟨t, n, f, hn, hpower⟩ := powerOfTen_finite (Array.getElem_mem he)
    have hscale := scale_ne_nan (toFloat_ne_nan m.toUInt64) t n f hn
    rw [← hpower] at hscale
    cases s with
    | false => exact unpack_pack_ne hscale.1
    | true => exact unpack_pack_ne hscale.2
  · exact unpack_pack_ne (unpacked_ofScientific_ne_nan _ _)

end Binary64

theorem Decimal.ofDigits_toDigits (n : Nat) : ofDigits (toDigits n) = n :=
  Nat.ofDigitChars_toDigits (by decide) (by decide)

namespace Value

variable {before after : List Char}

theorem closestReal_ne_nan (digits : Nat) (e : Int) : Binary64.ofFloat (Decimal.closestReal digits e) ≠ .nan := by
  unfold closestReal
  dsimp only
  split
  · decide +kernel
  split
  · decide +kernel
  · exact ofScientific_ne_nan _ _ _

theorem ofNumeral_eq (n : Numeral) : ofNumeral n =
    if n.isInteger ∧ -2 ^ 63 ≤ n.integer ∧ n.integer < 2 ^ 63 then .integer (Int64.ofInt n.integer)
    else .real n.real := by
  have hreal : Binary64.ofFloat n.real ≠ .nan := by
    have h := closestReal_ne_nan (Decimal.ofDigits (n.whole ++ n.fraction.getD []))
      (n.exponent.getD 0 - (n.fraction.getD []).length)
    rw [Numeral.real, Decimal.readReal]
    cases n.negative with
    | false => exact h
    | true => exact Binary64.neg_ne_nan h
  have hmax : n.integer ≤ Binary64.int64Max ↔ n.integer < 2 ^ 63 := Int.le_sub_one_iff
  simp only [ofNumeral, ofFloat, if_neg hreal, hmax]
  rfl

/-- The number of a text is that of the longest numeral that it starts with after blanks, and zero if there is none.
The text counts as a number if it is a numeral with blanks around it. -/
theorem parseNumber_longest (t : String) :
    ((∀ p n, p <+: trimLeft t.toList → ¬ Numeral.Spells p n) ∧ parseNumber t = (.integer 0, false) ∨
        ∃ p n, Numeral.Longest (trimLeft t.toList) p n ∧ (∀ m, Numeral.Spells p m → m = n) ∧ (parseNumber t).1 =
          if n.isInteger ∧ -2 ^ 63 ≤ n.integer ∧ n.integer < 2 ^ 63 then .integer (Int64.ofInt n.integer)
          else .real n.real) ∧
      ((parseNumber t).2 = true ↔ ∃ n, Numeral.Spells ((trimLeft t.toList).rdropWhile isBlank) n) := by
  rw [parseNumber]
  generalize trimLeft t.toList = s
  cases hscan : Numeral.scan? s with
  | none =>
    have hnone (p n) (hp : p <+: s) (h : Numeral.Spells p n) : False := by
      have hsome := Numeral.scan?_isSome h hp
      rw [hscan] at hsome
      cases hsome
    refine ⟨.inl ⟨hnone, rfl⟩, iff_of_false Bool.noConfusion ?_⟩
    rintro ⟨n, h⟩
    exact hnone _ n (List.rdropWhile_prefix _ _) h
  | some read =>
    obtain ⟨n, rest⟩ := read
    obtain ⟨p, hlongest, hs⟩ := Numeral.longest_of_scan? hscan
    refine ⟨.inr ⟨p, n, hlongest, fun m hm => hlongest.spells.unique hm, ofNumeral_eq n⟩, fun hblank => ?_, ?_⟩
    · rw [hs, Numeral.rdropWhile_blanks hlongest.spells (List.all_eq_true.1 hblank)]
      exact ⟨n, hlongest.spells⟩
    · rintro ⟨m, hm⟩
      have hblank (c) (hc : c ∈ s.rtakeWhile isBlank) : isBlank c = true := List.mem_rtakeWhile_imp hc
      have htail := Numeral.scan?_blanks hm hblank
      rw [List.rdropWhile_append_rtakeWhile, hscan] at htail
      cases htail
      exact List.all_eq_true.2 hblank

/-! ## Integers in text -/

theorem spells_intText (i : Int) :
    Numeral.Spells (intText i).toList ⟨decide (i < 0), toDigits i.natAbs, none, none⟩ := by
  have hdigits : Numeral.Digits (toDigits i.natAbs) :=
    fun d => Nat.isDigit_of_mem_toDigits (by decide) (by decide)
  have hparts {s : List Char} {b : Bool} (hsign : Numeral.Sign s b) :=
    Numeral.Spells.parts hsign hdigits .none .none (.inl Nat.toDigits_ne_nil)
  rw [intText, String.toList_ofList]
  by_cases hneg : i < 0
  · simpa [hneg] using hparts .minus
  · simpa [hneg] using hparts .none

theorem parseNumber_intText (v : Int64) (hbefore : allBlank before) (hafter : allBlank after) :
    parseNumber (String.ofList (before ++ ((intText v.toInt).toList ++ after))) = (.integer v, true) := by
  have hspells := spells_intText v.toInt
  have hinteger : signed (decide (v.toInt < 0)) v.toInt.natAbs = v.toInt := by
    simp only [signed, decide_eq_true_eq]
    split <;> omega
  have hvalue := ofNumeral_eq ⟨decide (v.toInt < 0), toDigits v.toInt.natAbs, none, none⟩
  rw [Numeral.integer, ofDigits_toDigits, hinteger, if_pos ⟨rfl, v.le_toInt, v.toInt_lt⟩, Int64.ofInt_toInt] at hvalue
  rw [parseNumber, String.toList_ofList, Numeral.trimLeft_blanks hspells (List.all_eq_true.1 hbefore),
    Numeral.scan?_blanks hspells (List.all_eq_true.1 hafter)]
  exact Prod.ext hvalue hafter

/-- The text of a 64-bit integer, with blanks around it or without, is read as the integer by every conversion to a
number. -/
theorem integer_text_recovered (v : Int64) {s : String} (hs : (Value.integer v).toText? = some s)
    {before after : List Char} (hbefore : allBlank before) (hafter : allBlank after) :
    let t := String.ofList (before ++ (s.toList ++ after))
    parseNumber t = (.integer v, true) ∧ (Value.text t).toNumeric = .integer v ∧
      ∀ a, a = .numeric ∨ a = .integer →
        (Value.text t).applyAffinity a = .integer v ∧ (Value.text t).cast a = .integer v := by
  cases hs
  intro t
  have hparse : parseNumber t = (.integer v, true) := parseNumber_intText v hbefore hafter
  have hnumeric : (Value.text t).toNumeric = .integer v := congrArg Prod.fst hparse
  refine ⟨hparse, hnumeric, ?_⟩
  rintro a (rfl | rfl)
  · exact ⟨by simp only [applyAffinity, hparse]; rfl, congrArg integralIfExact hnumeric⟩
  · exact ⟨by simp only [applyAffinity, hparse]; rfl, congrArg (Value.integer ∘ numberInteger) hnumeric⟩

theorem integer_text_recovered_least :
    (Value.text "\n-9223372036854775808 ").cast .integer = .integer Int64.minValue :=
  ((@integer_text_recovered Int64.minValue _ rfl ['\n'] [' '] rfl rfl).2.2 .integer (.inr rfl)).2

end Value

end ScalarSql
