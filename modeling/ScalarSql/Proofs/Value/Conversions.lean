import ScalarSql.Value.Basic

/-!
# Conversions by affinity

A value that was converted by an affinity, or cast to it, is as the affinity wants it: to convert it again
changes nothing.
-/

namespace ScalarSql

namespace Value

variable {v : Value} {a : Affinity}

theorem integralIfExact_real (r : Float) :
    integralIfExact (.real r) = .real r ∨ ∃ i, integralIfExact (.real r) = .integer i := by
  let x := Binary64.ofFloat r
  by_cases h : x.isIntegral ∧ -exactBound ≤ x.truncate ∧ x.truncate < exactBound
  · exact .inr ⟨_, if_pos h⟩
  · exact .inl (if_neg h)

theorem integralIfExact_idem (v : Value) : v.integralIfExact.integralIfExact = v.integralIfExact := by
  cases v with
  | real r =>
    rcases integralIfExact_real r with h | ⟨i, h⟩
    · rw [h, h]
    · rw [h]
      rfl
  | _ => rfl

def NumberOrNull (v : Value) : Prop := v = .null ∨ v.isNumeric = true

theorem numberOrNull_ofFloat (x : Float) : NumberOrNull (ofFloat x) := by
  unfold ofFloat
  split
  · exact .inl rfl
  · exact .inr rfl

theorem numberOrNull_parseNumber (s : String) : NumberOrNull (parseNumber s).1 := by
  unfold parseNumber
  split
  · show NumberOrNull (ofNumeral _)
    unfold ofNumeral
    split
    · exact .inr rfl
    · exact numberOrNull_ofFloat _
  · exact .inr rfl

theorem NumberOrNull.toNumeric (v : Value) : NumberOrNull v.toNumeric := by
  cases v with
  | null => exact .inl rfl
  | integer _ => exact .inr rfl
  | real _ => exact .inr rfl
  | text s => exact numberOrNull_parseNumber s
  | blob b => exact numberOrNull_parseNumber _

theorem NumberOrNull.applyAffinity (ha : a = .numeric ∨ a = .integer) (h : NumberOrNull v) :
    v.applyAffinity a = v.integralIfExact := by
  rcases h with rfl | h
  · rcases ha with rfl | rfl <;> rfl
  · cases v with
    | integer _ => rcases ha with rfl | rfl <;> rfl
    | real _ => rcases ha with rfl | rfl <;> rfl
    | _ => cases h

theorem NumberOrNull.integralIfExact (h : NumberOrNull v) : NumberOrNull v.integralIfExact := by
  rcases h with rfl | h
  · exact .inl rfl
  · refine .inr ?_
    cases v with
    | real r =>
      rcases integralIfExact_real r with h | ⟨i, h⟩ <;> rw [h] <;> rfl
    | integer _ => rfl
    | _ => cases h

theorem applyAffinity_integralIfExact (ha : a = .numeric ∨ a = .integer) (h : NumberOrNull v) :
    v.integralIfExact.applyAffinity a = v.integralIfExact := by
  rw [h.integralIfExact.applyAffinity ha, integralIfExact_idem]

theorem applyAffinity_real_ofFloat (x : Float) : (ofFloat x).applyAffinity .real = ofFloat x := by
  unfold ofFloat
  split <;> rfl

/-- A value that was converted is as the affinity wants it. -/
theorem applyAffinity_idem (a : Affinity) (v : Value) : (v.applyAffinity a).applyAffinity a = v.applyAffinity a := by
  have hnumeric (a : Affinity) (ha : a = .numeric ∨ a = .integer) (s : String) :
      ((Value.text s).applyAffinity a).applyAffinity a = (Value.text s).applyAffinity a := by
    have htext : (Value.text s).applyAffinity a =
        if (parseNumber s).2 then (parseNumber s).1.integralIfExact else .text s := by
      rcases ha with rfl | rfl <;> rfl
    split at htext
    · rw [htext]
      exact applyAffinity_integralIfExact ha (numberOrNull_parseNumber s)
    · rw [htext, htext]
  cases a with
  | none => rfl
  | blob => rfl
  | text => cases v <;> rfl
  | numeric =>
    cases v with
    | text s => exact hnumeric .numeric (.inl rfl) s
    | real r => exact applyAffinity_integralIfExact (v := .real r) (.inl rfl) (.inr rfl)
    | _ => rfl
  | integer =>
    cases v with
    | text s => exact hnumeric .integer (.inr rfl) s
    | real r => exact applyAffinity_integralIfExact (v := .real r) (.inr rfl) (.inr rfl)
    | _ => rfl
  | real =>
    cases v with
    | text s =>
      have htext : (Value.text s).applyAffinity .real =
          if (parseNumber s).2 then ofFloat (parseNumber s).1.asReal else .text s := rfl
      split at htext
      · rw [htext, applyAffinity_real_ofFloat]
      · rw [htext, htext]
    | _ => rfl

theorem applyAffinity_cast (a : Affinity) (v : Value) : (v.cast a).applyAffinity a = v.cast a := by
  unfold cast
  split
  · cases a <;> rfl
  · cases a with
    | none => rfl
    | blob => rfl
    | text => rfl
    | numeric => exact applyAffinity_integralIfExact (.inl rfl) (.toNumeric v)
    | integer => rfl
    | real => exact applyAffinity_real_ofFloat _

end Value

end ScalarSql
