import Mathlib.Data.Int.Star
import Mathlib.Data.Nat.Cast.Order.Ring
import Mathlib.Tactic.SplitIfs
import ScalarSql.Function.Builtin

/-!
# Parts of a text

`substr` is the characters at a window of positions (`Text.substr_window`) as long as its sums stay in 64 bits. They
leave that range for counts near its ends, and the count that stands for a missing one is too small for a start
far before the text (`Text.substr_loses_end`).
-/

namespace ScalarSql.Text

open Binary64 (int64Min int64Max)
open Builtin (substr substrStart substrTurn substrChars clampTo)

/-- The characters of a text at the positions from `lo` and before `hi`, where the first character is at one. -/
def window (lo hi : Int) (cs : List Char) : List Char :=
  ((cs.zipIdx 1).filter fun p => lo ≤ p.2 ∧ p.2 < hi).map (·.1)

/-- The position that a start stands for; a negative one counts from the end. -/
def position (len start : Int) : Int :=
  if 0 < start then start else if start < 0 then len + start + 1 else 0

/-- The sums made for the first position and the count, and then those two numbers, without a bound. -/
def startSums (len start count : Int) : List Int × Int × Int :=
  if start < 0 then
    if start + len < 0 then ([start + len, count + (start + len)], 0, count + (start + len))
    else ([start + len], start + len, count)
  else if 0 < start then ([start - 1], start - 1, count)
  else ([count - 1], start, count - 1)

/-- The sums made for a part of a text that starts at `start`, counted from zero. -/
def turnSums (start count : Int) : List Int :=
  if count < 0 then
    if start + count < 0 then [start + count, -count, -count + (start + count), 0 + (-count + (start + count))]
    else [start + count, -count, start + count + -count]
  else [start + count]

/-- Every sum made for a part of a text is a 64-bit integer. -/
def SumsFit (len start count : Int) : Prop :=
  let (made, s, c) := startSums len start count
  ∀ x ∈ made ++ turnSums s c, int64Min ≤ x ∧ x ≤ int64Max

variable {cs : List Char} {start count : Int64}

theorem window_eq (lo hi : Int) (cs : List Char) : window lo hi cs = (cs.take (hi - 1).toNat).drop (lo - 1).toNat := by
  have hfrom (k : Nat) : ((cs.zipIdx k).filter fun p => lo ≤ p.2 ∧ p.2 < hi).map (·.1) =
      (cs.take (hi - k).toNat).drop (lo - k).toNat := by
    induction cs generalizing k with
    | nil => simp
    | cons c cs ih =>
      have htail := ih (k + 1)
      obtain hk | hk := lt_or_ge (k : Int) hi
      · rw [show (hi - k).toNat = (hi - (k + 1 : Nat)).toNat + 1 by omega, List.take_succ_cons]
        obtain hl | hl := lt_or_ge (k : Int) lo
        · rw [show (lo - k).toNat = (lo - (k + 1 : Nat)).toNat + 1 by omega, List.drop_succ_cons, ← htail]
          simp [hl.not_ge]
        · rw [show (lo - (k + 1 : Nat)).toNat = 0 by omega] at htail
          simp_all
      · rw [show (hi - (k + 1 : Nat)).toNat = 0 by omega] at htail
        rw [show (hi - k).toNat = 0 by omega]
        simpa [hk.not_gt] using htail
  exact hfrom 1

theorem sumsFit_iff {len start count : Int} (hlen : 0 ≤ len) (hlen' : len ≤ int64Max)
    (hs : int64Min ≤ start ∧ start ≤ int64Max) (hc : int64Min ≤ count ∧ count ≤ int64Max) :
    SumsFit len start count ↔ int64Min < count + min 0 (position len start - 1) ∧
      position len start - 1 + count ≤ int64Max := by
  have h63 : pow2 63 = 9223372036854775808 := by decide
  simp only [SumsFit, startSums, turnSums, position, int64Min, int64Max, h63] at *
  split_ifs <;> simp <;> omega

theorem substrStart_toInt (len start count : Int64) (hlen : 0 ≤ len.toInt)
    (h : int64Min < count.toInt + min 0 (position len.toInt start.toInt - 1)) :
    (substrStart len start count).1.toInt = max 0 (position len.toInt start.toInt - 1) ∧
      (substrStart len start count).2.toInt = count.toInt + min 0 (position len.toInt start.toInt - 1) := by
  have hl := len.toInt_lt
  have hs := start.le_toInt
  have hs' := start.toInt_lt
  have hc := count.toInt_lt
  have h63 : pow2 63 = 9223372036854775808 := by decide
  simp only [position, int64Min, h63] at h ⊢
  simp only [substrStart, Int64.lt_iff_toInt_lt, Int64.toInt_add, Int64.toInt_zero]
  split_ifs <;> simp only [Int64.toInt_add, Int64.toInt_sub, Int64.toInt_zero, Int64.toInt_one, Int.bmod_def] at *
    <;> omega

theorem substrTurn_toInt (start count : Int64) (hs : 0 ≤ start.toInt) (hc : int64Min < count.toInt)
    (h : start.toInt + count.toInt ≤ int64Max) :
    (substrTurn start count).1.toInt = (if 0 ≤ count.toInt then start.toInt else max 0 (start.toInt + count.toInt)) ∧
      ((substrTurn start count).1 + (substrTurn start count).2).toInt =
        if 0 ≤ count.toInt then start.toInt + count.toInt else start.toInt := by
  have hl := start.toInt_lt
  have h63 : pow2 63 = 9223372036854775808 := by decide
  simp only [int64Min, int64Max, h63] at hc h
  simp only [substrTurn, Int64.lt_iff_toInt_lt, Int64.toInt_add, Int64.toInt_zero]
  split_ifs <;> simp only [Int64.toInt_add, Int64.toInt_neg, Int64.toInt_zero, Int.bmod_def, true_and] at * <;> omega

theorem drop_take_clampTo {len lo hi : Int64} {a b : Nat} (hlen : len.toInt = cs.length) (hlo : lo.toInt.toNat = a)
    (hhi : hi.toInt.toNat = b) : (cs.take (clampTo len hi)).drop (clampTo len lo) = (cs.take b).drop a := by
  subst hlo hhi
  have htake : cs.take (clampTo len hi) = cs.take hi.toInt.toNat := by
    rw [List.take_eq_take_iff, clampTo]
    omega
  rw [htake, clampTo]
  obtain h | h := le_total lo.toInt len.toInt
  · rw [min_eq_right h, show (max 0 lo.toInt).toNat = lo.toInt.toNat by omega]
  · rw [List.drop_eq_nil_of_le, List.drop_eq_nil_of_le] <;> rw [List.length_take] <;> omega

theorem substrChars_eq (hlen : cs.length ≤ int64Max) (h : SumsFit cs.length start.toInt count.toInt) :
    substrChars cs start count = if 0 ≤ count.toInt
      then window (position cs.length start.toInt) (position cs.length start.toInt + count.toInt) cs
      else window (position cs.length start.toInt + count.toInt) (position cs.length start.toInt) cs := by
  have hint : (Int64.ofNat cs.length).toInt = cs.length := Int64.toInt_ofNat_of_lt (by
    have h63 : int64Max = 2 ^ 63 - 1 := by decide
    omega)
  obtain ⟨hlow, hhigh⟩ := (sumsFit_iff (Int.natCast_nonneg _) hlen ⟨start.le_toInt, Int.le_sub_one_of_lt start.toInt_lt⟩
    ⟨count.le_toInt, Int.le_sub_one_of_lt count.toInt_lt⟩).1 h
  obtain ⟨hs, hc⟩ := substrStart_toInt (.ofNat cs.length) start count (by omega) (by rwa [hint])
  rw [hint] at hs hc
  simp only [substrChars]
  generalize substrStart (.ofNat cs.length) start count = started at hs hc ⊢
  obtain ⟨hlo, hhi⟩ := substrTurn_toInt started.1 started.2 (by omega) (by omega) (by omega)
  -- before or behind the position, the window is the same once cut at the start of the text
  split_ifs at hlo hhi ⊢ <;> rw [window_eq] <;> refine drop_take_clampTo hint ?_ ?_ <;> omega

/-- `substr` is the characters from the position of the start on, as many as the count, or those before it if the count
is negative, exactly as long as its sums are 64-bit integers. Without a count it is those up to as many as the text
has, and one more; they are all that follow unless the start lies further before the text than that. -/
theorem substr_window (t : String) (start count : Int64) (ht : t.length < int64Max) :
    (SumsFit t.length start.toInt count.toInt ↔
      int64Min < count.toInt + min 0 (position t.length start.toInt - 1) ∧
        position t.length start.toInt - 1 + count.toInt ≤ int64Max) ∧
    (SumsFit t.length start.toInt count.toInt →
      substr [.text t, .integer start, .integer count] = .text (.ofList (if 0 ≤ count.toInt
        then window (position t.length start.toInt) (position t.length start.toInt + count.toInt) t.toList
        else window (position t.length start.toInt + count.toInt) (position t.length start.toInt) t.toList))) ∧
    (SumsFit t.length start.toInt (t.length + 1) →
      substr [.text t, .integer start] = .text (.ofList (window (position t.length start.toInt)
        (position t.length start.toInt + (t.length + 1)) t.toList)) ∧
      (-(t.length + 1 : Int) ≤ start.toInt →
        substr [.text t, .integer start] =
          .text (.ofList (window (position t.length start.toInt) (t.length + 1) t.toList)))) := by
  rw [← String.length_toList] at ht ⊢
  refine ⟨?_, fun h => ?_, fun h => ?_⟩
  · exact sumsFit_iff (Int.natCast_nonneg _) ht.le ⟨start.le_toInt, Int.le_sub_one_of_lt start.toInt_lt⟩
      ⟨count.le_toInt, Int.le_sub_one_of_lt count.toInt_lt⟩
  · rw [← substrChars_eq ht.le h]
    rfl
  · have hcount : (Int64.ofNat t.toList.length + 1).toInt = t.toList.length + 1 := by
      have h63 : int64Max = 2 ^ 63 - 1 := by decide
      rw [Int64.toInt_add, Int64.toInt_ofNat_of_lt (by omega), Int64.toInt_one, Int.bmod_eq_of_le] <;> omega
    rw [← hcount] at h
    have hall : substr [.text t, .integer start] = .text (.ofList (window (position t.toList.length start.toInt)
        (position t.toList.length start.toInt + (t.toList.length + 1)) t.toList)) := by
      have hchars := substrChars_eq ht.le h
      rw [if_pos (by omega), hcount] at hchars
      rw [← hchars]
      rfl
    refine ⟨hall, fun hstart => ?_⟩
    have hpos : 0 ≤ position t.toList.length start.toInt := by
      rw [position]
      split_ifs <;> omega
    rw [hall, window_eq, window_eq, List.take_of_length_le (by omega), List.take_of_length_le (by omega)]

theorem substr_window_before : SumsFit 5 (-7) 4 ∧
    substr [.text "hello", .integer (-7), .integer 4] = .text (.ofList (window (-1) 3 "hello".toList)) :=
  have h := substr_window "hello" (-7) 4 (by decide)
  have hfit := h.1.2 (by decide)
  ⟨hfit, h.2.1 hfit⟩

/-- A start that is far before the text loses characters at the end, and a large count loses all. -/
theorem substr_loses_end : substr [.text "abc", .integer (-5)] = .text "ab" ∧
    substr [.text "abc", .integer 2, .integer 9223372036854775807] = .text "" := by
  decide

end ScalarSql.Text
