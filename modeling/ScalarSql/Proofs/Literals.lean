import ScalarSql.Proofs.Factoring
import ScalarSql.Proofs.Value.Numerals
import ScalarSql.Proofs.Value.Strictness

/-!
# Integer literals

The code of an integer literal is one instruction, and so is that of its negation. `IntLiteral.outcome` says what
the instruction gives: an INTEGER if the number fits in 64 bits, else the error for a hexadecimal text, and the
closest REAL for any other text. What a literal stands for then follows from how its text is read.

A text of decimal digits, or of hexadecimal digits after `0x`, is read exactly. A number below `-2 ^ 31` is not:
its literal is a text with a minus sign, which counts as too big for 64 bits.
-/

namespace ScalarSql

open Binary64 Decimal Gen Machine Text

variable {catalog : Catalog} {config : Config} {store : Store} {params : List Value} {e : Expr} {ds : List Char}
  {r : Except RunError Value} {h : Nat}

/-! ## Programs of one instruction -/

/-- The program that delivers one row of one value, which a single instruction loads. -/
def Program.loading (i : Instr) : Program :=
  ⟨#[.of .init 0 4, i, .of .resultRow 1 1, .of .halt, .of .goto 0 1], 1, 0⟩

/-- The instruction loads the value, or fails. -/
def Instr.Gives (i : Instr) : Except RunError Value → Prop
  | .ok v => ∀ m : Machine, (i.step 1).outcome m = (.ok .next, m.setRegister 1 v)
  | .error err => ∀ m : Machine, (i.step 1).outcome m = (.error err, m)

/-- The code of the expression is one instruction, which loads the value or fails. -/
def Expr.Loads (e : Expr) (r : Except RunError Value) : Prop :=
  ∃ i : Instr, i.Gives r ∧ ∀ c : Compiler, e.height ≤ c.config.maxDepth →
    (e.coded.exact 1).Makes c () { c with builder := c.builder.emit i }

theorem Program.loading_run (i : Instr) (n : Nat) (m : Machine) :
    runFrom (Program.loading i).ops (n + 3) 0 m = match (i.step 1).outcome m with
      | (.error err, m) => (.error err, m)
      | (.ok flow, m) =>
        match nextAddress 1 i flow with
        | none => (.ok (), m)
        | some next => runFrom (Program.loading i).ops n next m := rfl

theorem Expr.Loads.evaluation (h : e.Loads r) (catalog : Catalog) (hdepth : e.height ≤ config.maxDepth) :
    ∃ i c, i.Gives r ∧ (evaluation {} [e]).Makes (.new catalog config) (.loading i) c := by
  obtain ⟨i, hgives, hmakes⟩ := h
  simp only [Gen.evaluation, Gen.values, Gen.makes_bind]
  exact ⟨i, _, hgives, _, _, rfl, _, _, rfl, _, _, ⟨_, _, hmakes _ hdepth, rfl⟩, _, _, rfl, rfl⟩

theorem Expr.Loads.delivered {v : Value} (h : e.Loads (.ok v)) (hdepth : e.height ≤ config.maxDepth) :
    (Gen.evaluation {} [e]).delivered? catalog config store params = some #[[v]] := by
  obtain ⟨i, c, hgives, hmakes⟩ := h.evaluation catalog hdepth
  have hrun := Program.loading_run i 9999997 (.start (.loading i) catalog store params)
  rw [hgives] at hrun
  rw [Gen.delivered?, hmakes]
  simp only [Program.run, Machine.maxSteps, hrun]
  rfl

theorem Expr.Loads.failure {err : RunError} (h : e.Loads (.error err)) (hdepth : e.height ≤ config.maxDepth) :
    (Gen.evaluation {} [e]).failure? catalog config store params = some err.message := by
  obtain ⟨i, c, hgives, hmakes⟩ := h.evaluation catalog hdepth
  have hrun := Program.loading_run i 9999997 (.start (.loading i) catalog store params)
  rw [hgives] at hrun
  rw [Gen.failure?, hmakes]
  simp only [Program.run, Machine.maxSteps, hrun]

/-! ## What a literal gives -/

/-- An integer literal, negated if wanted. -/
def Expr.ofLiteral (l : IntLiteral) (negated : Bool) : Expr :=
  if negated then .ofKind (.unary .negate (.ofKind (.integer l))) else .ofKind (.integer l)

/-- What an integer literal gives, negated if wanted. -/
def IntLiteral.outcome (negated : Bool) : IntLiteral → Except RunError Value
  | .inline v => .ok (.integer (Int64.ofInt (if negated then -v else v).toInt))
  | .text t =>
    match (IntegerText.read t).signed? negated with
    | some i => .ok (.integer i)
    | none =>
      if IntegerText.isHex t then
        .error (.raised ("hex literal too big: " ++ (if negated then "-" else "") ++ t))
      else
        let x := (Value.parseNumber t).1.asReal
        .ok (.real (if negated then -x else x))

theorem Expr.Loads.of_emit {i : Instr} (hgives : i.Gives r)
    (h : e.coded.target 1 = (do checkHeight e; emit i; return 1)) : e.Loads r := by
  refine ⟨i, hgives, fun c hdepth => ?_⟩
  rw [Code.exact, h]
  exact makes_bind.2 ⟨1, _, makes_bind.2 ⟨(), c, checkHeight_makes hdepth, rfl⟩, rfl⟩

theorem Gen.loadInteger_gives (t : String) (negated : Bool) :
    ∃ i : Instr, i.Gives ((IntLiteral.text t).outcome negated) ∧ loadInteger t negated 1 = emit i := by
  rw [IntLiteral.outcome, loadInteger]
  cases (IntegerText.read t).signed? negated with
  | some n => exact ⟨_, fun m => rfl, rfl⟩
  | none =>
    cases IntegerText.isHex t with
    | true => exact ⟨_, fun m => rfl, rfl⟩
    | false =>
      refine ⟨_, fun m => ?_, rfl⟩
      have hnumber := Value.asReal_ne_nan fun r hr => Value.parseNumber_ne_nan (s := t) hr
      have hreal : ofFloat
          (if negated then -(Value.parseNumber t).1.asReal else (Value.parseNumber t).1.asReal) ≠ .nan := by
        cases negated with
        | false => exact hnumber
        | true => exact neg_ne_nan hnumber
      show (Exec.write 1 (.ofFloat _) >>= fun _ => pure Flow.next : Exec Flow).outcome m = _
      rw [Value.ofFloat, if_neg hreal]
      rfl

theorem Expr.ofLiteral_loads (l : IntLiteral) (negated : Bool) :
    (Expr.ofLiteral l negated).Loads (l.outcome negated) := by
  cases l with
  | inline v =>
    cases negated with
    | false => exact .of_emit (i := .of .integer v.toInt 1) (fun m => rfl) rfl
    | true => exact .of_emit (i := .of .integer (-v).toInt 1) (fun m => rfl) rfl
  | text t =>
    obtain ⟨i, hgives, hload⟩ := loadInteger_gives t negated
    refine .of_emit hgives ?_
    rw [← hload]
    cases negated <;> rfl

theorem Expr.ofLiteral_height (l : IntLiteral) (negated : Bool) : (Expr.ofLiteral l negated).height ≤ 2 := by
  cases negated with
  | false => exact Nat.le_succ 1
  | true => exact Nat.le_refl 2

/-! ## Reading digits -/

section

variable (hne : ds ≠ []) (hds : ∀ d ∈ ds, d.isDigit = true)
include hne hds

/-- A text of digits starts neither as a hexadecimal text nor with a sign. -/
theorem IntegerText.read_digits : hexDigits? ds = none ∧ readUnsigned? ds = some (ofDigits ds) ∧
    readInt? ds = some (ofDigits ds : Int) := by
  have hhex : IntegerText.hexDigits? ds = none := by
    unfold IntegerText.hexDigits?
    split
    · exact absurd (hds 'x' (by simp)) (by decide)
    · exact absurd (hds 'X' (by simp)) (by decide)
    · rfl
  have hunsigned : readUnsigned? ds = some (ofDigits ds) := by
    unfold readUnsigned?
    split
    · exact absurd (hds '+' (by simp)) (by decide)
    · rw [readNat?, if_pos ⟨hne, List.all_eq_true.2 hds⟩]
  refine ⟨hhex, hunsigned, ?_⟩
  unfold readInt?
  split
  · exact absurd (hds '-' (by simp)) (by decide)
  · rw [hunsigned]
    rfl

theorem IntegerText.isHex_digits : isHex (String.ofList ds) = false := by
  rw [isHex, String.toList_ofList, (read_digits hne hds).1]
  rfl

end

/-- The value of decimal digits: an INTEGER if the number, negated if wanted, fits in 64 bits, else the REAL of the
text. -/
def Value.ofDecimal (negated : Bool) (ds : List Char) : Value :=
  let n := signed negated (ofDigits ds)
  if -2 ^ 63 ≤ n ∧ n < 2 ^ 63 then .integer (Int64.ofInt n)
  else
    let x := (Value.parseNumber (String.ofList ds)).1.asReal
    .real (if negated then -x else x)

/-- Decimal digits fit in 64 bits as the number does that they spell, negated if wanted. -/
theorem IntegerText.signed?_decimal (n : Nat) (negated : Bool) :
    signed? negated (if n < 2 ^ 63 then .value (Int64.ofNat n) else if n = 2 ^ 63 then .boundary else .tooBig) =
      if -2 ^ 63 ≤ signed negated n ∧ signed negated n < 2 ^ 63 then
        some (Int64.ofInt (signed negated n)) else none := by
  by_cases hlt : n < 2 ^ 63
  · rw [if_pos hlt]
    cases negated with
    | false => exact (if_pos (show -2 ^ 63 ≤ (n : Int) ∧ (n : Int) < 2 ^ 63 by omega)).symm
    | true =>
      have hmin : (Int64.ofNat n).toInt ≠ int64Min := by
        rw [Int64.toInt_ofNat_of_lt hlt, show int64Min = -2 ^ 63 from rfl]
        omega
      refine Eq.trans ?_ (if_pos (show -2 ^ 63 ≤ -(n : Int) ∧ -(n : Int) < 2 ^ 63 by omega)).symm
      refine (if_neg hmin).trans (congrArg some ?_)
      exact (Int64.ofInt_neg n).symm
  · rw [if_neg hlt]
    by_cases heq : n = 2 ^ 63
    · subst heq
      cases negated <;> rfl
    · rw [if_neg heq]
      cases negated with
      | false => exact (if_neg (show ¬ (-2 ^ 63 ≤ (n : Int) ∧ (n : Int) < 2 ^ 63) by omega)).symm
      | true => exact (if_neg (show ¬ (-2 ^ 63 ≤ -(n : Int) ∧ -(n : Int) < 2 ^ 63) by omega)).symm

theorem IntLiteral.outcome_text (hne : ds ≠ []) (hds : ∀ d ∈ ds, d.isDigit) (negated : Bool) :
    (IntLiteral.text (String.ofList ds)).outcome negated = .ok (.ofDecimal negated ds) := by
  obtain ⟨hhex, hunsigned, -⟩ := IntegerText.read_digits hne hds
  have hread := IntegerText.signed?_decimal (ofDigits ds) negated
  simp only [IntLiteral.outcome, IntegerText.isHex_digits hne hds, IntegerText.read, String.toList_ofList, hhex,
    hunsigned, Value.ofDecimal]
  rw [show pow2 63 = 2 ^ 63 from rfl, hread]
  generalize signed negated (ofDigits ds) = n
  by_cases hfits : -2 ^ 63 ≤ n ∧ n < 2 ^ 63
  · simp only [if_pos hfits]
  · simp only [if_neg hfits]
    rfl

theorem IntLiteral.outcome_inline {v : Int} (hlow : -2 ^ 31 ≤ v) (hhigh : v < 2 ^ 31) (negated : Bool) :
    (IntLiteral.inline (Int32.ofInt v)).outcome negated =
      .ok (.integer (Int64.ofInt (if negated ∧ v ≠ -2 ^ 31 then -v else v))) := by
  have hv := Int32.toInt_ofInt_of_le hlow hhigh
  cases negated with
  | false => simp [IntLiteral.outcome, hv]
  | true =>
    simp only [IntLiteral.outcome, if_true, Int32.toInt_neg, hv, true_and]
    split
    · rw [Int.bmod_eq_of_le (by omega) (by omega)]
    · rename_i hmin
      rw [not_not.1 hmin]
      rfl

theorem IntLiteral.outcome_ofText (hne : ds ≠ []) (hds : ∀ d ∈ ds, d.isDigit) (negated : Bool) :
    (IntLiteral.ofText (String.ofList ds)).outcome negated = .ok (.ofDecimal negated ds) := by
  simp only [IntLiteral.ofText, String.toList_ofList, (IntegerText.read_digits hne hds).2.2]
  split
  · rename_i hsmall
    rw [show ((pow2 31 : Nat) : Int) = 2 ^ 31 from rfl] at hsmall
    rw [IntLiteral.outcome_inline hsmall.1 hsmall.2, Value.ofDecimal, signed]
    cases negated <;> simp <;> omega
  · exact IntLiteral.outcome_text hne hds negated

/-! ## Reading hexadecimal digits -/

namespace Text

/-- Reads hexadecimal digits after a number. -/
def hexFrom (start : Option Nat) (ds : List Char) : Option Nat :=
  ds.foldl (fun n d => do return 16 * (← n) + (← hexValue? d)) start

theorem hexFrom_cons (a : Nat) (d : Char) (ds : List Char) :
    hexFrom (some a) (d :: ds) = hexFrom ((hexValue? d).map (16 * a + ·)) ds := by
  rw [hexFrom, List.foldl_cons]
  cases hexValue? d <;> rfl

theorem hexFrom_none (ds : List Char) : hexFrom none ds = none := by
  induction ds with
  | nil => rfl
  | cons d ds ih => exact ih

theorem hexValue?_spec {d : Char} {k : Nat} (h : hexValue? d = some k) :
    k < 16 ∧ d.toNat < 128 ∧ (k = 0 → d = '0') ∧ hexDigit k = d.toLower := by
  have hlt : d.toNat < 128 := by
    have hle (x y : Char) : x ≤ y ↔ x.toNat ≤ y.toNat := UInt32.le_iff_toNat_le
    simp only [hexValue?, hle, Char.reduceToNat] at h
    split_ifs at h <;> omega
  have hall : ∀ n < 128, ∀ k ∈ hexValue? (Char.ofNat n),
      k < 16 ∧ (k = 0 → Char.ofNat n = '0') ∧ hexDigit k = (Char.ofNat n).toLower := by decide
  have hd := hall d.toNat hlt
  rw [Char.ofNat_toNat] at hd
  exact ⟨(hd k h).1, hlt, (hd k h).2⟩

theorem hexFrom_bounds {a h : Nat} (hread : hexFrom (some a) ds = some h) :
    (∀ d ∈ ds, ∃ k, hexValue? d = some k) ∧ a * 16 ^ ds.length ≤ h ∧ h < (a + 1) * 16 ^ ds.length := by
  induction ds generalizing a with
  | nil =>
    cases hread
    simp
  | cons d ds ih =>
    rw [hexFrom_cons] at hread
    cases hd : hexValue? d with
    | none =>
      rw [hd, Option.map_none, hexFrom_none] at hread
      cases hread
    | some k =>
      rw [hd] at hread
      obtain ⟨hall, hlow, hhigh⟩ := ih hread
      have hk := (hexValue?_spec hd).1
      rw [List.length_cons, pow_succ]
      exact ⟨List.forall_mem_cons.2 ⟨⟨k, hd⟩, hall⟩, by nlinarith, by nlinarith⟩

theorem hexFrom_dropWhile (ds : List Char) : hexFrom (some 0) (ds.dropWhile (· == '0')) = hexFrom (some 0) ds := by
  induction ds with
  | nil => rfl
  | cons d ds ih =>
    rw [List.dropWhile_cons]
    split
    · rename_i hd
      obtain rfl := beq_iff_eq.1 hd
      exact ih
    · rfl

end Text

theorem IntegerText.ofHex_eq (hread : ofHexDigits? ds = some h) :
    ofHex ds = if h < 2 ^ 64 then .value (Int64.ofNat h) else .tooBig := by
  have hrest : hexFrom (some 0) (ds.dropWhile (· == '0')) = some h := (hexFrom_dropWhile ds).trans hread
  unfold ofHex
  generalize hsig : ds.dropWhile (· == '0') = sig at hrest
  cases sig with
  | nil =>
    cases hrest
    rfl
  | cons d rest =>
    obtain ⟨hall, -, hhigh⟩ := hexFrom_bounds hrest
    obtain ⟨k, hk⟩ := hall d List.mem_cons_self
    have hlow := (hexFrom_bounds (by rwa [hexFrom_cons, hk] at hrest)).2.1
    have hbytes : (toBytes (String.ofList (d :: rest))).length = (d :: rest).length := by
      have hone : (d :: rest).map (fun d => (String.utf8EncodeChar d).length) = (d :: rest).map fun _ => 1 := by
        refine List.map_congr_left fun d hd => ?_
        obtain ⟨k, hk⟩ := hall d hd
        rw [String.length_utf8EncodeChar, Char.utf8Size_eq_one_iff, UInt32.le_iff_toNat_le]
        exact Nat.le_of_lt_succ (hexValue?_spec hk).2.1
      rw [toBytes, String.toList_ofList, List.length_flatMap, hone]
      simp [Nat.add_comm]
    have hpos : k ≠ 0 := by
      intro hzero
      have hhead := List.head?_dropWhile_not (· == '0') ds
      rw [hsig, (hexValue?_spec hk).2.2.1 hzero] at hhead
      cases hhead
    have hread : readHex? (d :: rest) = some h := by
      have hplus : d ≠ '+' := by
        rintro rfl
        cases hk.symm.trans (show hexValue? '+' = none by decide)
      rw [← hrest]
      simp [readHex?, hplus]
      rfl
    simp only [hbytes, hread, List.isEmpty_cons, Bool.false_eq_true, if_false]
    -- sixteen digits and no more are below `16 ^ 16`, since the first of them is no zero
    by_cases hlen : 16 < (d :: rest).length
    · have hmany : 16 ^ 16 ≤ 16 ^ rest.length := Nat.pow_le_pow_right (by decide) (Nat.le_of_lt_succ hlen)
      have hfirst : 16 ^ rest.length ≤ k * 16 ^ rest.length := Nat.le_mul_of_pos_left _ (Nat.pos_of_ne_zero hpos)
      rw [if_pos hlen, if_neg]
      simp only [Nat.mul_zero, Nat.zero_add] at hlow
      omega
    · have hfew : 16 ^ (d :: rest).length ≤ 16 ^ 16 := Nat.pow_le_pow_right (by decide) (Nat.not_lt.1 hlen)
      rw [if_neg hlen, if_pos (by omega)]

/-- A number of 64 bits can be negated unless it stands for the least integer. -/
theorem IntegerText.signed?_hex (h : Nat) (negated : Bool) :
    signed? negated (if h < 2 ^ 64 then .value (Int64.ofNat h) else .tooBig) =
      if h < 2 ^ 64 ∧ (negated → h ≠ 2 ^ 63) then
        some (if negated then -Int64.ofNat h else Int64.ofNat h) else none := by
  by_cases hlt : h < 2 ^ 64
  · have hmin : (Int64.ofNat h).toInt = int64Min ↔ h = 2 ^ 63 := by
      rw [Int64.toInt_ofNat', Int.bmod_def, show int64Min = -2 ^ 63 from rfl,
        show Int64.size = 2 ^ 64 from rfl]
      split <;> omega
    rw [if_pos hlt]
    cases negated with
    | false => exact (if_pos ⟨hlt, Bool.noConfusion⟩).symm
    | true =>
      by_cases heq : h = 2 ^ 63
      · exact (if_pos (hmin.2 heq)).trans (if_neg fun hfits => hfits.2 rfl heq).symm
      · exact (if_neg (mt hmin.1 heq)).trans (if_pos ⟨hlt, fun _ => heq⟩).symm
  · rw [if_neg hlt, if_neg fun hfits => hlt hfits.1]
    rfl

theorem IntLiteral.outcome_ofText_hex {x : Char} (hx : x = 'x' ∨ x = 'X') (hne : ds ≠ [])
    (hread : ofHexDigits? ds = some h) (negated : Bool) :
    (IntLiteral.ofText (String.ofList ('0' :: x :: ds))).outcome negated = if h < 2 ^ 64 ∧ (negated → h ≠ 2 ^ 63) then
        .ok (.integer (if negated then -Int64.ofNat h else Int64.ofNat h)) else .error (.raised
        ("hex literal too big: " ++ (if negated then "-" else "") ++ String.ofList ('0' :: x :: ds))) := by
  have hdigits : IntegerText.hexDigits? ('0' :: x :: ds) = some ds := by
    rcases hx with rfl | rfl <;> rfl
  have hnone : readInt? ('0' :: x :: ds) = none := by
    rcases hx with rfl | rfl <;> simp [readInt?, readUnsigned?, readNat?]
  have hempty : ds.isEmpty = false := List.isEmpty_eq_false_iff.2 hne
  simp only [IntLiteral.ofText, String.toList_ofList, hnone, IntLiteral.outcome, IntegerText.read, IntegerText.isHex,
    hdigits, IntegerText.ofHex_eq hread, Option.any_some, hempty, Bool.not_false, if_true]
  rw [IntegerText.signed?_hex]
  by_cases hfits : h < 2 ^ 64 ∧ (negated → h ≠ 2 ^ 63)
  · simp only [if_pos hfits]
  · simp only [if_neg hfits]

/-! ## Literals of 64 bits -/

/-- The literal of a 64-bit integer gives the integer, unless it is below `-2 ^ 31`. -/
theorem IntLiteral.outcome_ofInt64 (v : Int64) (negated : Bool) : (IntLiteral.ofInt64 v).outcome negated = .ok (
      if -2 ^ 31 ≤ v.toInt then .integer (if negated ∧ v.toInt ≠ -2 ^ 31 then -v else v)
      else .real (if negated then -nearest v.toInt else nearest v.toInt)) := by
  have hleast := v.le_toInt
  have hgreatest := v.toInt_lt
  rw [IntLiteral.ofInt64, show ((pow2 31 : Nat) : Int) = 2 ^ 31 from rfl]
  by_cases hsmall : -2 ^ 31 ≤ v.toInt ∧ v.toInt < 2 ^ 31
  · rw [if_pos hsmall, IntLiteral.outcome_inline hsmall.1 hsmall.2, if_pos hsmall.1]
    split
    · rw [Int64.ofInt_neg, Int64.ofInt_toInt]
    · rw [Int64.ofInt_toInt]
  rw [if_neg hsmall, intText]
  by_cases hneg : v.toInt < 0
  · -- the sign makes the text one that is no number of 64 bits
    have hparse := @Value.parseNumber_intText [] [] v rfl rfl
    rw [List.nil_append, List.append_nil, String.ofList_toList, intText, if_pos hneg] at hparse
    have hread : IntegerText.read (String.ofList ('-' :: toDigits v.toInt.natAbs)) = .tooBig := by
      simp [IntegerText.read, IntegerText.hexDigits?, readUnsigned?, readNat?]
    have hhex : IntegerText.isHex (String.ofList ('-' :: toDigits v.toInt.natAbs)) = false := by
      simp [IntegerText.isHex, IntegerText.hexDigits?]
    rw [if_pos hneg, if_neg (by omega)]
    simp only [IntLiteral.outcome, hread, hhex, hparse]
    rfl
  · have hn : (v.toInt.natAbs : Int) = v.toInt := by omega
    have htext := @IntLiteral.outcome_text (toDigits v.toInt.natAbs) Nat.toDigits_ne_nil
      (fun d => Nat.isDigit_of_mem_toDigits (by decide) (by decide)) negated
    rw [if_neg hneg, if_pos (by omega), htext, Value.ofDecimal, ofDigits_toDigits, signed, hn]
    cases negated with
    | false => simpa using ⟨hleast, hgreatest⟩
    | true =>
      have hfits : -2 ^ 63 ≤ -v.toInt ∧ -v.toInt < 2 ^ 63 := by omega
      rw [if_pos rfl, if_pos hfits, if_pos ⟨rfl, by omega⟩, Int64.ofInt_neg, Int64.ofInt_toInt]

/-! ## Programs of literals -/

variable (catalog config store params)

/-- The literal of a 64-bit integer delivers the integer from `-2 ^ 31` on, and below the closest REAL. Its negation
delivers the negated integer, except that `-2 ^ 31` is negated in 32 bits and stays as it is. -/
theorem Gen.integers_delivered (hdepth : 2 ≤ config.maxDepth) (v : Int64) :
    (Gen.evaluation {} [.ofLiteral (.ofInt64 v) false]).delivered? catalog config store params =
        some #[[if -2 ^ 31 ≤ v.toInt then .integer v else .real (Binary64.nearest v.toInt)]] ∧
      (Gen.evaluation {} [.ofLiteral (.ofInt64 v) true]).delivered? catalog config store params =
        some #[[if -2 ^ 31 ≤ v.toInt then .integer (if v.toInt = -2 ^ 31 then v else -v)
          else .real (-Binary64.nearest v.toInt)]] := by
  have h (negated : Bool) := Expr.ofLiteral_loads (.ofInt64 v) negated
  have hheight (negated : Bool) := Nat.le_trans (Expr.ofLiteral_height (.ofInt64 v) negated) hdepth
  simp only [IntLiteral.outcome_ofInt64] at h
  refine ⟨?_, ?_⟩
  · simpa using (h false).delivered (hheight false)
  · simpa using (h true).delivered (hheight true)

theorem Gen.integers_delivered_least :
    (Gen.evaluation {} [.ofLiteral (.ofInt64 Int64.minValue) true]).delivered? .empty {} .empty [] =
      some #[[.real (-Binary64.nearest (-9223372036854775808))]] :=
  (Gen.integers_delivered .empty {} .empty [] (by decide) Int64.minValue).2

/-- A number below `-2 ^ 31` delivers a REAL. -/
theorem Gen.integer_becomes_real :
    (Gen.evaluation {} [.ofLiteral (.ofInt64 (-3000000000)) false]).delivered? .empty {} .empty [] =
      some #[[.real (Binary64.nearest (-3000000000))]] := by
  have hloads := Expr.ofLiteral_loads (.ofInt64 (-3000000000)) false
  rw [IntLiteral.outcome_ofInt64] at hloads
  exact hloads.delivered (by decide)

/-- Decimal digits deliver the INTEGER that they spell if it fits in 64 bits, else a REAL, and so does their negation.
Hexadecimal digits deliver the two's complement of a number of 64 bits, and their negation the negated integer
unless that is the least one; else the program is made, and fails. -/
theorem Gen.integer_text_delivered (hdepth : 2 ≤ config.maxDepth) :
    (∀ ds : List Char, ds ≠ [] → (∀ d ∈ ds, d.isDigit = true) → ∀ negated,
      (Gen.evaluation {} [.ofLiteral (.ofText (String.ofList ds)) negated]).delivered? catalog config store params =
        some #[[.ofDecimal negated ds]]) ∧
      ∀ (x : Char) (ds : List Char) (h : Nat), x = 'x' ∨ x = 'X' → ds ≠ [] → Text.ofHexDigits? ds = some h →
        ∀ negated, let g := Gen.evaluation {} [.ofLiteral (.ofText (String.ofList ('0' :: x :: ds))) negated]
          if h < 2 ^ 64 ∧ (negated = true → h ≠ 2 ^ 63) then
            g.delivered? catalog config store params =
              some #[[.integer (if negated then -Int64.ofNat h else Int64.ofNat h)]]
          else
            g.failure? catalog config store params =
              some ("hex literal too big: " ++ (if negated then "-" else "") ++ String.ofList ('0' :: x :: ds)) := by
  refine ⟨fun ds hne hds negated => ?_, fun x ds h hx hne hread negated => ?_⟩
  · have hloads := Expr.ofLiteral_loads (.ofText (String.ofList ds)) negated
    rw [IntLiteral.outcome_ofText hne hds] at hloads
    exact hloads.delivered (Nat.le_trans (Expr.ofLiteral_height _ _) hdepth)
  · have hloads := Expr.ofLiteral_loads (.ofText (String.ofList ('0' :: x :: ds))) negated
    rw [IntLiteral.outcome_ofText_hex hx hne hread] at hloads
    have hheight := Nat.le_trans (Expr.ofLiteral_height (.ofText (String.ofList ('0' :: x :: ds))) negated) hdepth
    intro g
    split
    · rename_i hfits
      rw [if_pos hfits] at hloads
      exact hloads.delivered hheight
    · rename_i hfits
      rw [if_neg hfits] at hloads
      exact hloads.failure hheight

theorem Gen.integer_text_delivered_extremes :
    (Gen.evaluation {} [.ofLiteral (.ofText "09223372036854775808") true]).delivered? .empty {} .empty [] =
        some #[[.integer Int64.minValue]] ∧
      (Gen.evaluation {} [.ofLiteral (.ofText "0x8000000000000000") false]).delivered? .empty {} .empty [] =
        some #[[.integer Int64.minValue]] ∧
      (Gen.evaluation {} [.ofLiteral (.ofText "0x8000000000000000") true]).failure? .empty {} .empty [] =
        some "hex literal too big: -0x8000000000000000" := by
  obtain ⟨hdecimal, hhex⟩ := Gen.integer_text_delivered .empty {} .empty [] (by decide)
  refine ⟨?_, ?_, ?_⟩
  · exact hdecimal "09223372036854775808".toList (by decide) (by simp) true
  · exact hhex 'x' "8000000000000000".toList (2 ^ 63) (.inl rfl) (by decide) (by decide) false
  · exact hhex 'x' "8000000000000000".toList (2 ^ 63) (.inl rfl) (by decide) (by decide) true

end ScalarSql
