import ScalarSql.Proofs.Literals

/-!
# Blob literals

A blob literal is read as pairs of hexadecimal digits, and the bytes are written back as the same digits in small
letters. A plus sign stands for a zero where a pair starts, so `x'+5'` is the byte five.
-/

namespace ScalarSql

open Gen

namespace Text

variable {a b : Char} {h : List Char}

/-- An even number of hexadecimal digits, where the first of a pair may also be a plus sign. -/
def IsBlobText (h : List Char) : Prop :=
  h.length % 2 = 0 ∧ ∀ (i : Nat) (c : Char), h[i]? = some c → (hexValue? c).isSome ∨ (c = '+' ∧ i % 2 = 0)

def zeroForPlus (c : Char) : Char := if c = '+' then '0' else c

/-- The hexadecimal digit that a character of a blob literal stands for, as a small letter. -/
def blobDigit (c : Char) : Char := (zeroForPlus c).toLower

theorem hexValue?_zeroForPlus (a : Char) :
    (hexValue? (zeroForPlus a)).isSome = true ↔ (hexValue? a).isSome = true ∨ a = '+' := by
  unfold zeroForPlus
  split <;> simp_all [hexValue?]

theorem isBlobText_cons_cons : IsBlobText (a :: b :: h) ↔
    (hexValue? (zeroForPlus a)).isSome = true ∧ (hexValue? b).isSome = true ∧ IsBlobText h := by
  have hlength : (a :: b :: h).length % 2 = h.length % 2 := Nat.add_mod_right h.length 2
  rw [hexValue?_zeroForPlus]
  constructor
  · rintro ⟨hlen, hall⟩
    refine ⟨?_, ?_, hlength ▸ hlen, fun i c hc => ?_⟩
    · simpa using hall 0 a rfl
    · simpa using hall 1 b rfl
    · simpa using hall (i + 2) c hc
  · rintro ⟨ha, hb, hlen, hall⟩
    refine ⟨hlength ▸ hlen, fun i c hc => ?_⟩
    obtain _ | _ | i := i
    · cases hc
      simpa using ha
    · cases hc
      exact .inl hb
    · rw [Nat.add_mod_right i 2]
      exact hall i c hc

/-- A pair is a byte if its second character is a digit, and its first one a digit or a plus sign. -/
theorem readHex?_pair (a b : Char) : readHex? [a, b] =
    (hexValue? (zeroForPlus a)).bind fun x => (hexValue? b).map (16 * x + ·) := by
  have hfrom : readHex? [a, b] = hexFrom (some 0) [zeroForPlus a, b] := by
    by_cases ha : a = '+'
    · subst ha
      rfl
    · simp [readHex?, zeroForPlus, ha]
      rfl
  rw [hfrom, hexFrom_cons]
  cases hexValue? (zeroForPlus a) with
  | none => exact hexFrom_none _
  | some x =>
    rw [Option.map_some, hexFrom_cons]
    simp [hexFrom]

theorem hexByte_pair {x y : Nat} (ha : hexValue? (zeroForPlus a) = some x) (hb : hexValue? b = some y) :
    hexByte (UInt8.ofNat (16 * x + y)) = [blobDigit a, blobDigit b] := by
  obtain ⟨hx, -, -, hfirst⟩ := hexValue?_spec ha
  obtain ⟨hy, -, -, hlast⟩ := hexValue?_spec hb
  have hplus : zeroForPlus b = b := by
    refine if_neg ?_
    rintro rfl
    cases hb.symm.trans (show hexValue? '+' = none by decide)
  have hbyte : (UInt8.ofNat (16 * x + y)).toNat = 16 * x + y :=
    UInt8.toNat_ofNat_of_lt' (show 16 * x + y < 256 by omega)
  rw [hexByte, hbyte, show (16 * x + y) / 16 = x by omega, show (16 * x + y) % 16 = y by omega, hfirst, hlast,
    blobDigit, blobDigit, hplus]

/-- Characters are read as bytes if they are the text of a blob literal, and the bytes are written as its digits. -/
theorem readHexBytes?_spec (h : List Char) :
    (IsBlobText h → ∃ bytes, readHexBytes? h = some bytes ∧ bytes.flatMap hexByte = h.map blobDigit) ∧
      (¬ IsBlobText h → readHexBytes? h = none) := by
  fun_induction readHexBytes? h with
  | case1 => exact ⟨fun _ => ⟨[], rfl, rfl⟩, fun hnot => absurd ⟨rfl, by simp⟩ hnot⟩
  | case2 a => exact ⟨fun hodd => absurd hodd.1 Nat.one_ne_zero, fun _ => rfl⟩
  | case3 a b rest ih =>
    rw [readHex?_pair, isBlobText_cons_cons]
    cases ha : hexValue? (zeroForPlus a) with
    | none => exact ⟨fun hblob => absurd hblob.1 Bool.noConfusion, fun _ => rfl⟩
    | some x =>
      cases hb : hexValue? b with
      | none => exact ⟨fun hblob => absurd hblob.2.1 Bool.noConfusion, fun _ => rfl⟩
      | some y =>
        refine ⟨fun hblob => ?_, fun hnot => ?_⟩
        · obtain ⟨bytes, hread, htext⟩ := ih.1 hblob.2.2
          refine ⟨UInt8.ofNat (16 * x + y) :: bytes, by rw [hread]; rfl, ?_⟩
          rw [List.flatMap_cons, hexByte_pair ha hb, htext]
          rfl
        · rw [ih.2 fun hrest => hnot ⟨rfl, rfl, hrest⟩]
          rfl

theorem readHexBytes?_hexBytes (bytes : List UInt8) : readHexBytes? (hexBytes bytes).toList = some bytes := by
  have hdigit : ∀ x < 16, hexValue? (zeroForPlus (hexDigit x)) = some x ∧ hexValue? (hexDigit x) = some x := by decide
  rw [hexBytes, String.toList_ofList]
  induction bytes with
  | nil => rfl
  | cons b bytes ih =>
    have hb := b.toNat_lt
    have hread : readHex? [hexDigit (b.toNat / 16), hexDigit (b.toNat % 16)] = some b.toNat := by
      rw [readHex?_pair, (hdigit _ (by omega)).1, (hdigit _ (by omega)).2]
      exact congrArg some (Nat.div_add_mod _ _)
    show (do
      let byte ← readHex? [hexDigit (b.toNat / 16), hexDigit (b.toNat % 16)]
      let bytes ← readHexBytes? (bytes.flatMap hexByte)
      return UInt8.ofNat byte :: bytes) = _
    rw [hread, ih]
    simp

end Text

variable {catalog : Catalog} {config : Config} {store : Store} {params : List Value} {h : String} {bytes : List UInt8}

theorem Expr.blob_loads (hread : Text.readHexBytes? h.toList = some bytes) :
    (Expr.ofKind (.blob h)).Loads (.ok (.blob bytes)) := by
  have hload : loadBlob h 1 = emit (.of .blob bytes.length 1 0 (.blob bytes)) := by
    rw [loadBlob, hread]
  refine .of_emit (i := .of .blob bytes.length 1 0 (.blob bytes)) (fun m => rfl) ?_
  rw [← hload]
  rfl

theorem Gen.blob_fails {err : CompileError} (hdepth : 1 ≤ config.maxDepth) (hload : ∀ c, (loadBlob h 1).Fails c err c) :
    ((evaluation {} [.ofKind (.blob h)]).run (.new catalog config)).1 = .error err := by
  have hexact (c : Compiler) (hc : 1 ≤ c.config.maxDepth) : ((Expr.ofKind (.blob h)).coded.exact 1).Fails c err c := by
    have hcheck : (checkHeight (.ofKind (.blob h))).Makes c () c := checkHeight_makes hc
    exact Fails.bind (hcheck.fails (hload c).bind)
  have hstart : (startIn {}).Makes (.new catalog config) () _ := rfl
  exact congrArg Prod.fst (hstart.fails (Makes.fails (a := 1) rfl (Fails.bind (hexact _ hdepth).bind)))

variable (catalog config store params)

/-- A blob literal delivers its bytes if its text is pairs of hexadecimal digits, where a plus sign may stand for the
first zero of a pair, and no program is made of any other. The digits of any bytes deliver the bytes. -/
theorem Gen.blob_delivered (hdepth : 1 ≤ config.maxDepth) (h : String) (bytes : List UInt8) :
    (Text.IsBlobText h.toList → ∃ bytes, (Text.hexBytes bytes).toList = h.toList.map Text.blobDigit ∧
        (Gen.evaluation {} [.ofKind (.blob h)]).delivered? catalog config store params = some #[[.blob bytes]]) ∧
      (¬ Text.IsBlobText h.toList → ((Gen.evaluation {} [.ofKind (.blob h)]).run (.new catalog config)).1 =
        .error (.internal ("malformed blob literal x'" ++ h ++ "'"))) ∧
      (Gen.evaluation {} [.ofKind (.blob (Text.hexBytes bytes))]).delivered? catalog config store params =
        some #[[.blob bytes]] := by
  obtain ⟨hbytes, hnone⟩ := Text.readHexBytes?_spec h.toList
  refine ⟨fun hblob => ?_, fun hnot => Gen.blob_fails hdepth fun c => ?_, ?_⟩
  · obtain ⟨bytes, hread, htext⟩ := hbytes hblob
    exact ⟨bytes, by rwa [Text.hexBytes, String.toList_ofList], (Expr.blob_loads hread).delivered hdepth⟩
  · rw [Gen.loadBlob, hnone hnot]
    rfl
  · exact (Expr.blob_loads (Text.readHexBytes?_hexBytes bytes)).delivered hdepth

theorem Gen.blob_delivered_odd :
    ((Gen.evaluation {} [.ofKind (.blob "abc")]).run (.new .empty {})).1 =
        .error (.internal "malformed blob literal x'abc'") ∧
      (Gen.evaluation {} [.ofKind (.blob "00ff")]).delivered? .empty {} .empty [] = some #[[.blob [0, 255]]] :=
  (Gen.blob_delivered .empty {} .empty [] (by decide) "abc" [0, 255]).2.imp_left fun hnot =>
    hnot fun hblob => absurd hblob.1 (by decide)

/-- A plus sign is no hexadecimal digit, but a blob literal may have one. -/
theorem Gen.blob_plus_delivered :
    Text.hexValue? '+' = none ∧
      (Gen.evaluation {} [.ofKind (.blob "+5")]).delivered? .empty {} .empty [] = some #[[.blob [5]]] :=
  ⟨by decide, (Expr.blob_loads (by decide)).delivered (by decide)⟩

end ScalarSql
