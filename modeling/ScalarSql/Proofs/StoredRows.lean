import ScalarSql.Proofs.Schema
import ScalarSql.Proofs.Value.Conversions

/-!
# The rows of the store under any inserts

A table that the catalog made accepts a row or refuses it. `Store.insert_responds` says what either does to the
store: one row more in its place, or the same rows in every table. So after any inserts the rows of a table ascend by
their rowids and fit the columns (`Store.rows_kept`).
-/

namespace ScalarSql

open Catalog

/-! ## Types up to letter case -/

theorem Text.toNat_toLower (c : Char) :
    c.toLower.toNat = if 65 ≤ c.toNat ∧ c.toNat ≤ 90 then c.toNat + 32 else c.toNat := by
  have hrange : (c.val ≥ 'A'.val ∧ c.val ≤ 'Z'.val) ↔ 65 ≤ c.toNat ∧ c.toNat ≤ 90 := .rfl
  unfold Char.toLower
  split <;> rename_i h <;> rw [hrange] at h
  · rw [if_pos h]
    exact (UInt32.toNat_add ..).trans (Nat.mod_eq_of_lt (Nat.lt_of_le_of_lt (Nat.add_le_add_right h.2 32) (by decide)))
  · rw [if_neg h]

theorem Text.toNat_toUpper (c : Char) :
    c.toUpper.toNat = if 97 ≤ c.toNat ∧ c.toNat ≤ 122 then c.toNat - 32 else c.toNat := by
  have hrange : ('a'.val ≤ c.val ∧ c.val ≤ 'z'.val) ↔ 97 ≤ c.toNat ∧ c.toNat ≤ 122 := .rfl
  unfold Char.toUpper
  split <;> rename_i h <;> rw [hrange] at h
  · rw [if_pos h]
    refine (UInt32.toNat_add ..).trans ?_
    show (c.toNat + 4294967264) % 4294967296 = _
    omega
  · rw [if_neg h]

theorem Text.toUpper_toLower (c : Char) : c.toLower.toUpper = c.toUpper := by
  refine Char.ext (UInt32.toNat_inj.1 ?_)
  show c.toLower.toUpper.toNat = c.toUpper.toNat
  rw [toNat_toUpper, toNat_toUpper, toNat_toLower]
  grind

theorem Text.upper_of_sameName {a b : String} (h : sameName a b) :
    a.toList.map Char.toUpper = b.toList.map Char.toUpper := by
  have hboth (s : String) : s.toList.map Char.toUpper = (s.toList.map Char.toLower).map Char.toUpper := by
    rw [List.map_map]
    exact List.map_congr_left fun c _ => (toUpper_toLower c).symm
  rw [hboth a, hboth b, sameName_iff.1 h]

/-- The affinity of the column is the one of its type. -/
def Column.IsTyped (c : Column) : Prop := c.affinity = Affinity.ofType? c.declaredType

/-- A key of the type INTEGER has the affinity of its type, INTEGER, in any case of letters. -/
theorem Column.IsTyped.of_isRowidAlias {c : Column} (hc : c.IsTyped) (h : c.isRowidAlias) : c.affinity = .integer := by
  obtain ⟨name, hname, hsame⟩ := (Option.any_eq_true _ _).1 (Bool.and_eq_true_iff.1 h).2
  rw [hc, hname]
  show Affinity.ofType name = .integer
  rw [Affinity.ofType, Text.upper_of_sameName hsame]
  rfl

/-- A row that fits the columns of a table. -/
structure Row.Fits (t : Table) (row : Row) : Prop where
  width : row.values.length = t.columns.length
  /-- The affinity of its column leaves a value as it is, that of the alias of the rowid if it
  is the one of its type. -/
  affinity : ∀ (i : Nat) (v : Value) (c : Column), row.values[i]? = some v → t.columns[i]? = some c →
    (t.rowidAlias = some i → c.IsTyped) → v.applyAffinity c.affinity = v
  notNull : ∀ (i : Nat) (v : Value) (c : Column), row.values[i]? = some v → t.columns[i]? = some c →
    c.notNull = true → v ≠ .null
  /-- The alias of the rowid repeats it. -/
  rowidAlias : ∀ i, t.rowidAlias = some i → row.values[i]? = some (.integer row.rowid)

namespace Store

variable {t u : Table} {values converted : List Value} {rows : List Row} {row : Row} {rowid : Int64} {s s' : Store}
  {i : Nat} {e : StoreError} {columns : List Column} {c : Column} {r : Except StoreError Int64}

/-! ## Values for a row -/

theorem nullViolation?_eq_none (h : nullViolation? values columns = none) (hnull : values[i]? = some .null)
    (hc : columns[i]? = some c) (hnotNull : c.notNull) : c.isRowidAlias := by
  fun_induction nullViolation? values columns generalizing i with
  | case1 => cases h
  | case2 w vs d ds hok ih =>
    cases i with
    | zero =>
      cases hnull
      cases hc
      simpa [Value.isNull, hnotNull] using hok
    | succ i => exact ih h hnull hc
  | case3 values columns hne =>
    cases values with
    | nil => cases hnull
    | cons w vs =>
      cases columns with
      | nil => cases hc
      | cons d ds => exact absurd rfl (hne w vs d ds rfl)

theorem nullViolation?_eq_some (h : nullViolation? values columns = some c) :
    ∃ i : Nat, values[i]? = some .null ∧ columns[i]? = some c ∧ c.notNull ∧ c.isRowidAlias = false := by
  fun_induction nullViolation? values columns with
  | case1 w vs d ds hviolates =>
    cases h
    obtain ⟨hnull, halias⟩ := Bool.and_eq_true_iff.1 hviolates
    obtain ⟨hnull, hnotNull⟩ := Bool.and_eq_true_iff.1 hnull
    cases w <;> cases hnull
    exact ⟨0, rfl, rfl, hnotNull, by simpa using halias⟩
  | case2 w vs d ds hok ih =>
    obtain ⟨i, hi⟩ := ih h
    exact ⟨i + 1, hi⟩
  | case3 => cases h

/-- What a table makes of the values that are given for a row. -/
structure Converts (t : Table) (values converted : List Value) : Prop where
  width : converted.length = t.columns.length
  value : ∀ (i : Nat) (w : Value), converted[i]? = some w ↔
    ∃ v c, values[i]? = some v ∧ t.columns[i]? = some c ∧ v.applyAffinity c.affinity = w
  /-- No column that refuses NULL gets it, but for the alias of the rowid. -/
  notNull : ∀ (i : Nat) (c : Column), converted[i]? = some .null → t.columns[i]? = some c → c.notNull = true →
    c.isRowidAlias = true

theorem getElem?_converted (t : Table) (values : List Value) (i : Nat) (w : Value) :
    (values.zipWith (fun v a => v.applyAffinity a) (t.columns.map Column.affinity))[i]? = some w ↔
      ∃ v c, values[i]? = some v ∧ t.columns[i]? = some c ∧ v.applyAffinity c.affinity = w := by
  rw [List.getElem?_zipWith_eq_some]
  simp only [List.getElem?_map, Option.map_eq_some_iff]
  constructor
  · rintro ⟨v, _, hv, ⟨c, hc, rfl⟩, hw⟩
    exact ⟨v, c, hv, hc, hw⟩
  · rintro ⟨v, c, hv, hc, hw⟩
    exact ⟨v, _, hv, ⟨c, hc, rfl⟩, hw⟩

/-- Why a row is refused. -/
inductive Refused (s : Store) (t : Table) (values : List Value) : StoreError → Prop where
  | width (h : values.length ≠ t.columns.length) :
    Refused s t values (.width t.name t.columns.length values.length)
  /-- A column that refuses NULL and is no alias of the rowid would hold it. -/
  | notNull {i : Nat} {v : Value} {c : Column} (hv : values[i]? = some v) (hc : t.columns[i]? = some c)
    (hnull : v.applyAffinity c.affinity = .null) (hnotNull : c.notNull = true) (halias : c.isRowidAlias = false) :
    Refused s t values (.notNull t.name c.name)
  /-- The alias of the rowid would hold neither an integer nor NULL. -/
  | rowidType {i : Nat} {v w : Value} {c : Column} (halias : t.rowidAlias = some i) (hv : values[i]? = some v)
    (hc : t.columns[i]? = some c) (hw : v.applyAffinity c.affinity = w) (hinteger : ∀ n, w ≠ .integer n)
    (hnull : w ≠ .null) :
    Refused s t values (.rowidType w)
  | rowidTaken {i : Nat} {v : Value} {c : Column} {row : Row} (halias : t.rowidAlias = some i)
    (hv : values[i]? = some v) (hc : t.columns[i]? = some c) (hrow : row ∈ s.rows t.id)
    (hrowid : v.applyAffinity c.affinity = .integer row.rowid) :
    Refused s t values (.rowidTaken t.name)
  | full {row : Row}
    (hnone : ∀ (i : Nat) (v : Value) (c : Column), t.rowidAlias = some i → values[i]? = some v →
      t.columns[i]? = some c → v.applyAffinity c.affinity = .null)
    (hrow : row ∈ s.rows t.id) (hrowid : row.rowid = Int64.maxValue) :
    Refused s t values (.rowidTaken t.name)

theorem convert_eq_ok (h : convert t values = .ok converted) : Converts t values converted := by
  unfold convert at h
  split at h
  · cases h
  · dsimp only at h
    split at h
    · cases h
    · cases h
      refine ⟨?_, getElem?_converted t values, ?_⟩
      · rw [List.length_zipWith, List.length_map]
        omega
      · exact fun i c hnull hc hnotNull => nullViolation?_eq_none ‹_› hnull hc hnotNull

theorem convert_eq_error (s : Store) (h : convert t values = .error e) : Refused s t values e := by
  unfold convert at h
  split at h
  · cases h
    exact .width ‹_›
  · dsimp only at h
    split at h
    · cases h
      obtain ⟨i, hnull, hc, hnotNull, halias⟩ := nullViolation?_eq_some ‹_›
      obtain ⟨v, c', hv, hc', hw⟩ := (getElem?_converted t values i _).1 hnull
      rw [hc] at hc'
      cases hc'
      exact .notNull hv hc hw hnotNull halias
    · cases h

theorem getElem?_rowOf (t : Table) (rowid : Int64) (values : List Value) (i : Nat) : (rowOf t rowid values).values[i]? =
      if t.rowidAlias = some i then values[i]?.map fun _ => .integer rowid else values[i]? := by
  unfold rowOf
  cases t.rowidAlias with
  | none => rfl
  | some j =>
    simp only [Option.elim_some, Option.some.injEq, List.getElem?_set]
    split
    · subst j
      split <;> simp [*]
    · rfl

theorem fits_rowOf (ht : t.Sound) (h : Converts t values converted) (rowid : Int64) :
    (rowOf t rowid converted).Fits t := by
  have hvalue {i : Nat} {v : Value} (hv : (rowOf t rowid converted).values[i]? = some v) :
      (t.rowidAlias = some i ∧ v = .integer rowid) ∨ (t.rowidAlias ≠ some i ∧ converted[i]? = some v) := by
    rw [getElem?_rowOf] at hv
    split at hv
    · obtain ⟨_, -, rfl⟩ := Option.map_eq_some_iff.1 hv
      exact .inl ⟨‹_›, rfl⟩
    · exact .inr ⟨‹_›, hv⟩
  refine ⟨?_, fun i v c hv hc htyped => ?_, fun i v c hv hc hnotNull => ?_, fun i halias => ?_⟩
  · rw [← h.width]
    unfold rowOf
    cases t.rowidAlias with
    | none => rfl
    | some j => exact List.length_set
  · rcases hvalue hv with ⟨halias, rfl⟩ | ⟨-, hv⟩
    · obtain ⟨d, hd, hkey⟩ := (ht.rowidAlias i).1 halias
      rw [hc] at hd
      cases hd
      rw [(htyped halias).of_isRowidAlias hkey]
      rfl
    · obtain ⟨w, d, -, hd, rfl⟩ := (h.value i v).1 hv
      rw [hc] at hd
      cases hd
      exact Value.applyAffinity_idem _ _
  · rcases hvalue hv with ⟨-, rfl⟩ | ⟨hother, hv⟩
    · exact Value.noConfusion
    · rintro rfl
      exact hother ((ht.rowidAlias i).2 ⟨c, hc, h.notNull i c hv hc hnotNull⟩)
  · obtain ⟨c, hc, -⟩ := (ht.rowidAlias i).1 halias
    have hlt : i < converted.length := h.width ▸ (List.getElem?_eq_some_iff.1 hc).1
    rw [getElem?_rowOf, if_pos halias, List.getElem?_eq_getElem hlt]
    rfl

/-! ## Rows in their order -/

/-- The rows ascend by their rowids. -/
abbrev Ascending (rows : List Row) : Prop := rows.Pairwise (·.rowid < ·.rowid)

theorem insertRow_eq (row : Row) (rows : List Row) :
    ∃ before after, rows = before ++ after ∧ insertRow row rows = before ++ row :: after := by
  induction rows with
  | nil => exact ⟨[], [], rfl, rfl⟩
  | cons r rows ih =>
    unfold insertRow
    split
    · obtain ⟨before, after, hrows, hinsert⟩ := ih
      exact ⟨r :: before, after, congrArg (r :: ·) hrows, congrArg (r :: ·) hinsert⟩
    · exact ⟨[], r :: rows, rfl, rfl⟩

theorem mem_insertRow {r : Row} : r ∈ insertRow row rows ↔ r = row ∨ r ∈ rows := by
  obtain ⟨before, after, hrows, hinsert⟩ := insertRow_eq row rows
  rw [hinsert, hrows, List.mem_append, List.mem_cons, List.mem_append]
  exact or_left_comm

theorem Ascending.insertRow (h : Ascending rows) (hnew : ∀ r ∈ rows, r.rowid ≠ row.rowid) :
    Ascending (insertRow row rows) := by
  induction h with
  | nil => exact List.pairwise_singleton _ _
  | @cons r rows hr hrows ih =>
    unfold Store.insertRow
    split
    · rename_i hlt
      refine .cons (fun q hq => ?_) (ih fun q hq => hnew q (List.mem_cons_of_mem _ hq))
      rcases mem_insertRow.1 hq with rfl | hq
      · exact hlt
      · exact hr q hq
    · rename_i hge
      have hlt : row.rowid < r.rowid := Int64.lt_of_le_of_ne (Int64.not_lt.1 hge) (hnew r List.mem_cons_self).symm
      refine .cons (fun q hq => ?_) (.cons hr hrows)
      rcases List.mem_cons.1 hq with rfl | hq
      · exact hlt
      · exact Int64.lt_trans hlt (hr q hq)

theorem foldl_laterRowid (rows : List Row) (m : Int64) :
    (rows.foldl laterRowid m = m ∨ ∃ row ∈ rows, rows.foldl laterRowid m = row.rowid) ∧
      m ≤ rows.foldl laterRowid m ∧ ∀ row ∈ rows, row.rowid ≤ rows.foldl laterRowid m := by
  induction rows generalizing m with
  | nil => exact ⟨.inl rfl, Int64.le_refl m, List.forall_mem_nil _⟩
  | cons r rows ih =>
    have hlater : m ≤ laterRowid m r ∧ r.rowid ≤ laterRowid m r ∧ (laterRowid m r = m ∨ laterRowid m r = r.rowid) := by
      grind [laterRowid]
    obtain ⟨hm, hr, hone⟩ := hlater
    obtain ⟨hwhich, hle, hall⟩ := ih (laterRowid m r)
    rw [List.foldl_cons, List.forall_mem_cons]
    refine ⟨?_, Int64.le_trans hm hle, Int64.le_trans hr hle, hall⟩
    rcases hwhich with hsame | ⟨row, hrow, heq⟩
    · rw [hsame]
      exact hone.imp_right fun h => ⟨r, List.mem_cons_self, h⟩
    · exact .inr ⟨row, List.mem_cons_of_mem _ hrow, heq⟩

theorem lt_add_one {m : Int64} (h : m ≠ Int64.maxValue) : m < m + 1 := by
  have hmax : m.toInt ≠ 9223372036854775807 := fun he => h (Int64.toInt_inj.1 he)
  have hlow := m.le_toInt
  have hhigh := m.toInt_lt
  rw [Int64.lt_iff_toInt_lt, Int64.toInt_add]
  show m.toInt < (m.toInt + 1).bmod 18446744073709551616
  rw [Int.bmod_eq_of_le] <;> omega

/-- The next rowid comes after all others, unless the greatest of all is in use. -/
theorem lt_nextRowid (h : ∀ row ∈ rows, row.rowid ≠ Int64.maxValue) : ∀ row ∈ rows, row.rowid < nextRowid rows := by
  cases rows with
  | nil => exact List.forall_mem_nil _
  | cons r rows =>
    obtain ⟨hwhich, hr, hall⟩ := foldl_laterRowid rows r.rowid
    have hgreatest : rows.foldl laterRowid r.rowid ≠ Int64.maxValue := by
      rcases hwhich with hsame | ⟨row, hrow, heq⟩
      · rw [hsame]
        exact h r List.mem_cons_self
      · rw [heq]
        exact h row (List.mem_cons_of_mem _ hrow)
    have hlt := lt_add_one hgreatest
    exact List.forall_mem_cons.2 ⟨Int64.lt_of_le_of_lt hr hlt, fun row hrow => Int64.lt_of_le_of_lt (hall row hrow) hlt⟩

/-! ## What an insert does -/

theorem rows_setRows (s : Store) (id : Nat) (rows : List Row) (other : Nat) :
    (s.setRows id rows).rows other = if other = id then rows else s.rows other := by
  have hfilter (tables : List (Nat × List Row)) (hne : other ≠ id) :
      (tables.filter (·.1 != id)).lookup other = tables.lookup other := by
    induction tables with
    | nil => rfl
    | cons entry tables ih => grind
  unfold Store.rows setRows
  split
  · subst other
    simp
  · rename_i hne
    rw [List.lookup_cons, beq_false_of_ne hne, hfilter _ hne]

/-- What an insert of a row leaves: the row with its rowid stands in its place, and all else is as it was. -/
structure Accepts (s : Store) (t : Table) (values : List Value) (rowid : Int64) (s' : Store) : Prop where
  new : ∀ row ∈ s.rows t.id, row.rowid ≠ rowid
  rows : ∃ converted, Converts t values converted ∧ s'.rows t.id = insertRow (rowOf t rowid converted) (s.rows t.id)
  others : ∀ id ≠ t.id, s'.rows id = s.rows id

theorem wantedRowid_eq_error (hconv : Converts t values converted)
    (h : wantedRowid t converted (s.rows t.id) = .error e) : Refused s t values e := by
  unfold wantedRowid at h
  cases hw : t.rowidAlias.bind fun i => converted[i]? with
  | none =>
    rw [hw] at h
    cases h
  | some w =>
    obtain ⟨i, halias, hi⟩ := Option.bind_eq_some_iff.1 hw
    obtain ⟨v, c, hv, hc, hvw⟩ := (hconv.value i w).1 hi
    rw [hw] at h
    cases w <;> cases h
    all_goals exact .rowidType halias hv hc hvw (by rintro _ ⟨⟩) (by rintro ⟨⟩)

theorem wantedRowid_eq_ok (h : wantedRowid t converted rows = .ok rowid) :
    (∃ i, t.rowidAlias = some i ∧ converted[i]? = some (.integer rowid)) ∨ (rowid = nextRowid rows ∧
        ∀ (i : Nat) (w : Value), t.rowidAlias = some i → converted[i]? = some w → w = .null) := by
  unfold wantedRowid at h
  cases hw : t.rowidAlias.bind fun i => converted[i]? with
  | none =>
    rw [hw] at h
    refine .inr ⟨(Except.ok.inj h).symm, fun i w halias hi => ?_⟩
    rw [halias, Option.bind_some, hi] at hw
    cases hw
  | some w =>
    rw [hw] at h
    cases w with
    | integer n =>
      obtain ⟨i, halias, hi⟩ := Option.bind_eq_some_iff.1 hw
      exact .inl ⟨i, halias, Except.ok.inj h ▸ hi⟩
    | null =>
      refine .inr ⟨(Except.ok.inj h).symm, fun i w halias hi => ?_⟩
      rw [halias, Option.bind_some, hi] at hw
      exact Option.some.inj hw
    | _ => cases h

theorem requireFree_eq_ok (h : requireFree t rows rowid = .ok ()) : ∀ row ∈ rows, row.rowid ≠ rowid := by
  unfold requireFree at h
  split at h
  · cases h
  · rename_i hfree
    simpa using hfree

theorem requireFree_eq_error (hconv : Converts t values converted)
    (hwanted : wantedRowid t converted (s.rows t.id) = .ok rowid) (h : requireFree t (s.rows t.id) rowid = .error e) :
    Refused s t values e := by
  unfold requireFree at h
  split at h
  · rename_i htaken
    cases h
    obtain ⟨row, hrow, hsame⟩ := List.any_eq_true.1 htaken
    obtain rfl : row.rowid = rowid := eq_of_beq hsame
    rcases wantedRowid_eq_ok hwanted with ⟨i, halias, hw⟩ | ⟨hnext, hnull⟩
    · obtain ⟨v, c, hv, hc, hinteger⟩ := (hconv.value i _).1 hw
      exact .rowidTaken halias hv hc hrow hinteger
    · -- the next rowid is taken only if it wrapped around
      obtain ⟨greatest, hgreatest, hmax⟩ : ∃ r ∈ s.rows t.id, r.rowid = Int64.maxValue := by
        refine Classical.byContradiction fun hnone => ?_
        have hlt := lt_nextRowid (fun r hr hmax => hnone ⟨r, hr, hmax⟩) row hrow
        exact Int64.lt_irrefl (hnext ▸ hlt)
      exact .full (fun i v c halias hv hc => hnull i _ halias ((hconv.value i _).2 ⟨v, c, hv, hc, rfl⟩)) hgreatest hmax
  · cases h

theorem entry_bind {α : Type} {f : List Row → Change α} {id : Nat} {r : Except StoreError α} :
    Responds (entry id >>= f) s r s' ↔ Responds (f (s.rows id)) (s.setRows id (s.rows id)) r s' := .rfl

theorem insert_responds (h : Responds (insert t values) s r s') :
    (∃ e, r = .error e ∧ Refused s t values e ∧ ∀ id, s'.rows id = s.rows id) ∨
      ∃ rowid, r = .ok rowid ∧ Accepts s t values rowid s' := by
  have hentry (id : Nat) : (s.setRows t.id (s.rows t.id)).rows id = s.rows id := by
    rw [rows_setRows]
    split
    · rename_i hid
      rw [hid]
    · rfl
  rcases responds_except_bind.1 h with ⟨e, he, rfl, rfl⟩ | ⟨converted, hconverted, h⟩
  · exact .inl ⟨e, rfl, convert_eq_error _ he, fun _ => rfl⟩
  have hconv := convert_eq_ok hconverted
  rw [entry_bind] at h
  rcases responds_except_bind.1 h with ⟨e, he, rfl, rfl⟩ | ⟨rowid, hrowid, h⟩
  · exact .inl ⟨e, rfl, wantedRowid_eq_error hconv he, hentry⟩
  rcases responds_except_bind.1 h with ⟨e, he, rfl, rfl⟩ | ⟨⟨⟩, hfree, h⟩
  · exact .inl ⟨e, rfl, requireFree_eq_error hconv hrowid he, hentry⟩
  obtain ⟨rfl, rfl⟩ := responds_pure.1 h
  refine .inr ⟨rowid, rfl, requireFree_eq_ok hfree, ⟨converted, hconv, ?_⟩, fun id hid => ?_⟩
  · rw [rows_setRows, if_pos rfl]
  · rw [rows_setRows, if_neg hid, hentry]

/-- The rows of a table ascend by their rowids and fit its columns. -/
structure Holds (s : Store) (t : Table) : Prop where
  ascending : Ascending (s.rows t.id)
  fits : ∀ row ∈ s.rows t.id, row.Fits t

theorem Holds.congr (h : s.Holds t) (hrows : s'.rows t.id = s.rows t.id) : s'.Holds t :=
  ⟨hrows ▸ h.ascending, hrows ▸ h.fits⟩

theorem Holds.insert (h : s.Holds t) (hu : u.Sound)
    (hsame : t.id = u.id → t.columns = u.columns ∧ t.rowidAlias = u.rowidAlias)
    (hresponds : Responds (insert u values) s r s') : s'.Holds t := by
  rcases insert_responds hresponds with ⟨_, -, -, hrows⟩ | ⟨rowid, -, haccepts⟩
  · exact h.congr (hrows t.id)
  by_cases hid : t.id = u.id
  · obtain ⟨hcolumns, halias⟩ := hsame hid
    obtain ⟨converted, hconv, hrows⟩ := haccepts.rows
    have hfits : (rowOf u rowid converted).Fits t := by
      obtain ⟨hwidth, haffinity, hnotNull, hrowid⟩ := fits_rowOf hu hconv rowid
      exact ⟨hcolumns ▸ hwidth, hcolumns ▸ halias ▸ haffinity, hcolumns ▸ hnotNull, halias ▸ hrowid⟩
    rw [← hid] at hrows
    refine ⟨?_, fun row hrow => ?_⟩
    · rw [hrows]
      exact h.ascending.insertRow fun row hrow => haccepts.new row (hid ▸ hrow)
    · rw [hrows] at hrow
      rcases mem_insertRow.1 hrow with rfl | hrow
      · exact hfits
      · exact h.fits row hrow
  · exact h.congr (haccepts.others t.id hid)

/-- The store after inserts of values into tables, whether they succeed or not. -/
def after (s : Store) (requests : List (Table × List Value)) : Store :=
  requests.foldl (fun s request => ((Store.insert request.1 request.2).run s).2) s

theorem Holds.after {requests : List (Table × List Value)} (h : s.Holds t)
    (hrequests : ∀ request ∈ requests, request.1.Sound ∧
      (t.id = request.1.id → t.columns = request.1.columns ∧ t.rowidAlias = request.1.rowidAlias)) :
    (s.after requests).Holds t := by
  induction requests generalizing s with
  | nil => exact h
  | cons request requests ih =>
    obtain ⟨⟨hsound, hsame⟩, hrest⟩ := List.forall_mem_cons.1 hrequests
    exact ih (h.insert hsound hsame rfl) hrest

end Store

/-! ## Tables of a catalog -/

namespace Catalog

variable {c : Catalog} {calls first second : List Call} {t u : Table}

/-- The table was in the catalog after some of the calls. -/
def Made (c : Catalog) (calls : List Call) (t : Table) : Prop := ∃ first, first <+: calls ∧ t ∈ (c.after first).tables

theorem Made.sound (hc : c.Sound) (h : c.Made calls t) : t.Sound := by
  obtain ⟨first, -, ht⟩ := h
  exact (hc.after first).1.tables t ht

/-- Later a table of the same number is the same one, with further indexes at most. -/
theorem Sound.extends_of_prefix (hc : c.Sound) (h : first <+: second) (ht : t ∈ (c.after first).tables)
    (hu : u ∈ (c.after second).tables) (hid : t.id = u.id) : t.Extends u := by
  obtain ⟨rest, rfl⟩ := h
  have hafter : c.after (first ++ rest) = (c.after first).after rest := List.foldl_append
  obtain ⟨hfirst, -⟩ := hc.after first
  obtain ⟨hsecond, hgrows⟩ := hfirst.after rest
  obtain ⟨i, hi⟩ := List.getElem?_of_mem ht
  obtain ⟨later, hlater, hextends⟩ := hgrows i t hi
  have hlaterid : later.id = u.id := by
    obtain ⟨more, rfl⟩ := hextends
    exact hid
  rw [hafter] at hu
  exact hsecond.eq_of_id (List.mem_of_getElem? hlater) hu hlaterid ▸ hextends

theorem Made.same_columns (hc : c.Sound) (ht : c.Made calls t) (hu : c.Made calls u) (hid : t.id = u.id) :
    t.columns = u.columns ∧ t.rowidAlias = u.rowidAlias := by
  obtain ⟨first, hfirst, ht⟩ := ht
  obtain ⟨second, hsecond, hu⟩ := hu
  rcases List.prefix_or_prefix_of_prefix hfirst hsecond with hprefix | hprefix
  · obtain ⟨_, rfl⟩ := hc.extends_of_prefix hprefix ht hu hid
    exact ⟨rfl, rfl⟩
  · obtain ⟨_, rfl⟩ := hc.extends_of_prefix hprefix hu ht hid.symm
    exact ⟨rfl, rfl⟩

end Catalog

theorem Store.holds_after {collations : Collations} {functions : Functions} {calls : List Call}
    {requests : List (Table × List Value)}
    (hrequests : ∀ request ∈ requests, (without collations functions).Made calls request.1)
    {t : Table} (ht : (without collations functions).Made calls t) : (empty.after requests).Holds t := by
  have hc := sound_without collations functions
  have hempty : empty.Holds t := ⟨.nil, List.forall_mem_nil _⟩
  exact hempty.after fun request hrequest =>
    ⟨(hrequests request hrequest).sound hc, ht.same_columns hc (hrequests request hrequest)⟩

namespace Example

/-- Inserts into a table as it was first and as it is with its index: one with the rowid 5, one without a rowid, and
one that is refused since 5 is taken. -/
def storeRequests (t u : Table) : List (Table × List Value) :=
  [(t, [.integer 5, .text "x"]), (u, [.null, .null]), (t, [.integer 5, .null])]

end Example

end ScalarSql
