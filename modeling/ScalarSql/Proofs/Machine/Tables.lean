import ScalarSql.Proofs.Machine.Steps

/-!
# Ephemeral tables

An IN test over a long list looks its left side up in an ephemeral table. This module says what the
instructions on such tables do. The keys of a table are ordered, and `Key.insert` finds the place of a
new key by halving; all that a look-up needs is that no key is lost, and that a NULL key comes first.
-/

namespace ScalarSql

open Instr Machine

/-! ## Keys in order -/

namespace Key

variable {cs : List (Option Collation)} {keys : List Key} {key k : Key} {p : Nat → Bool} {c : Option Collation}

theorem mem_insert : k ∈ insert cs keys key ↔ k = key ∨ k ∈ keys := by
  have hmem : k ∈ keys ↔ k ∈ keys.take (place cs keys key) ∨ k ∈ keys.drop (place cs keys key) := by
    rw [← List.mem_append, List.take_append_drop]
  rw [insert, List.mem_append, List.mem_cons, hmem]
  exact or_left_comm

theorem isSome_find? {probe : Key} : (find? cs keys probe).isSome = keys.any fun k => compare cs probe k == .eq := by
  rw [find?, List.findIdx?_isSome]

theorem le_bisect {fuel base size j : Nat} (hp : ∀ i < j, p i) (hj : j ≤ base + size) (hfuel : size ≤ fuel) :
    j ≤ bisect p fuel base size := by
  induction fuel generalizing base size with
  | zero =>
    show j ≤ base
    omega
  | succ fuel ih =>
    rw [bisect]
    split
    · by_cases hbase : base < j
      · rw [if_pos (by simp [hp base hbase]; omega)]
        omega
      · split <;> omega
    · by_cases hhalf : p (base + size / 2)
      · simp only [if_pos hhalf]
        exact ih (by omega) (by omega)
      · have hle : j ≤ base + size / 2 := Nat.not_lt.1 fun hlt => hhalf (hp _ hlt)
        simp only [if_neg hhalf]
        exact ih (by omega) (by omega)

theorem bisect_le {fuel base size j : Nat} (hp : ∀ i, j ≤ i → p i = false) (hbase : base ≤ j) :
    bisect p fuel base size ≤ j := by
  have hlt {i : Nat} (hi : p i) : i < j := Nat.not_le.1 fun hle => by simp [hp i hle] at hi
  induction fuel generalizing base size with
  | zero => exact hbase
  | succ fuel ih =>
    rw [bisect]
    split
    · split
      · exact hlt (Bool.and_eq_true_iff.1 ‹_›).2
      · exact hbase
    · refine ih ?_
      split
      · exact Nat.le_of_lt (hlt ‹_›)
      · exact hbase

/-- A NULL key comes first. -/
def NullFirst (keys : List Key) : Prop := [Value.null] ∈ keys → keys.head? = some [Value.null]

theorem compare_null_right (cs : List (Option Collation)) (v : Value) : (compare cs [v] [.null] == .lt) = false := by
  cases v <;> rfl

theorem compare_null_left {v : Value} (hv : v ≠ .null) : compare cs [.null] [v] = .lt := by
  cases v <;> first
    | exact absurd rfl hv
    | rfl

/-- No key is less than NULL, so a new NULL comes first. -/
theorem place_null (hsingle : ∀ k ∈ keys, ∃ v, k = [v]) : place cs keys [.null] = 0 := by
  refine Nat.le_zero.1 (bisect_le (fun i _ => ?_) (Nat.le_refl 0))
  cases hk : keys[i]? with
  | none => rfl
  | some k =>
    obtain ⟨x, rfl⟩ := hsingle k (List.mem_of_getElem? hk)
    exact compare_null_right cs x

/-- NULLs are less than any other key, so it comes behind them. -/
theorem le_place {v : Value} {j : Nat} (hv : v ≠ .null) (hj : j ≤ keys.length)
    (hnull : ∀ i < j, keys[i]? = some [.null]) :
    j ≤ place cs keys [v] :=
  le_bisect (fun i hi => by simp [hnull i hi, compare_null_left hv]) (by omega) (by omega)

theorem NullFirst.insert (h : NullFirst keys) (hsingle : ∀ k ∈ keys, ∃ v, k = [v]) (v : Value) :
    NullFirst (Key.insert [c] keys [v]) := by
  intro hmem
  by_cases hv : v = .null
  · simp [Key.insert, hv, place_null hsingle]
  · have hold : [Value.null] ∈ keys := by
      rcases mem_insert.1 hmem with heq | hold
      · exact absurd (List.cons.inj heq).1.symm hv
      · exact hold
    obtain ⟨rest, rfl⟩ := List.head?_eq_some_iff.1 (h hold)
    have hplace : 1 ≤ place [c] ([Value.null] :: rest) [v] :=
      le_place hv (by simp) fun i hi => by rw [Nat.lt_one_iff.1 hi]; rfl
    obtain ⟨i, hi⟩ := Nat.exists_eq_add_of_le' hplace
    simp [Key.insert, hi]

end Key

/-! ## Cursors -/

def Cursor.isStored (c : Cursor) : Bool :=
  match c.data with
  | .ephemeral _ => false
  | _ => true

/-- The cursor, but for its place in an ephemeral table. -/
def Cursor.anchored (c : Cursor) : Cursor :=
  match c.data with
  | .ephemeral t => { data := .ephemeral t, collations := c.collations }
  | _ => c

theorem Cursor.isStored_anchored (c : Cursor) : c.anchored.isStored = c.isStored := by
  obtain ⟨data, collations, position, nullRow⟩ := c
  cases data <;> rfl

theorem Cursor.anchored_of_isStored {c : Cursor} (h : c.isStored) : c.anchored = c := by
  obtain ⟨data, collations, position, nullRow⟩ := c
  cases data with
  | ephemeral => cases h
  | _ => rfl

namespace Machine

variable {m m1 : Machine} {n k : Int} {t : Nat} {cur : Cursor} {cs : List (Option Collation)}
  {keys : List Key}

theorem cursor?_setCursor (m : Machine) (n : Int) (cur : Cursor) (k : Int) :
    (m.setCursor n cur).cursor? k = if k = n then some cur else m.cursor? k := by
  have hfilter (l : List (Int × Cursor)) (hk : k ≠ n) : (l.filter (·.1 != n)).lookup k = l.lookup k := by
    induction l with
    | nil => rfl
    | cons p l ih =>
      obtain ⟨i, x⟩ := p
      by_cases hi : i = n
      · subst hi
        have hne : (k == i) = false := by simpa using hk
        simp [List.lookup_cons, hne, ih]
      · by_cases hki : k = i
        · subst hki
          simp [hi]
        · have hne : (k == i) = false := by simpa using hki
          simp [hi, List.lookup_cons, hne, ih]
  unfold setCursor cursor?
  rw [List.lookup_cons]
  by_cases hk : k = n
  · simp [hk]
  · have hne : (k == n) = false := by simpa using hk
    simp [hne, hk, hfilter m.cursors hk]

/-- The cursor of a number, but for its place in an ephemeral table. -/
def anchor? (m : Machine) (n : Int) : Option Cursor := (m.cursor? n).map Cursor.anchored

/-- A cursor on a table or an index is the same if it is but for its place in an ephemeral table. -/
theorem cursor?_of_anchor? (h : m1.anchor? n = m.anchor? n)
    (hstored : ∀ cur, m.cursor? n = some cur → cur.isStored) : m1.cursor? n = m.cursor? n := by
  unfold anchor? at h
  cases hm : m.cursor? n with
  | none =>
    rw [hm] at h
    simpa using h
  | some cur =>
    rw [hm] at h
    obtain ⟨cur1, hcur1, heq⟩ := Option.map_eq_some_iff.1 h
    have hcur := hstored cur hm
    have hcur' : cur1.isStored := by
      rw [← Cursor.isStored_anchored, heq, Cursor.isStored_anchored, hcur]
    rw [Cursor.anchored_of_isStored hcur, Cursor.anchored_of_isStored hcur'] at heq
    rw [hcur1, heq]

theorem anchor?_congr (h : m1.cursors = m.cursors) (n : Int) : m1.anchor? n = m.anchor? n := by
  rw [anchor?, anchor?, cursor?, cursor?, h]

/-- The cursor is on an ephemeral table with the given collating sequences. -/
def On (m : Machine) (n : Int) (t : Nat) (cs : List (Option Collation)) : Prop :=
  m.anchor? n = some { data := .ephemeral t, collations := cs }

/-- The cursor is on an ephemeral table with the given collating sequences and keys. -/
structure Tabled (m : Machine) (n : Int) (t : Nat) (cs : List (Option Collation)) (keys : List Key) : Prop where
  on : m.On n t cs
  keys : m.ephemeral[t]? = some keys

/-- Every ephemeral table has one cursor at most, and no cursor is on a table that is not there. -/
structure Separate (m : Machine) : Prop where
  made : ∀ n t cs, m.On n t cs → t < m.ephemeral.size
  single : ∀ n k t cs cs', m.On n t cs → m.On k t cs' → n = k

/-- The table stays if neither its cursor nor its keys are touched. -/
theorem Tabled.frame (h : m.Tabled n t cs keys) (hcursor : m1.anchor? n = m.anchor? n)
    (htable : t < m.ephemeral.size → m1.ephemeral[t]? = m.ephemeral[t]?) : m1.Tabled n t cs keys :=
  ⟨hcursor.trans h.on, (htable (Array.getElem?_eq_some_iff.1 h.keys).1).trans h.keys⟩

theorem Tabled.cursor (h : m.Tabled n t cs keys) :
    ∃ cur, m.cursor? n = some cur ∧ cur.data = .ephemeral t ∧ cur.collations = cs ∧ m.entries cur = keys := by
  obtain ⟨cur, hcur, heq⟩ := Option.map_eq_some_iff.1 h.on
  obtain ⟨data, collations, position, nullRow⟩ := cur
  cases data with
  | ephemeral t' =>
    cases heq
    refine ⟨_, hcur, rfl, rfl, ?_⟩
    simp [entries, Array.getD_eq_getD_getElem?, h.keys]
  | rows | keys => cases heq

theorem Separate.of_anchors (h : m.Separate) (hanchors : ∀ n, m1.anchor? n = m.anchor? n)
    (hephemeral : m.ephemeral.size ≤ m1.ephemeral.size) : m1.Separate where
  made n t cs ht := Nat.lt_of_lt_of_le (h.made n t cs ((hanchors n).symm.trans ht)) hephemeral
  single n k t cs cs' hn hk := h.single n k t cs cs' ((hanchors n).symm.trans hn) ((hanchors k).symm.trans hk)

/-! ### Moving a cursor -/

/-- A cursor on an ephemeral table may be moved, and nothing else changes. -/
structure Moves (m m1 : Machine) : Prop where
  anchors : ∀ n, m1.anchor? n = m.anchor? n
  rest : ∃ cursors, m1 = { m with cursors }

theorem Moves.setCursor {cur1 : Cursor} (hcur : m.cursor? n = some cur)
    (h : cur1.anchored = cur.anchored) : Moves m (m.setCursor n cur1) where
  anchors k := by
    rw [anchor?, cursor?_setCursor]
    split
    · rename_i hk
      rw [hk, anchor?, hcur, Option.map_some, Option.map_some, h]
    · rfl
  rest := ⟨_, rfl⟩

/-! ### Making and filling a table -/

/-- The machine with a cursor on a new ephemeral table. -/
def withTable (m : Machine) (n : Int) (cs : List (Option Collation)) (keys : List Key) : Machine :=
  ({ m with ephemeral := m.ephemeral.push keys } : Machine).setCursor n
    { data := .ephemeral m.ephemeral.size, collations := cs }

/-- The machine with other keys in an ephemeral table. -/
def setTable (m : Machine) (t : Nat) (keys : List Key) : Machine :=
  { m with ephemeral := m.ephemeral.setIfInBounds t keys }

theorem anchor?_withTable : (m.withTable n cs keys).anchor? k =
      if k = n then some { data := .ephemeral m.ephemeral.size, collations := cs } else m.anchor? k := by
  rw [anchor?, withTable, cursor?_setCursor]
  split <;> rfl

theorem withTable_ephemeral : (m.withTable n cs keys).ephemeral = m.ephemeral.push keys := rfl

theorem tabled_withTable : (m.withTable n cs keys).Tabled n m.ephemeral.size cs keys where
  on := by rw [On, anchor?_withTable, if_pos rfl]
  keys := by simp [withTable_ephemeral]

theorem setTable_withTable (keys' : List Key) :
    (m.withTable n cs keys).setTable m.ephemeral.size keys' = m.withTable n cs keys' := by
  simp [setTable, withTable, setCursor, Array.setIfInBounds_def, Array.set_push]

theorem Separate.withTable (h : m.Separate) (n : Int) (cs : List (Option Collation)) (keys : List Key) :
    (m.withTable n cs keys).Separate := by
  have hon (k : Int) (t : Nat) (cs' : List (Option Collation)) (hk : (m.withTable n cs keys).On k t cs') :
      k = n ∧ t = m.ephemeral.size ∨ m.On k t cs' := by
    rw [On, anchor?_withTable] at hk
    split at hk
    · rename_i hkn
      cases hk
      exact .inl ⟨hkn, rfl⟩
    · exact .inr hk
  have hsize : (m.withTable n cs keys).ephemeral.size = m.ephemeral.size + 1 := by
    rw [withTable_ephemeral, Array.size_push]
  refine ⟨fun k t cs1 hk => ?_, fun k k' t cs1 cs2 hk hk' => ?_⟩
  · rcases hon k t cs1 hk with ⟨-, rfl⟩ | hk
    · omega
    · have hlt := h.made k t cs1 hk
      omega
  · rcases hon k t cs1 hk with ⟨hkn, ht⟩ | hold <;> rcases hon k' t cs2 hk' with ⟨hkn', ht'⟩ | hold'
    · exact hkn.trans hkn'.symm
    · have hlt := h.made k' t cs2 hold'
      omega
    · have hlt := h.made k t cs1 hold
      omega
    · exact h.single k k' t cs1 cs2 hold hold'

theorem setTable_ne {t' : Nat} (ht : t' ≠ t) (keys : List Key) :
    (m.setTable t keys).ephemeral[t']? = m.ephemeral[t']? := by
  rw [setTable, Array.getElem?_setIfInBounds, if_neg (Ne.symm ht)]

theorem setTable_size : (m.setTable t keys).ephemeral.size = m.ephemeral.size := by
  simp [setTable]

theorem setTable_setTable (keys' : List Key) : (m.setTable t keys).setTable t keys' = m.setTable t keys' := by
  simp [setTable]

theorem Tabled.setTable (h : m.Tabled n t cs keys) (keys' : List Key) : (m.setTable t keys').Tabled n t cs keys' where
  on := h.on
  keys := by
    have hlt := (Array.getElem?_eq_some_iff.1 h.keys).1
    simp [Machine.setTable, hlt]

theorem setTable_self (h : m.ephemeral[t]? = some keys) : m.setTable t keys = m := by
  obtain ⟨hlt, rfl⟩ := Array.getElem?_eq_some_iff.1 h
  simp [setTable, Array.setIfInBounds_def, hlt]

theorem Separate.setTable (h : m.Separate) (t : Nat) (keys : List Key) : (m.setTable t keys).Separate :=
  h.of_anchors (fun _ => rfl) (Nat.le_of_eq setTable_size.symm)

theorem on_setCursor (hstored : cur.isStored) : (m.setCursor n cur).On k t cs ↔ k ≠ n ∧ m.On k t cs := by
  rw [On, anchor?, cursor?_setCursor]
  split
  · rename_i hkn
    refine ⟨fun h => ?_, fun h => absurd hkn h.1⟩
    rw [Option.map_some, Cursor.anchored_of_isStored hstored] at h
    cases h
    cases hstored
  · rename_i hkn
    exact ⟨fun h => ⟨hkn, h⟩, fun h => h.2⟩

theorem Separate.setCursor (h : m.Separate) (hstored : cur.isStored) : (m.setCursor n cur).Separate where
  made k t cs hk := h.made k t cs ((on_setCursor hstored).1 hk).2
  single k k' t cs cs' hk hk' :=
    h.single k k' t cs cs' ((on_setCursor hstored).1 hk).2 ((on_setCursor hstored).1 hk').2

end Machine

/-! ## Instructions -/

namespace Instr

variable {a : Nat} {m : Machine} {n r s : Int} {t : Nat} {cs : List (Option Collation)} {keys : List Key} {i : Instr}
  {cur : Cursor}

theorem step_openEphemeral (width : Int) (cs : List Collation) :
    ((of .openEphemeral n width 0 (.keyInfo cs)).step a).outcome m = (.ok .next, m.withTable n (cs.map some) []) := by
  simp [step, openCursor, openEphemeral, withTable]

/-- A record of one register is made, and the register that holds it is NULL from then on. -/
theorem step_makeRecord (c : Affinity) (hr : 0 ≤ r) :
    ∃ m1, ((of .makeRecord s 1 r (.affinity (Affinity.codes [c]))).step a).outcome m =
        (.ok .next, m1) ∧ m.Writes (· = r) m1 ∧ m1.records.lookup r = some [(m.register s).applyAffinity c] := by
  refine ⟨_, by simp [step, makeRecord, Exec.outcome_write hr]; rfl, ?_, ?_⟩
  · have hsame (records : List (Int × Key)) : m.Writes (· = r) { m with records } :=
      ⟨fun _ _ => rfl, rfl, rfl, rfl, rfl, rfl, rfl, rfl⟩
    exact (hsame _).trans (.setRegister _ hr _)
  · simp [setRegister, registersFrom, Affinity.codes, recordOf]

theorem step_idxInsert {key : Key} (hkey : m.records.lookup r = some key) (h : m.Tabled n t cs keys) :
    ((of .idxInsert n r).step a).outcome m = (.ok .next, m.setTable t (Key.insert cs keys key)) := by
  obtain ⟨cur, hcur, hdata, rfl, -⟩ := h.cursor
  have harray : m.ephemeral.modify t (fun keys => Key.insert cur.collations keys key) =
      m.ephemeral.setIfInBounds t (Key.insert cur.collations keys key) := by
    apply Array.ext_getElem?
    intro i
    rw [Array.getElem?_modify, Array.getElem?_setIfInBounds]
    by_cases hi : t = i
    · have hlt := (Array.getElem?_eq_some_iff.1 h.keys).1
      rw [if_pos hi, if_pos hi, if_pos hlt, ← hi, h.keys]
      rfl
    · rw [if_neg hi, if_neg hi]
  simp [step, insertRecord, hkey, Exec.outcome_cursor hcur, hdata, setTable, harray]

theorem step_rewind_cursor (hi : i.opcode = .rewind) (h : m.cursor? i.p1 = some cur) :
    (i.step a).outcome m = (.ok (.jumpIf (m.entries cur).isEmpty), m.setCursor i.p1
      { cur with position := if (m.entries cur).isEmpty then none else some 0, nullRow := false }) := by
  cases i
  cases hi
  cases hentries : m.entries cur <;> simp [step, rewind, Exec.outcome_cursor h, hentries, Flow.jumpIf]

theorem step_next_cursor (top : Int) {k : Nat} (h : m.cursor? n = some cur) (hposition : cur.position = some k) :
    ((of .next n top).step a).outcome m =
      if k + 1 < (m.entries cur).length then (.ok .jump, m.setCursor n { cur with position := some (k + 1) })
      else (.ok .next, m.setCursor n { cur with position := none }) := by
  simp only [step, of, advance, Exec.outcome_bind, Exec.outcome_cursor h, Exec.outcome_get, hposition,
    Option.map_some, Option.getD_some]
  split <;> rfl

theorem step_rewind (hi : i.opcode = .rewind) (h : m.Tabled i.p1 t cs keys) :
    ∃ m1, (i.step a).outcome m = (.ok (.jumpIf keys.isEmpty), m1) ∧ m.Moves m1 ∧
      ∃ cur, m1.cursor? i.p1 = some cur ∧ m1.column? cur 0 = keys.head?.bind (·.head?) := by
  obtain ⟨cur, hcur, hdata, -, rfl⟩ := h.cursor
  refine ⟨_, step_rewind_cursor hi hcur, .setCursor hcur (by simp [Cursor.anchored, hdata]), _,
    (m.cursor?_setCursor i.p1 _ i.p1).trans (if_pos rfl), ?_⟩
  cases hentries : m.entries cur with
  | nil => rfl
  | cons key keys =>
    show ((m.entries cur)[0]?.bind fun key => Key.field? key 0) = _
    rw [hentries]
    cases key <;> rfl

theorem step_probe (wanted : Bool) (hi : i.opcode = if wanted then .found else .notFound) (hp4 : i.p4 = .int 1)
    (h : m.Tabled i.p1 t cs keys) : ∃ m1, (i.step a).outcome m =
        (.ok (.jumpIf ((keys.any fun k => Key.compare cs [m.register i.p3] k == .eq) == wanted)), m1) ∧ m.Moves m1 := by
  obtain ⟨cur, hcur, hdata, rfl, hentries⟩ := h.cursor
  have hprobe : ∃ m1, (i.probe wanted).outcome m =
      (.ok (.jumpIf ((Key.find? cur.collations keys [m.register i.p3]).isSome == wanted)), m1) ∧
      m.Moves m1 := by
    let cur1 := { cur with position := Key.find? cur.collations keys [m.register i.p3] }
    refine ⟨m.setCursor i.p1 cur1, ?_, .setCursor hcur (by simp [Cursor.anchored, hdata, cur1])⟩
    simp [probe, hp4, Exec.outcome_cursor hcur, hdata, hentries, registersFrom, cur1]
  rw [Key.isSome_find?] at hprobe
  cases i
  cases wanted <;> cases hi <;> exact hprobe

/-- An instruction that lets the code behind it run once. -/
theorem step_once (hi : i.opcode = .once) : (i.step a).outcome m =
      if a ∈ m.visited then (.ok .jump, m) else (.ok .next, { m with visited := a :: m.visited }) := by
  cases i
  cases hi
  by_cases ha : a ∈ m.visited <;> simp [step, ha]

theorem step_ret : ((of .ret r).step a).outcome m = (.ok (.goto ((m.register r).asInteger.toInt + 1).toNat), m) := by
  simp [step]

end Instr

end ScalarSql
