import ScalarSql.Proofs.Attempts
import ScalarSql.Schema.Catalog

/-!
# The schema under any calls

Tables and indexes are added by calls that may refuse. `Catalog.Sound` is what holds of the catalog after any such
calls: names and numbers are unique, a table has at most one key, and an index belongs to its table. A call that
refuses changes no table, index or counter, and no call changes a table but for the indexes that it adds
(`Catalog.schema_kept`).

Numbers of columns have 16 bits. So an index names columns of its table only if the table has at most 32768 of
them; beyond that a number wraps around (`Catalog.key_column_wrapped`).
-/

namespace ScalarSql

open Catalog Text

variable {i : Nat} {t u : Table} {columns : List Column}

/-! ## Names and columns -/

theorem Text.lower_eq_iff {a b : String} : lower a = lower b ↔ sameName a b := by
  rw [sameName_iff, lower, lower, String.ofList_inj]

theorem columnNumber_of_lt (h : i < 32768) : columnNumber i = i := Int16.toInt_ofNat_of_lt h

theorem getElem?_unique_of_countP {α : Type} {p : α → Bool} {l : List α} (h : l.countP p ≤ 1) {j : Nat} {a b : α}
    (hi : l[i]? = some a) (ha : p a) (hj : l[j]? = some b) (hb : p b) : i = j := by
  induction l generalizing i j with
  | nil => cases hi
  | cons x l ih =>
    rw [List.countP_cons] at h
    have hnone (hx : p x) : l.countP p = 0 := by
      rw [if_pos hx] at h
      omega
    have hall (hx : p x) (c : α) (hc : c ∈ l) : p c ≠ true := List.countP_eq_zero.1 (hnone hx) c hc
    cases i with
    | zero =>
      cases hi
      cases j with
      | zero => rfl
      | succ j => exact absurd hb (hall ha b (List.mem_of_getElem? hj))
    | succ i =>
      cases j with
      | zero =>
        cases hj
        exact absurd ha (hall hb a (List.mem_of_getElem? hi))
      | succ j => rw [ih (Nat.le_trans (Nat.le_add_right _ _) h) hi hj]

theorem eq_of_pairwise_not {α : Type} {R : α → α → Prop} (hsymm : ∀ {a b}, R a b → R b a) {l : List α}
    (h : l.Pairwise fun a b => ¬R a b) {a b : α} (ha : a ∈ l) (hb : b ∈ l) (hab : R a b) : a = b := by
  induction h with
  | nil => cases ha
  | cons hx _ ih =>
    rcases List.mem_cons.1 ha with rfl | ha' <;> rcases List.mem_cons.1 hb with rfl | hb'
    · rfl
    · exact absurd hab (hx b hb')
    · exact absurd (hsymm hab) (hx a ha')
    · exact ih ha' hb'

structure Table.Sound (t : Table) : Prop where
  columns : t.columns ≠ []
  key : t.columns.countP (·.primaryKey) ≤ 1
  names : t.columns.Pairwise fun a b => sameName a.name b.name = false
  /-- The alias of the rowid is the position of the key of the type INTEGER. -/
  rowidAlias : ∀ i, t.rowidAlias = some i ↔ ∃ c, t.columns[i]? = some c ∧ c.isRowidAlias = true

/-- The table with further indexes behind its own. -/
def Table.Extends (t u : Table) : Prop := ∃ more, u = { t with indexes := t.indexes ++ more }

structure Index.Sound (t : Table) (i : Index) : Prop where
  table : i.tableId = t.id
  keys : i.keys ≠ []
  /-- Each of them is the rowid or a column of the table, if the numbers of 16 bits suffice for these. -/
  column : t.columns.length ≤ 32768 → ∀ k ∈ i.keys, k.column = rowidColumn ∨ (t.column? k.column).isSome = true
  /-- It has the affinity that the table gives to its number. -/
  affinity : ∀ k ∈ i.keys, k.affinity = t.columnAffinity k.column
  /-- It refuses NULL if the table says so for its number. -/
  notNull : ∀ k ∈ i.keys, k.notNull = t.columnNotNull k.column

theorem Table.Extends.refl (t : Table) : t.Extends t := ⟨[], by rw [List.append_nil]⟩

theorem Table.Extends.trans {v : Table} (htu : t.Extends u) (huv : u.Extends v) : t.Extends v := by
  obtain ⟨is, rfl⟩ := htu
  obtain ⟨js, rfl⟩ := huv
  exact ⟨is ++ js, by rw [List.append_assoc]⟩

theorem Table.Sound.extends (h : t.Sound) (htu : t.Extends u) : u.Sound := by
  obtain ⟨more, rfl⟩ := htu
  exact ⟨h.columns, h.key, h.names, h.rowidAlias⟩

theorem Index.Sound.extends {i : Index} (h : i.Sound t) (htu : t.Extends u) : i.Sound u := by
  obtain ⟨more, rfl⟩ := htu
  exact ⟨h.table, h.keys, h.column, h.affinity, h.notNull⟩

theorem Table.extends_withIndex (i : Index) (t : Table) : t.Extends (t.withIndex i) := by
  unfold withIndex
  split
  · exact ⟨[i], rfl⟩
  · exact .refl t

@[simp]
theorem Table.withIndex_id (i : Index) (t : Table) : (t.withIndex i).id = t.id := by
  unfold withIndex
  split <;> rfl

@[simp]
theorem Table.withIndex_name (i : Index) (t : Table) : (t.withIndex i).name = t.name := by
  unfold withIndex
  split <;> rfl

@[simp]
theorem Table.withIndex_columns (i : Index) (t : Table) : (t.withIndex i).columns = t.columns := by
  unfold withIndex
  split <;> rfl

theorem Table.withIndex_indexes (i : Index) (t : Table) :
    (t.withIndex i).indexes = if t.id = i.tableId then t.indexes ++ [i] else t.indexes := by
  unfold withIndex
  split <;> rfl

theorem Table.mem_withIndex {i j : Index} (h : j ∈ (t.withIndex i).indexes) :
    j ∈ t.indexes ∨ (t.id = i.tableId ∧ j = i) := by
  rw [withIndex_indexes] at h
  split at h
  · exact (List.mem_append.1 h).imp_right fun hj => ⟨‹_›, List.mem_singleton.1 hj⟩
  · exact .inl h

theorem Table.sound_of_columns {id : Nat} {name : String} (hne : columns ≠ [])
    (hkey : columns.countP (·.primaryKey) ≤ 1) (hnames : columns.Pairwise fun a b => sameName a.name b.name = false) :
    ({ id, name, columns, rowidAlias := columns.findIdx? (·.isRowidAlias), indexes := [] } : Table).Sound := by
  refine ⟨hne, hkey, hnames, fun i => ?_⟩
  have hprimary (d : Column) (hd : d.isRowidAlias) : d.primaryKey := (Bool.and_eq_true_iff.1 hd).1
  constructor
  · intro h
    obtain ⟨hi, halias, -⟩ := List.findIdx?_eq_some_iff_getElem.1 h
    exact ⟨columns[i], List.getElem?_eq_getElem hi, halias⟩
  · rintro ⟨d, hd, halias⟩
    obtain ⟨j, hj⟩ := Option.isSome_iff_exists.1
      (List.findIdx?_isSome.trans (List.any_eq_true.2 ⟨d, List.mem_of_getElem? hd, halias⟩))
    obtain ⟨hlt, hjalias, -⟩ := List.findIdx?_eq_some_iff_getElem.1 hj
    rw [hj, getElem?_unique_of_countP hkey hd (hprimary d halias) (List.getElem?_eq_getElem hlt) (hprimary _ hjalias)]

namespace Catalog

variable {call : Call} {r : Except SchemaError Unit} {tableName indexName : String} {c1 c2 c3 : Catalog}
  {wanted : List (String × Option String)}

/-! ## Calls -/

/-- A call that adds a table or an index, or that registers other collating sequences and functions. -/
inductive Call where
  | addTable (name : String) (columns : List Column)
  | addIndex (tableName indexName : String) (columns : List (String × Option String)) (unique : Bool)
    (partialOn : Option String)
  /-- Replaces the collating sequences, with their factory, and the functions. -/
  | register (collations : Collations) (functions : Functions)

def Call.make : Call → Change Unit
  | .addTable name columns => do
    let _ ← Catalog.addTable name columns
    return ()
  | .addIndex tableName indexName columns unique partialOn => do
    let _ ← Catalog.addIndex tableName indexName columns unique partialOn
    return ()
  | .register collations functions => modify fun c => { c with collations, functions }

/-- The catalog after calls, whether they succeed or not. -/
def after (c : Catalog) (calls : List Call) : Catalog := calls.foldl (fun c call => (call.make.run c).2) c

theorem after_cons {c c' : Catalog} {calls : List Call} (h : Responds call.make c r c') :
    c.after (call :: calls) = c'.after calls := by
  rw [after, List.foldl_cons, show call.make.run c = (r, c') from h]
  rfl

/-! ## What a call does -/

/-- The tables, their indexes and the counters are the same. -/
structure SameSchema (c c' : Catalog) : Prop where
  tables : c'.tables = c.tables
  nextTableId : c'.nextTableId = c.nextTableId
  nextIndexId : c'.nextIndexId = c.nextIndexId

theorem SameSchema.refl (c : Catalog) : SameSchema c c := ⟨rfl, rfl, rfl⟩

theorem SameSchema.trans (h : SameSchema c1 c2) (h' : SameSchema c2 c3) : SameSchema c1 c3 :=
  ⟨h'.tables.trans h.tables, h'.nextTableId.trans h.nextTableId, h'.nextIndexId.trans h.nextIndexId⟩

variable {c c' : Catalog} {name : String} {columns : List Column} {before : List String} {t : Table}

theorem responds_check {α : Type} {p : Prop} [Decidable p] {e : SchemaError} {f : PUnit → Change α}
    {r : Except SchemaError α} : Responds (if p then (throw e : Change PUnit) >>= f else f ⟨⟩) c r c' ↔
      (p ∧ r = .error e ∧ c' = c) ∨ (¬p ∧ Responds (f ⟨⟩) c r c') := by
  by_cases hp : p
  · simp [hp, responds_throw]
  · simp [hp]

/-- Whatever the call answers, it leaves the schema as it was. -/
def Spares {α : Type} (x : Change α) : Prop := ∀ c r c', Responds x c r c' → SameSchema c c'

namespace Spares

variable {α β : Type}

theorem pure (a : α) : Spares (Pure.pure a) := by
  intro c r c' h
  rw [(responds_pure.1 h).2]
  exact .refl c

theorem throw (e : SchemaError) : Spares (MonadExcept.throw e : Change α) := by
  intro c r c' h
  rw [(responds_throw.1 h).2]
  exact .refl c

theorem bind {x : Change α} {f : α → Change β} (hx : Spares x) (hf : ∀ a, Spares (f a)) : Spares (x >>= f) := by
  intro c r c' h
  rcases responds_bind.1 h with ⟨e, he, -⟩ | ⟨a, c1, ha, hr⟩
  · exact hx c _ c' he
  · exact (hx c _ c1 ha).trans (hf a c1 r c' hr)

theorem check {p : Prop} [Decidable p] {e : SchemaError} {f : PUnit → Change α} (hf : Spares (f ⟨⟩)) :
    Spares (if p then (MonadExcept.throw e : Change PUnit) >>= f else f ⟨⟩) := by
  intro c r c' h
  rcases responds_check.1 h with ⟨-, -, rfl⟩ | ⟨-, h⟩
  · exact .refl c'
  · exact hf c r c' h

end Spares

theorem requireCollation_spares (name : String) : Spares (requireCollation name) := by
  refine .bind (fun c r c' h => ?_) fun found => ?_
  · rw [(responds_lift.1 h).2]
    exact ⟨rfl, rfl, rfl⟩
  · cases found with
    | some _ => exact .pure ()
    | none => exact .throw _

theorem requireCollation?_spares (name : Option String) : Spares (requireCollation? name) := by
  cases name with
  | some name => exact requireCollation_spares name
  | none => exact .pure ()

theorem checkColumns_spares (before : List String) (columns : List Column) : Spares (checkColumns before columns) := by
  induction columns generalizing before with
  | nil => exact .pure ()
  | cons column columns ih =>
    unfold checkColumns
    exact .check (.bind (requireCollation?_spares _) fun _ => ih _)

theorem keyColumns_spares (t : Table) (columns : List (String × Option String)) : Spares (keyColumns t columns) := by
  induction columns with
  | nil => exact .pure []
  | cons column columns ih =>
    obtain ⟨name, explicit⟩ := column
    unfold keyColumns
    cases keyColumn? t name with
    | none => exact .throw _
    | some number => exact .bind (requireCollation_spares _) fun _ => .bind ih fun _ => .pure _

theorem names_of_checkColumns (h : Responds (checkColumns before columns) c (.ok ()) c') :
    columns.Pairwise (fun a b => sameName a.name b.name = false) ∧ ∀ column ∈ columns, lower column.name ∉ before := by
  induction columns generalizing before c with
  | nil => exact ⟨.nil, List.forall_mem_nil _⟩
  | cons column columns ih =>
    unfold checkColumns at h
    rcases responds_check.1 h with ⟨-, ⟨⟩, -⟩ | ⟨hnew, h⟩
    rcases responds_bind.1 h with ⟨_, -, ⟨⟩⟩ | ⟨_, c1, -, h⟩
    obtain ⟨hnames, hbefore⟩ := ih h
    refine ⟨.cons (fun other hother => ?_) hnames, List.forall_mem_cons.2 ⟨by simpa using hnew, fun other hother => ?_⟩⟩
    · rw [Bool.eq_false_iff]
      exact fun hsame => hbefore other hother (lower_eq_iff.2 hsame ▸ List.mem_cons_self)
    · exact fun hmem => hbefore other hother (List.mem_cons_of_mem _ hmem)

/-- A table that is added has a new name and the next number, and stands behind the others. -/
structure Adds (c : Catalog) (name : String) (columns : List Column) (t : Table) (c' : Catalog) : Prop where
  new : c.table? name = none
  /-- The table has the number, the name and the columns, and no index. -/
  table : t = { id := c.nextTableId, name, columns, rowidAlias := columns.findIdx? (·.isRowidAlias), indexes := [] }
  sound : t.Sound
  tables : c'.tables = c.tables ++ [t]
  nextTableId : c'.nextTableId = c.nextTableId + 1
  nextIndexId : c'.nextIndexId = c.nextIndexId

theorem addTable_responds {r : Except SchemaError Table} (h : Responds (addTable name columns) c r c') :
    (∃ e, r = .error e ∧ SameSchema c c') ∨ ∃ t, r = .ok t ∧ Adds c name columns t c' := by
  unfold addTable at h
  rw [responds_get_bind] at h
  rcases responds_check.1 h with ⟨-, rfl, rfl⟩ | ⟨hnew, h⟩
  · exact .inl ⟨_, rfl, .refl _⟩
  rcases responds_check.1 h with ⟨-, rfl, rfl⟩ | ⟨hne, h⟩
  · exact .inl ⟨_, rfl, .refl _⟩
  rcases responds_check.1 h with ⟨-, rfl, rfl⟩ | ⟨hkey, h⟩
  · exact .inl ⟨_, rfl, .refl _⟩
  rcases responds_bind.1 h with ⟨e, he, rfl⟩ | ⟨_, c1, hchecks, h⟩
  · exact .inl ⟨e, rfl, checkColumns_spares _ _ _ _ _ he⟩
  have hsame := checkColumns_spares _ _ _ _ _ hchecks
  obtain ⟨rfl, rfl⟩ := responds_pure.1 h
  refine .inr ⟨_, rfl, Option.not_isSome_iff_eq_none.1 hnew, ?_, ?_, ?_, ?_, hsame.nextIndexId⟩
  · rw [hsame.nextTableId]
  · exact Table.sound_of_columns (by simpa using hne) (by omega) (names_of_checkColumns hchecks).1
  · rw [hsame.tables]
  · rw [hsame.nextTableId]

/-- A key column as the table makes it for a name. -/
structure KeyOf (t : Table) (name : String) (k : IndexColumn) : Prop where
  column : keyColumn? t name = some k.column
  affinity : k.affinity = t.columnAffinity k.column
  notNull : k.notNull = t.columnNotNull k.column

theorem keys_of_keyColumns {keys : List IndexColumn} (h : Responds (keyColumns t wanted) c (.ok keys) c') :
    keys.length = wanted.length ∧ ∀ k ∈ keys, ∃ name, KeyOf t name k := by
  induction wanted generalizing c c' keys with
  | nil =>
    obtain ⟨⟨⟩, -⟩ := responds_pure.1 h
    exact ⟨rfl, List.forall_mem_nil _⟩
  | cons column wanted ih =>
    obtain ⟨name, explicit⟩ := column
    unfold keyColumns at h
    cases hcolumn : keyColumn? t name with
    | none =>
      rw [hcolumn] at h
      cases (responds_throw.1 h).1
    | some number =>
      rw [hcolumn] at h
      rcases responds_bind.1 h with ⟨_, -, ⟨⟩⟩ | ⟨_, c1, -, h⟩
      rcases responds_bind.1 h with ⟨_, -, ⟨⟩⟩ | ⟨rest, c2, hrest, h⟩
      obtain ⟨⟨⟩, -⟩ := responds_pure.1 h
      obtain ⟨hlength, hkeys⟩ := ih hrest
      exact ⟨congrArg (· + 1) hlength, List.forall_mem_cons.2 ⟨⟨name, hcolumn, rfl, rfl⟩, hkeys⟩⟩

/-- A name stands for the rowid or for a column, as far as numbers of 16 bits go. -/
theorem column_of_keyColumn? {number : Int} (hwidth : t.columns.length ≤ 32768)
    (h : keyColumn? t name = some number) : number = rowidColumn ∨ (t.column? number).isSome := by
  unfold keyColumn? at h
  split at h
  · exact .inl (Option.some.inj h).symm
  · obtain ⟨i, hi, rfl⟩ := Option.map_eq_some_iff.1 h
    obtain ⟨hlt, -⟩ := List.findIdx?_eq_some_iff_getElem.1 hi
    refine .inr ?_
    rw [columnNumber_of_lt (by omega)]
    simp [Table.column?, hlt]

/-- An index that is added belongs to a table that has no other index of its name, and has the next number. -/
structure AddsIndex (c : Catalog) (tableName indexName : String) (t : Table) (i : Index) (c' : Catalog) : Prop where
  table : c.table? tableName = some t
  name : i.name = indexName
  new : ∀ j ∈ t.indexes, sameName j.name indexName = false
  id : i.id = c.nextIndexId
  sound : i.Sound t
  /-- It stands behind the others of the table, and nothing else changes. -/
  tables : c'.tables = c.tables.map (Table.withIndex i)
  nextTableId : c'.nextTableId = c.nextTableId
  nextIndexId : c'.nextIndexId = c.nextIndexId + 1

theorem addIndex_responds {unique : Bool} {partialOn : Option String} {r : Except SchemaError Index}
    (h : Responds (addIndex tableName indexName wanted unique partialOn) c r c') :
    (∃ e, r = .error e ∧ SameSchema c c') ∨ ∃ t i, r = .ok i ∧ AddsIndex c tableName indexName t i c' := by
  unfold addIndex at h
  rw [responds_get_bind] at h
  cases htable : c.table? tableName with
  | none =>
    rw [htable] at h
    obtain ⟨rfl, rfl⟩ := responds_throw.1 h
    exact .inl ⟨_, rfl, .refl _⟩
  | some t =>
    rw [htable] at h
    rcases responds_check.1 h with ⟨-, rfl, rfl⟩ | ⟨hnew, h⟩
    · exact .inl ⟨_, rfl, .refl _⟩
    rcases responds_check.1 h with ⟨-, rfl, rfl⟩ | ⟨hne, h⟩
    · exact .inl ⟨_, rfl, .refl _⟩
    rcases responds_bind.1 h with ⟨e, he, rfl⟩ | ⟨keys, c1, hkeys, h⟩
    · exact .inl ⟨e, rfl, keyColumns_spares _ _ _ _ _ he⟩
    have hsame := keyColumns_spares _ _ _ _ _ hkeys
    obtain ⟨hlength, hkeys⟩ := keys_of_keyColumns hkeys
    obtain ⟨rfl, rfl⟩ := responds_pure.1 h
    refine .inr ⟨t, _, rfl, htable, rfl, ?_, hsame.nextIndexId, ?_, ?_, hsame.nextTableId, ?_⟩
    · simpa using hnew
    · refine ⟨rfl, fun hnil => ?_, fun hwidth k hk => ?_, fun k hk => ?_, fun k hk => ?_⟩
      · rw [show keys = [] from hnil] at hlength
        exact hne (List.isEmpty_iff.2 (List.length_eq_zero_iff.1 hlength.symm))
      · obtain ⟨_, hk⟩ := hkeys k hk
        exact column_of_keyColumn? hwidth hk.column
      · exact (hkeys k hk).choose_spec.affinity
      · exact (hkeys k hk).choose_spec.notNull
    · rw [hsame.tables]
    · rw [hsame.nextIndexId]

/-! ## What all calls keep -/

/-- A catalog whose names and numbers are unique, and whose tables and indexes are sound. -/
structure Sound (c : Catalog) : Prop where
  names : c.tables.Pairwise fun t u => sameName t.name u.name = false
  /-- The tables have different numbers, in the order of their creation. -/
  ids : c.tables.Pairwise (·.id < ·.id)
  idsBelow : ∀ t ∈ c.tables, t.id < c.nextTableId
  tables : ∀ t ∈ c.tables, t.Sound
  indexes : ∀ t ∈ c.tables, ∀ i ∈ t.indexes, i.Sound t
  indexNames : ∀ t ∈ c.tables, t.indexes.Pairwise fun i j => sameName i.name j.name = false
  /-- They stand in the order of their declaration, and so of their numbers. -/
  indexOrder : ∀ t ∈ c.tables, t.indexes.Pairwise (·.id < ·.id)
  /-- No two indexes of the catalog have the same number. -/
  indexIds : ∀ t ∈ c.tables, ∀ u ∈ c.tables, ∀ i ∈ t.indexes, ∀ j ∈ u.indexes, i.id = j.id → i = j
  indexIdsBelow : ∀ t ∈ c.tables, ∀ i ∈ t.indexes, i.id < c.nextIndexId

/-- The tables of the first catalog have the same places in the second one, with further indexes at most. -/
def Grows (c c' : Catalog) : Prop :=
  ∀ (i : Nat) (t : Table), c.tables[i]? = some t → ∃ u, c'.tables[i]? = some u ∧ t.Extends u

section

variable (h : c.Sound)

include h

theorem Sound.eq_of_id (ht : t ∈ c.tables) (hu : u ∈ c.tables) (hid : t.id = u.id) : t = u := by
  have hne : c.tables.Pairwise fun t u => ¬t.id = u.id := h.ids.imp Nat.ne_of_lt
  exact eq_of_pairwise_not Eq.symm hne ht hu hid

theorem Sound.table?_eq (ht : t ∈ c.tables) (hname : sameName t.name name) : c.table? name = some t := by
  have hne : c.tables.Pairwise fun t u => ¬sameName t.name u.name := h.names.imp Bool.eq_false_iff.1
  cases hfound : c.table? name with
  | none => exact absurd hname (List.find?_eq_none.1 hfound t ht)
  | some u =>
    have hu := List.find?_some hfound
    have hsame : sameName t.name u.name := sameName_trans hname (sameName_comm u.name name ▸ hu)
    rw [eq_of_pairwise_not (fun hab => sameName_comm _ _ ▸ hab) hne ht (List.mem_of_find?_eq_some hfound) hsame]

theorem Sound.sameSchema (hc : SameSchema c c') : c'.Sound := by
  obtain ⟨tables, nextTableId, nextIndexId, collations, functions⟩ := c'
  obtain ⟨rfl, rfl, rfl⟩ := hc
  exact { h with }

theorem Sound.adds (hc : Adds c name columns t c') : c'.Sound := by
  have hid : t.id = c.nextTableId := by rw [hc.table]
  have hname : t.name = name := by rw [hc.table]
  have hindexes : t.indexes = [] := by rw [hc.table]
  have hempty {P : Index → Prop} : ∀ i ∈ t.indexes, P i := hindexes ▸ List.forall_mem_nil P
  -- what holds of the tables before holds of all tables, if it holds of the new one
  have hall {P : Table → Prop} (hold : ∀ u ∈ c.tables, P u) (hnew : P t) : ∀ u ∈ c'.tables, P u := by
    rw [hc.tables]
    exact List.forall_mem_append.2 ⟨hold, List.forall_mem_singleton.2 hnew⟩
  have hfree (u : Table) (hu : u ∈ c.tables) : sameName u.name t.name = false := by
    rw [hname]
    exact Bool.eq_false_iff.2 (List.find?_eq_none.1 hc.new u hu)
  constructor
  · rw [hc.tables]
    exact List.pairwise_append.2 ⟨h.names, List.pairwise_singleton _ _,
      fun u hu v hv => List.mem_singleton.1 hv ▸ hfree u hu⟩
  · rw [hc.tables]
    exact List.pairwise_append.2 ⟨h.ids, List.pairwise_singleton _ _,
      fun u hu v hv => List.mem_singleton.1 hv ▸ hid ▸ h.idsBelow u hu⟩
  · rw [hc.nextTableId]
    exact hall (fun u hu => Nat.lt_succ_of_lt (h.idsBelow u hu)) (by omega)
  · exact hall h.tables hc.sound
  · exact hall h.indexes hempty
  · exact hall h.indexNames (hindexes ▸ .nil)
  · exact hall h.indexOrder (hindexes ▸ .nil)
  · refine hall (fun u hu => hall (h.indexIds u hu) fun i _ => hempty) fun v _ => hempty
  · rw [hc.nextIndexId]
    exact hall h.indexIdsBelow hempty

theorem Sound.addsIndex {i : Index} (hc : AddsIndex c tableName indexName t i c') : c'.Sound := by
  have ht : t ∈ c.tables := List.mem_of_find?_eq_some hc.table
  -- only the table that was found gets the index
  have howner (u : Table) (hu : u ∈ c.tables) (hid : u.id = i.tableId) : u = t :=
    h.eq_of_id hu ht (hid.trans hc.sound.table)
  have hall {P : Table → Prop} (hP : ∀ u ∈ c.tables, P (u.withIndex i)) : ∀ u ∈ c'.tables, P u := by
    rw [hc.tables]
    exact List.forall_mem_map.2 hP
  have hbelow (u : Table) (hu : u ∈ c.tables) (j : Index) (hj : j ∈ u.indexes) : j.id < i.id :=
    hc.id ▸ h.indexIdsBelow u hu j hj
  have hlist {R : Index → Index → Prop} (hold : ∀ u ∈ c.tables, u.indexes.Pairwise R) (hnew : ∀ j ∈ t.indexes, R j i) :
      ∀ u ∈ c'.tables, u.indexes.Pairwise R := by
    refine hall fun u hu => ?_
    rw [Table.withIndex_indexes]
    split
    · rename_i hid
      refine List.pairwise_append.2 ⟨hold u hu, List.pairwise_singleton _ _, fun j hj k hk => ?_⟩
      rw [List.mem_singleton.1 hk]
      exact hnew j (howner u hu hid ▸ hj)
    · exact hold u hu
  constructor
  · rw [hc.tables, List.pairwise_map]
    simpa using h.names
  · rw [hc.tables, List.pairwise_map]
    simpa using h.ids
  · rw [hc.nextTableId]
    exact hall fun u hu => by simpa using h.idsBelow u hu
  · exact hall fun u hu => (h.tables u hu).extends (u.extends_withIndex i)
  · refine hall fun u hu j hj => ?_
    rcases Table.mem_withIndex hj with hj | ⟨hid, rfl⟩
    · exact (h.indexes u hu j hj).extends (u.extends_withIndex i)
    · exact (howner u hu hid ▸ hc.sound).extends (u.extends_withIndex j)
  · exact hlist h.indexNames fun j hj => hc.name ▸ hc.new j hj
  · exact hlist h.indexOrder (hbelow t ht)
  · refine hall fun u hu => hall fun v hv j hj k hk hjk => ?_
    rcases Table.mem_withIndex hj with hj' | ⟨-, rfl⟩ <;> rcases Table.mem_withIndex hk with hk' | ⟨-, rfl⟩
    · exact h.indexIds u hu v hv j hj' k hk' hjk
    · exact absurd hjk (Nat.ne_of_lt (hbelow u hu j hj'))
    · exact absurd hjk.symm (Nat.ne_of_lt (hbelow v hv k hk'))
    · rfl
  · refine hall fun u hu j hj => ?_
    rw [hc.nextIndexId, ← hc.id]
    rcases Table.mem_withIndex hj with hj | ⟨-, rfl⟩
    · exact Nat.lt_succ_of_lt (hbelow u hu j hj)
    · exact Nat.lt_succ_self _

end

theorem Grows.refl (c : Catalog) : c.Grows c := fun _ t ht => ⟨t, ht, .refl t⟩

theorem Grows.trans (h : c1.Grows c2) (h' : c2.Grows c3) : c1.Grows c3 := by
  intro i t ht
  obtain ⟨u, hu, htu⟩ := h i t ht
  obtain ⟨v, hv, huv⟩ := h' i u hu
  exact ⟨v, hv, htu.trans huv⟩

theorem SameSchema.grows (h : SameSchema c c') : c.Grows c' := by
  intro i t ht
  exact ⟨t, h.tables ▸ ht, .refl t⟩

theorem Adds.grows (h : Adds c name columns t c') : c.Grows c' := by
  intro i u hu
  have hlt : i < c.tables.length := (List.getElem?_eq_some_iff.1 hu).1
  exact ⟨u, by rw [h.tables, List.getElem?_append_left hlt, hu], .refl u⟩

theorem AddsIndex.grows {i : Index} (h : AddsIndex c tableName indexName t i c') : c.Grows c' := by
  intro j u hu
  exact ⟨u.withIndex i, by rw [h.tables, List.getElem?_map, hu]; rfl, u.extends_withIndex i⟩

/-- A call leaves the schema as it was, or it succeeds and adds a table or an index. -/
theorem Call.make_responds (h : Responds call.make c r c') :
    SameSchema c c' ∨ (r = .ok () ∧ ((∃ name columns t, Adds c name columns t c') ∨
      ∃ tableName indexName t i, AddsIndex c tableName indexName t i c')) := by
  cases call with
  | addTable name columns =>
    rcases responds_bind.1 h with ⟨e, he, rfl⟩ | ⟨t, c1, ht, h⟩
    · rcases addTable_responds he with ⟨_, -, hsame⟩ | ⟨_, ⟨⟩, -⟩
      exact .inl hsame
    · obtain ⟨rfl, rfl⟩ := responds_pure.1 h
      rcases addTable_responds ht with ⟨_, ⟨⟩, -⟩ | ⟨_, -, hadds⟩
      exact .inr ⟨rfl, .inl ⟨_, _, _, hadds⟩⟩
  | addIndex tableName indexName wanted unique partialOn =>
    rcases responds_bind.1 h with ⟨e, he, rfl⟩ | ⟨i, c1, hi, h⟩
    · rcases addIndex_responds he with ⟨_, -, hsame⟩ | ⟨_, _, ⟨⟩, -⟩
      exact .inl hsame
    · obtain ⟨rfl, rfl⟩ := responds_pure.1 h
      rcases addIndex_responds hi with ⟨_, ⟨⟩, -⟩ | ⟨_, _, -, hadds⟩
      exact .inr ⟨rfl, .inr ⟨_, _, _, _, hadds⟩⟩
  | register collations functions =>
    obtain ⟨rfl, rfl⟩ := responds_modify.1 h
    exact .inl ⟨rfl, rfl, rfl⟩

theorem Sound.make (hc : c.Sound) (h : Responds call.make c r c') : c'.Sound ∧ c.Grows c' := by
  rcases Call.make_responds h with hsame | ⟨-, ⟨_, _, _, hadds⟩ | ⟨_, _, _, _, hadds⟩⟩
  · exact ⟨hc.sameSchema hsame, hsame.grows⟩
  · exact ⟨hc.adds hadds, hadds.grows⟩
  · exact ⟨hc.addsIndex hadds, hadds.grows⟩

theorem Sound.after (hc : c.Sound) (calls : List Call) : (c.after calls).Sound ∧ c.Grows (c.after calls) := by
  induction calls generalizing c with
  | nil => exact ⟨hc, .refl c⟩
  | cons call calls ih =>
    obtain ⟨hsound, hgrows⟩ := hc.make (rfl : Responds call.make c _ _)
    obtain ⟨hsound', hgrows'⟩ := ih hsound
    exact ⟨hsound', hgrows.trans hgrows'⟩

/-- A catalog without tables, which knows any collating sequences and functions. -/
def without (collations : Collations) (functions : Functions) : Catalog := { empty with collations, functions }

theorem sound_without (collations : Collations) (functions : Functions) : (without collations functions).Sound where
  names := .nil
  ids := .nil
  idsBelow := List.forall_mem_nil _
  tables := List.forall_mem_nil _
  indexes := List.forall_mem_nil _
  indexNames := List.forall_mem_nil _
  indexOrder := List.forall_mem_nil _
  indexIds := List.forall_mem_nil _
  indexIdsBelow := List.forall_mem_nil _

/-- The catalog was made by calls from one without tables. -/
def Reached (c : Catalog) : Prop := ∃ collations functions calls, c = (without collations functions).after calls

theorem Reached.sound (h : c.Reached) : c.Sound := by
  obtain ⟨collations, functions, calls, rfl⟩ := h
  exact ((sound_without collations functions).after calls).1

/-- After any calls the catalog is sound, and it finds each table by its name in any case of letters. A further call
keeps the tables but for the indexes that it adds; one that refuses changes no table, index or counter. -/
theorem schema_kept (h : c.Reached) :
    c.Sound ∧ (∀ t ∈ c.tables, ∀ name, Text.sameName t.name name = true → c.table? name = some t) ∧
      ∀ call r c', Responds (Call.make call) c r c' → c.Grows c' ∧ ∀ e, r = .error e → SameSchema c c' := by
  have hsound := h.sound
  refine ⟨hsound, fun t ht name hname => hsound.table?_eq ht hname, fun call r c' hcall => ⟨(hsound.make hcall).2, ?_⟩⟩
  rintro e rfl
  rcases Call.make_responds hcall with hsame | ⟨⟨⟩, -⟩
  exact hsame

end Catalog

namespace Example

/-- Calls that add a table of two columns and an index, and are refused when the name of the table is used again. -/
def schemaCalls : List Call :=
  [.addTable "t" [{ name := "id", declaredType := some "integer", primaryKey := true },
      { name := "b", declaredType := none }],
    .addIndex "T" "i" [("B", some "nocase"), ("rowid", none)] true none,
    .addTable "T" [{ name := "c", declaredType := none }]]

end Example

open Example in
/-- The one table is found as T. Its key is the alias of the rowid, and the index has the number of the table. -/
theorem Catalog.schema_kept_refused :
    ∃ t i, (Catalog.empty.after schemaCalls).tables = [t] ∧ t.indexes = [i] ∧ t.rowidAlias = some 0 ∧
      i.tableId = t.id ∧ (Catalog.empty.after schemaCalls).table? "T" = some t := by
  have hreached : (Catalog.empty.after schemaCalls).Reached := ⟨.builtin, .builtin, schemaCalls, rfl⟩
  obtain ⟨hsound, hfind, -⟩ := Catalog.schema_kept hreached
  obtain ⟨t, ht⟩ : ∃ t, (Catalog.empty.after schemaCalls).tables = [t] := ⟨_, rfl⟩
  obtain ⟨i, hi⟩ : ∃ i, t.indexes = [i] := by
    cases ht
    exact ⟨_, rfl⟩
  have hmem : t ∈ (Catalog.empty.after schemaCalls).tables := ht ▸ List.mem_singleton_self t
  refine ⟨t, i, ht, hi, ((hsound.tables t hmem).rowidAlias 0).2 ?_, ?_, hfind t hmem "T" ?_⟩
  · cases ht
    exact ⟨_, rfl, rfl⟩
  · exact (hsound.indexes t hmem i (hi ▸ List.mem_singleton_self i)).table
  · cases ht
    rfl

/-! ## Wide tables -/

theorem Catalog.checkColumns_ok {c : Catalog} {before : List String}
    (hplain : ∀ column ∈ columns, column.collation = none)
    (hnames : columns.Pairwise fun a b => sameName a.name b.name = false)
    (hnew : ∀ column ∈ columns, lower column.name ∉ before) : Responds (checkColumns before columns) c (.ok ()) c := by
  induction hnames generalizing before with
  | nil => rfl
  | @cons column columns hfirst _ ih =>
    unfold checkColumns
    have hcolumn : lower column.name ∉ before := hnew column List.mem_cons_self
    refine responds_check.2 (.inr ⟨by simpa using hcolumn, responds_bind.2 (.inr ⟨(), c, ?_, ?_⟩)⟩)
    · rw [hplain column List.mem_cons_self]
      rfl
    · refine ih (fun d hd => hplain d (List.mem_cons_of_mem _ hd)) fun d hd => ?_
      rw [List.mem_cons, not_or, lower_eq_iff, sameName_comm, hfirst d hd]
      exact ⟨Bool.false_ne_true, hnew d (List.mem_cons_of_mem _ hd)⟩

theorem Table.columnIndex?_eq {column : Column} (h : t.columns[i]? = some column)
    (hnames : t.columns.Pairwise fun a b => sameName a.name b.name = false) : t.columnIndex? column.name = some i := by
  obtain ⟨hi, rfl⟩ := List.getElem?_eq_some_iff.1 h
  refine List.findIdx?_eq_some_iff_getElem.2 ⟨hi, sameName_self _, fun j hj => ?_⟩
  rw [List.pairwise_iff_getElem.1 hnames j i (Nat.lt_trans hj hi) hi hj]
  exact Bool.false_ne_true

namespace Example

variable {n : Nat}

/-- The name of the column at a position: one letter more than the position. -/
def wideName (i : Nat) : String := String.ofList (List.replicate (i + 1) 'c')

theorem sameName_wideName (i j : Nat) : sameName (wideName i) (wideName j) ↔ i = j := by
  rw [sameName_iff, wideName, wideName, String.toList_ofList, String.toList_ofList, List.map_replicate,
    List.map_replicate, List.replicate_inj]
  simp

def wideColumns (n : Nat) : List Column := (List.range n).map fun i => { name := wideName i, declaredType := none }

theorem length_wideColumns (n : Nat) : (wideColumns n).length = n := by
  rw [wideColumns, List.length_map, List.length_range]

theorem wideColumns_names (n : Nat) : (wideColumns n).Pairwise fun a b => sameName a.name b.name = false := by
  refine List.pairwise_map.2 (List.pairwise_lt_range.imp fun hlt => Bool.eq_false_iff.2 fun hsame => ?_)
  exact Nat.ne_of_lt hlt ((sameName_wideName _ _).1 hsame)

theorem wideColumns_plain {column : Column} (h : column ∈ wideColumns n) :
    column.collation = none ∧ column.primaryKey = false := by
  obtain ⟨_, -, rfl⟩ := List.mem_map.1 h
  exact ⟨rfl, rfl⟩

/-- Calls that make a table of `n + 1` columns and an index on the last of them. -/
def wideCalls (n : Nat) : List Call :=
  [.addTable "w" (wideColumns (n + 1)), .addIndex "w" "i" [(wideName n, none)] false none]

def wideTable (n : Nat) : Table :=
  { id := 1, name := "w", columns := wideColumns n, rowidAlias := (wideColumns n).findIdx? (·.isRowidAlias)
    indexes := [] }

def wideCatalog (n : Nat) : Catalog := { empty with tables := [wideTable n], nextTableId := 2 }

def wideKey (n i : Nat) : IndexColumn :=
  { column := columnNumber i, collation := "BINARY", affinity := (wideTable n).columnAffinity (columnNumber i)
    notNull := (wideTable n).columnNotNull (columnNumber i) }

open Catalog in
theorem addTable_wide (n : Nat) :
    Responds (addTable "w" (wideColumns (n + 1))) empty (.ok (wideTable (n + 1))) (wideCatalog (n + 1)) := by
  unfold addTable
  rw [responds_get_bind]
  refine responds_check.2 (.inr ⟨Bool.false_ne_true, responds_check.2 (.inr ⟨?_, responds_check.2 (.inr ⟨?_, ?_⟩)⟩)⟩)
  · simp [wideColumns]
  · rw [List.countP_eq_zero.2 fun column hmem => ne_true_of_eq_false (wideColumns_plain hmem).2]
    decide
  · refine responds_bind.2 (.inr ⟨(), empty, ?_, rfl⟩)
    exact checkColumns_ok (fun column hmem => (wideColumns_plain hmem).1) (wideColumns_names _)
      fun _ _ => List.not_mem_nil

theorem collation_wide (n : Nat) (number : Int) : ((wideTable n).column? number).bind (·.collation) = none := by
  refine Option.bind_eq_none_iff.2 fun column hcolumn => ?_
  unfold Table.column? at hcolumn
  split at hcolumn
  · cases hcolumn
  · exact (wideColumns_plain (List.mem_of_getElem? hcolumn)).1

open Catalog in
theorem keyColumns_wide (hi : i < n) :
    ∃ c', Responds (keyColumns (wideTable n) [(wideName i, none)]) (wideCatalog n) (.ok [wideKey n i]) c' := by
  have hcolumn : (wideTable n).columns[i]? = some { name := wideName i, declaredType := none } := by
    simp [wideTable, wideColumns, hi]
  have hrowid : sameName (wideName i) "rowid" = false := by
    simp [sameName, wideName, List.replicate_succ]
  have hkey : keyColumn? (wideTable n) (wideName i) = some (columnNumber i) := by
    rw [keyColumn?, hrowid, Table.columnIndex?_eq hcolumn (wideColumns_names n)]
    rfl
  obtain ⟨c', hbinary⟩ : ∃ c', Responds (requireCollation "BINARY") (wideCatalog n) (.ok ()) c' := ⟨_, rfl⟩
  unfold keyColumns
  simp only [hkey, collation_wide, Option.or_none, Option.getD_none]
  exact ⟨c', responds_bind.2 (.inr ⟨(), c', hbinary, rfl⟩)⟩

def wideIndex (n i : Nat) : Index :=
  { id := 1, name := "i", tableId := 1, keys := [wideKey n i], unique := false, partialOn := none }

open Catalog in
theorem addIndex_wide (hi : i < n) :
    ∃ c', Responds (addIndex "w" "i" [(wideName i, none)] false none) (wideCatalog n) (.ok (wideIndex n i)) c' ∧
      c'.tables = [(wideTable n).withIndex (wideIndex n i)] := by
  have htable : (wideCatalog n).table? "w" = some (wideTable n) := by simp [table?, wideCatalog, wideTable]
  obtain ⟨⟨tables, nextTableId, nextIndexId, collations, functions⟩, hkeys⟩ := keyColumns_wide hi
  obtain ⟨rfl, rfl, rfl⟩ := keyColumns_spares _ _ _ _ _ hkeys
  refine ⟨{ wideCatalog n with
    tables := [(wideTable n).withIndex (wideIndex n i)], nextIndexId := 2, collations, functions }, ?_, rfl⟩
  unfold addIndex
  rw [responds_get_bind, htable]
  refine responds_check.2 (.inr ⟨Bool.false_ne_true, responds_check.2 (.inr ⟨Bool.false_ne_true, ?_⟩)⟩)
  exact responds_bind.2 (.inr ⟨_, _, hkeys, rfl⟩)

theorem tables_wide (n : Nat) :
    (Catalog.empty.after (wideCalls n)).tables = [(wideTable (n + 1)).withIndex (wideIndex (n + 1) n)] := by
  obtain ⟨c', hindex, htables⟩ := addIndex_wide (Nat.lt_succ_self n)
  have hfirst : Responds (Catalog.Call.make (.addTable "w" (wideColumns (n + 1)))) .empty (.ok ())
      (wideCatalog (n + 1)) :=
    responds_bind.2 (.inr ⟨_, _, addTable_wide n, rfl⟩)
  have hsecond : Responds (Catalog.Call.make (.addIndex "w" "i" [(wideName n, none)] false none))
      (wideCatalog (n + 1)) (.ok ()) c' :=
    responds_bind.2 (.inr ⟨_, _, hindex, rfl⟩)
  rw [wideCalls, Catalog.after_cons hfirst, Catalog.after_cons hsecond, ← htables]
  rfl

end Example

open Example in
/-- An index on the last column of a table of 32769 names column -32768, which is neither a column nor the rowid. -/
theorem Catalog.key_column_wrapped :
    ∃ t i k, (Catalog.empty.after (wideCalls 32768)).tables = [t] ∧ t.columns.length = 32769 ∧
      t.indexes = [i] ∧ i.keys = [k] ∧ k.column = -32768 ∧ k.column ≠ rowidColumn ∧ t.column? k.column = none := by
  have hnumber : columnNumber 32768 = -32768 := rfl
  refine ⟨_, wideIndex 32769 32768, wideKey 32769 32768, tables_wide 32768, ?_, rfl, rfl, hnumber, ?_, ?_⟩
  · rw [Table.withIndex_columns, wideTable, length_wideColumns]
  · rw [wideKey, hnumber]
    decide
  · rw [wideKey, hnumber]
    rfl

end ScalarSql
