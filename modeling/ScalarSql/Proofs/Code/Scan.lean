import ScalarSql.Proofs.Code.Finish

/-!
# Scans

A scan runs a body once for each row of a table and delivers the registers that the body filled. The
constants are computed before the first row; what the body may rely on is the same before each row, but
for the place of the cursor. So one round of the loop is proved for any row (`Scanning.round`), and the
rows that a scan delivers follow by induction on the rows that are left.
-/

namespace ScalarSql

open Compiler Gen Instr Machine

/-! ## Rows -/

def RowView.ofRow (r : Row) : RowView where
  column n := Key.field? r.values n
  rowid := .integer r.rowid

def Env.at (env : Env) (cursor : Int) (r : Row) : Env :=
  { env with row := fun n => if n = cursor then some (.ofRow r) else env.row n }

def Cursor.onRow (rows : List Row) (i : Nat) : Cursor := { data := .rows rows, position := some i }

theorem Cursor.view_onRow {rows : List Row} {i : Nat} {r : Row} (h : rows[i]? = some r) :
    (Cursor.onRow rows i).view = .ofRow r := by
  simp [view, onRow, storedEntries, rowid, RowView.ofRow, h]

theorem Env.Fits.at {σ : Scope} {env : Env} (h : env.Fits σ) (cursor : Int) (r : Row) : (env.at cursor r).Fits σ :=
  ⟨h.functions, h.collation, h.own, h.caseBlind.agrees _ _⟩

/-! ## The instructions of the loop -/

namespace Instr

variable {a : Nat} {m : Machine} {cursor : Int} {rows : List Row}

theorem step_halt : ((of .halt).step a).outcome m = (.ok .halt, m) := rfl

theorem step_openRead (t : Table) : ((of .openRead cursor 0 0 (.table t)).step a).outcome m =
      (.ok .next, m.setCursor cursor { data := .rows (m.store.rows t.id) }) := rfl

theorem step_rewind_rows {i : Instr} (hi : i.opcode = .rewind) (h : m.cursor? i.p1 = some { data := .rows rows }) :
    (rows = [] → ∃ m1, (i.step a).outcome m = (.ok (.jumpIf true), m1) ∧ m1.rows = m.rows) ∧
      (rows ≠ [] → (i.step a).outcome m = (.ok (.jumpIf false), m.setCursor i.p1 (.onRow rows 0))) := by
  have hrewind := step_rewind_cursor (a := a) hi h
  cases rows with
  | nil => exact ⟨fun _ => ⟨_, hrewind, rfl⟩, absurd rfl⟩
  | cons r rest => exact ⟨(absurd · (List.cons_ne_nil r rest)), fun _ => hrewind⟩

theorem step_next (top : Int) {k : Nat} (h : m.cursor? cursor = some (.onRow rows k)) :
    (k + 1 < rows.length → ((of .next cursor top).step a).outcome m =
        (.ok .jump, m.setCursor cursor (.onRow rows (k + 1)))) ∧
      (rows.length ≤ k + 1 → ∃ m1, ((of .next cursor top).step a).outcome m = (.ok .next, m1) ∧ m1.rows = m.rows) := by
  have hlength : (m.entries (.onRow rows k)).length = rows.length := List.length_map _
  rw [step_next_cursor top h rfl, hlength]
  exact ⟨fun hlt => if_pos hlt, fun hle => ⟨_, if_neg (Nat.not_lt.2 hle), rfl⟩⟩

theorem step_resultRow (out : Int) (n : Nat) : ((of .resultRow out n).step a).outcome m =
      (.ok .next, { m with rows := m.rows.push (m.registersFrom out n) }) := rfl

end Instr

/-- The instructions of a scan around a body, which ends at `hi`. -/
structure Scans (p : Program) (t : Table) (cursor out : Int) (n hi : Nat) : Prop where
  openRead : p.ops[1]? = some (.of .openRead cursor 0 0 (.table t))
  rewind : p.ops[2]? = some { of .rewind cursor with p2 := ((hi + 2 : Nat) : Int) }
  resultRow : p.ops[hi]? = some (.of .resultRow out n)
  next : p.ops[hi + 1]? = some (.of .next cursor 3)
  halt : p.ops[hi + 2]? = some (.of .halt)

/-! ## One row -/

section

variable {σ : Scope} {c c1 c' : Compiler} {p : Program} {env : Env} {hoisted : List Hoisted}
  {cursor out : Int} {rows : List Row} {r : Row} {ds : List Reading} {t : Table}
  {m m1 : Machine} {i : Nat}

/-- What holds whenever the machine is in a scan, wherever its cursor is. The body of the scan is the code
between two states. -/
structure Scanning (hp : Closed σ c' p) (fits : env.Fits σ) (hoisted : List Hoisted) (c c1 : Compiler)
    (cursor : Int) (m : Machine) : Prop where
  params : m.params = env.params
  /-- The rows under the other cursors are those of the environment. -/
  rows : ∀ n, σ.cursors n → n ≠ cursor → (m.cursor? n).map Cursor.view = env.row n
  stored : ∀ n cur, σ.cursors n → m.cursor? n = some cur → cur.isStored = true
  pending : m.pending = none
  constants : ∀ x ∈ hoisted, x.expr.meaning.value env = some (m.register x.reg)
  kept : (hp.world env fits hoisted).KeptIn c.size c1.size m
  separate : m.Separate

namespace Scanning

variable {hp : Closed σ c' p} {fits : env.Fits σ}

variable (h : Scanning hp fits hoisted c c1 cursor m)

include h

theorem ready (hr : rows[i]? = some r) (hhere : m.cursor? cursor = some (.onRow rows i))
    (hplaced : Placed (hp.world (env.at cursor r) (fits.at cursor r) hoisted) c c1)
    (hconst : ∀ x ∈ hoisted, x.expr.isConstant .notJoin) (hsealed : c.Sealed) :
    Ready (hp.world (env.at cursor r) (fits.at cursor r) hoisted) [] c c1 m :=
  { hplaced with
    held := by simp
    params := h.params
    rows := fun n hn => by
      show _ = if n = cursor then _ else env.row n
      split
      · rename_i he
        rw [he, hhere]
        exact congrArg some (Cursor.view_onRow hr)
      · exact h.rows n hn ‹_›
    stored := h.stored
    pending := h.pending
    constants := fun x hx => by
      rw [← h.constants x hx]
      exact Expr.value_of_isConstant (fits.caseBlind.agrees _ env.row) (by rintro _ ⟨⟩)
        (Expr.isConstant_plain (hconst x hx))
    kept := h.kept
    separate := h.separate
    copied := fun x y k hlast hcopy => absurd hcopy (hsealed x hlast) }

theorem frame {T : Int → Prop}
    (hw : Within (hp.world (env.at cursor r) (fits.at cursor r) hoisted) T c c1 m m1)
    (hT : ∀ s, T s → ¬ (hp.world (env.at cursor r) (fits.at cursor r) hoisted).Holds s)
    (hcursors : ∀ n, σ.cursors n → n < c.cursors) :
    Scanning hp fits hoisted c c1 cursor m1 ∧ ∀ n, σ.cursors n → m1.cursor? n = m.cursor? n := by
  have hsame (n : Int) (hn : σ.cursors n) : m1.cursor? n = m.cursor? n :=
    cursor?_of_anchor? (hw.cursors n (.inl (hcursors n hn))) fun cur => h.stored n cur hn
  refine ⟨⟨hw.params.trans h.params, fun n hn hne => ?_, fun n cur hn hcur => ?_,
    hw.pending.trans h.pending, fun x hx => ?_, hw.kept h.kept, hw.separate h.separate⟩, hsame⟩
  · rw [hsame n hn]
    exact h.rows n hn hne
  · rw [hsame n hn] at hcur
    exact h.stored n cur hn hcur
  · have hholds : (hp.world (env.at cursor r) (fits.at cursor r) hoisted).Holds x.reg := ⟨x, hx, rfl⟩
    rw [hw.registers x.reg (fun hs => hs.elim (fun hf => hf.2 hholds) id) fun ht => hT _ ht hholds]
    exact h.constants x hx

theorem move (hcursor : σ.cursors cursor) (cur : Cursor)
    (hcur : cur.isStored) : Scanning hp fits hoisted c c1 cursor (m.setCursor cursor cur) :=
  { h with
    rows n hn hne := by
      rw [cursor?_setCursor, if_neg hne]
      exact h.rows n hn hne
    stored n cur' hn hcur' := by
      rw [cursor?_setCursor] at hcur'
      split at hcur'
      · cases hcur'
        exact hcur
      · exact h.stored n cur' hn hcur'
    kept q hq hlo hhi hvisited := by
      obtain ⟨t, cs, keys, htabled, hkeys⟩ := h.kept q hq hlo hhi hvisited
      refine ⟨t, cs, keys, ⟨(on_setCursor hcur).2 ⟨?_, htabled.on⟩, htabled.keys⟩, hkeys⟩
      -- the cursor of the scan is on no ephemeral table
      rintro he
      obtain ⟨cur', hcur', hdata, -⟩ := htabled.cursor
      have hstored := h.stored cursor cur' hcursor (he ▸ hcur')
      rw [Cursor.isStored, hdata] at hstored
      cases hstored
    separate := h.separate.setCursor hcur }

theorem deliver (delivered : Array (List Value)) : Scanning hp fits hoisted c c1 cursor { m with rows := delivered } :=
  ⟨h.params, h.rows, h.stored, h.pending, h.constants,
    fun q hq hlo hhi => (h.kept q hq hlo hhi).frame id rfl fun _ _ => rfl, ⟨h.separate.made, h.separate.single⟩⟩

end Scanning

/-- The values that a body computes for a row. -/
def rowValues (env : Env) (cursor : Int) (ds : List Reading) (r : Row) : Option (List Value) :=
  ds.mapM (· (env.at cursor r))

/-- The body of a scan: for each row it fills registers in a row with the values `ds`. -/
structure ScanBody (hp : Closed σ c' p) (fits : env.Fits σ) (hoisted : List Hoisted) (c c1 : Compiler)
    (cursor out : Int) (ds : List Reading) : Prop where
  start : c.size = 3
  isSealed : c.Sealed
  /-- The cursor of the scan is one of those that expressions may read. -/
  reads : σ.cursors cursor
  cursors : ∀ n, σ.cursors n → n < c.cursors
  constant : ∀ x ∈ hoisted, x.expr.isConstant .notJoin = true
  placed : ∀ r, Placed (hp.world (env.at cursor r) (fits.at cursor r) hoisted) c c1
  runs : ∀ r m, Ready (hp.world (env.at cursor r) (fits.at cursor r) hoisted) [] c c1 m →
    RunsFrom (hp.world (env.at cursor r) (fits.at cursor r) hoisted)
      (fun s => InRow out ds.length s ∧ ¬ (hp.world (env.at cursor r) (fits.at cursor r) hoisted).Holds s)
      c c1 (fun env => ds.mapM (· env)) (fun _ => none) (Filled out) m

variable {hp : Closed σ c' p} {fits : env.Fits σ}

section

variable (b : ScanBody hp fits hoisted c c1 cursor out ds) (scans : Scans p t cursor out ds.length c1.size)

include b scans

/-- On a row, the body computes its values, and they are delivered. -/
theorem Scanning.round (h : Scanning hp fits hoisted c c1 cursor m)
    (hr : rows[i]? = some r) (hhere : m.cursor? cursor = some (.onRow rows i)) :
    Leads p.ops (fun a m' => a = c1.size + 1 ∧ Scanning hp fits hoisted c c1 cursor m' ∧
        m'.cursor? cursor = some (.onRow rows i) ∧ ∃ vs, rowValues env cursor ds r = some vs ∧ m'.rows = m.rows.push vs)
      (rowValues env cursor ds r = none) (c1.size - c.size + 1) 3 m := by
  have hbody := b.runs r m (h.ready hr hhere (b.placed r) b.constant b.isSealed)
  rw [← b.start]
  refine hbody.bind (fun a m1 hq => ?_) id
  obtain ⟨⟨vs, hvs, rfl, hfilled⟩, hwithin⟩ := hq
  obtain ⟨hscan, hsame⟩ := h.frame hwithin (fun s hs => hs.2) b.cursors
  refine Leads.next scans.resultRow (step_resultRow out _) (Nat.lt_succ_self 0) (.done ?_)
  refine ⟨rfl, hscan.deliver _, (hsame cursor b.reads).trans hhere, vs, hvs, ?_⟩
  rw [← length_of_mapM hvs, hfilled.registersFrom, hwithin.rows]

/-- For each row that is left, the loop delivers the values of the body. -/
theorem Scanning.leads (before rest : List Row) (h : Scanning hp fits hoisted c c1 cursor m)
    (hrows : rows = before ++ r :: rest) (hhere : m.cursor? cursor = some (.onRow rows before.length)) :
    Leads p.ops (fun a m' => a = c1.size + 2 ∧ ∃ vss, (r :: rest).mapM (rowValues env cursor ds) = some vss ∧
        m'.rows = m.rows ++ vss.toArray)
      ((r :: rest).mapM (rowValues env cursor ds) = none) ((rest.length + 1) * (c1.size - c.size + 2)) 3 m := by
  induction rest generalizing before r m with
  | nil =>
    have hround := h.round b scans (i := before.length) (r := r) (by simp [hrows]) hhere
    refine (hround.bind (k := 1) ?_ fun hnone => by simp [hnone]).mono (by simp)
    rintro _ m1 ⟨rfl, -, hhere1, vs, hvs, hdelivered⟩
    obtain ⟨m2, hstep, hrows2⟩ := (step_next 3 hhere1 (a := c1.size + 1)).2 (by simp [hrows])
    refine Leads.next scans.next hstep (Nat.lt_succ_self 0) (.done ⟨rfl, [vs], ?_, ?_⟩)
    · simp [hvs]
    · rw [hrows2, hdelivered]
      simp
  | cons r' rest ih =>
    have hround := h.round b scans (i := before.length) (r := r) (by simp [hrows]) hhere
    refine (hround.bind (k := 1 + (rest.length + 1) * (c1.size - c.size + 2)) ?_ fun hnone => by
      simp [hnone]).mono (by simp only [List.length_cons, Nat.add_mul]; omega)
    rintro _ m1 ⟨rfl, hscan, hhere1, vs, hvs, hdelivered⟩
    have hstep := (step_next 3 hhere1 (a := c1.size + 1)).1 (by simp [hrows])
    refine Leads.jump (k := (rest.length + 1) * (c1.size - c.size + 2)) scans.next hstep (by omega) ?_
    -- the next round starts with the cursor one row on
    have hnext := hscan.move b.reads (.onRow rows (before.length + 1)) rfl
    refine (ih (r := r') (before ++ [r]) hnext (by simp [hrows]) ?_).weaken ?_ fun hnone => ?_
    · rw [cursor?_setCursor, if_pos rfl, List.length_append]
      rfl
    · rintro _ m' ⟨rfl, vss, hvss, hdelivered'⟩
      refine ⟨rfl, vs :: vss, ?_, ?_⟩
      · rw [List.mapM_cons, hvs, hvss]
        rfl
      · have hsame : (m1.setCursor cursor (.onRow rows (before.length + 1))).rows = m1.rows := rfl
        rw [hdelivered', hsame, hdelivered]
        simp
    · rw [List.mapM_cons, hvs, hnone]
      rfl

end

theorem Scanning.start {c2 c3 : Compiler} {T : Int → Prop} (fresh : Finishes.Fresh σ env m)
    (frame : Frame (hp.world env fits []) T c2 c3 m m1)
    (hconstants : ∀ x ∈ hoisted, x.expr.meaning.value env = some (m1.register x.reg))
    (hcursors : ∀ n, σ.cursors n → n < c2.cursors) (hbehind : c1.size ≤ c2.size) :
    Scanning hp fits hoisted c c1 cursor m1 := by
  have hsame (n : Int) (hn : σ.cursors n) : m1.cursor? n = m.cursor? n :=
    cursor?_of_anchor? (frame.cursors n (.inl (hcursors n hn))) fun cur => fresh.stored n cur hn
  refine ⟨frame.params.trans fresh.params, fun n hn _ => ?_, fun n cur hn hcur => ?_,
    frame.pending.trans fresh.pending, hconstants, fun q hq hlo hhi hvisited => ?_, frame.separate fresh.separate⟩
  · rw [hsame n hn]
    exact fresh.rows n hn
  · rw [hsame n hn] at hcur
    exact fresh.stored n cur hn hcur
  · -- no routine of the body has run
    rcases frame.visited _ hvisited with hvisited | hvisited
    · rw [fresh.visited] at hvisited
      cases hvisited
    · omega

end

/-! ## The code of a scan -/

/-- The catalog has the functions and the collating sequences of the scope. -/
structure Catalog.Fits (σ : Scope) (catalog : Catalog) : Prop where
  functions : catalog.functions = σ.functions
  tame : catalog.collations.Tame
  collations : ∀ name, catalog.collations.answer name = σ.collation name

/-- The cursors that a scan in a setting does not take for itself. -/
def Gen.Setting.Reserves (setting : Setting) (cursor n : Int) : Prop :=
  n ≤ cursor ∨ (∃ k, setting.cursors = some k ∧ n < k) ∨ setting.own = some n

theorem Gen.Setting.reserves_own {setting : Setting} {cursor : Int} (n : Int) (h : setting.own = some n) :
    setting.Reserves cursor n := .inr (.inr h)

/-- The scope has the own row of a setting, and only cursors that a scan in it does not take for itself. -/
structure Gen.Setting.Covers (setting : Setting) (cursor : Int) (σ : Scope) : Prop where
  reserves : ∀ n, σ.cursors n → setting.Reserves cursor n
  own : σ.own = setting.own

/-- A state in which nothing was compiled but the start of the program. -/
structure Compiler.Begun (σ : Scope) (config : Config) (c : Compiler) : Prop where
  /-- The state is good; there are no results yet. -/
  good : c.Good σ.bare
  started : c.Started
  size : c.size = 1
  hoisting : c.hoisting = config.hoistConstants
  config : c.config = config
  used : c.used = []
  highest : c.highest = 0
  hoisted : c.hoisted = #[]
  isSealed : c.Sealed
  shared : c.sharedResults = []

section

variable {σ : Scope} {catalog : Catalog} {config : Config} {c c' : Compiler} {setting : Setting}

theorem Compiler.new_good (h : catalog.Fits σ) : (new catalog config).Good σ.bare :=
  { h with
    builder := ⟨by simp [new], List.nodup_nil, by simp [new]⟩
    highest := Int.le_refl _
    pooled r hr := by
      rcases hr with hr | ⟨hlo, hhi⟩
      · cases hr
      · exact absurd (Int.lt_of_le_of_lt hlo hhi) (Int.lt_irrefl 0)
    distinct := List.nodup_nil
    apart := by simp [new]
    taken := by simp [new]
    constant := by simp [new]
    oneEach := List.nodup_nil
    hoisting _ := rfl
    identities := List.nodup_nil
    copies i x hx := by
      have hx : (#[] : Array Instr)[i]? = some x := hx
      simp at hx
    ends x hx := by
      have hx : (#[] : Array Instr).back? = some x := hx
      simp at hx
    aside _ hr := hr.elim
    below _ _ hr := hr.elim
    routines := by simp [new]
    ownRow _ hrow := by cases hrow }

section

variable (h : c.Begun σ config)

include h

theorem Compiler.Begun.surround {own : Option Int} (b : Bool) (hown : σ.own = own) :
    Begun σ config { c with inTrigger := b, ownRow := own.map .cursor } :=
  { h with
    good := { h.good with
      ownRow := fun row hrow => by
        obtain ⟨n, hn, rfl⟩ := Option.map_eq_some_iff.1 hrow
        exact ⟨n, rfl, hown.trans hn⟩ }
    started := ⟨h.started.start, ⟨h.started.incomplete.lt, h.started.incomplete.plain, h.started.incomplete.waits⟩,
      h.started.init⟩ }

theorem Compiler.Begun.note (n : Int) : Begun σ config { c with cursors := max c.cursors (n + 1) } :=
  { h with
    good := (Step.of_cursors h.good (Int.le_max_left ..)).good
    started := h.started.extends (Step.of_cursors h.good (Int.le_max_left ..)).grows }

theorem Compiler.Begun.alloc {n out : Int} {c0 : Compiler} (halloc : (allocRegs n).Makes c out c0) (hn : 0 ≤ n)
    (haside : ∀ r, σ.aside r → 1 ≤ r ∧ r ≤ n) : out = 1 ∧ c0.Good σ := by
  obtain ⟨s, -⟩ := allocRegs_spec halloc h.good hn
  obtain ⟨rfl, rfl⟩ := makes_allocRegs.1 halloc
  have hnone (x : Hoisted) : x ∉ c.hoisted.toList := by simp [h.hoisted]
  refine ⟨by rw [h.highest]; rfl, { s.good with
    constant := fun x hx => absurd hx (hnone x)
    copies := fun i x hx hcopy => ?_
    ends := fun x hx hcopy => absurd hcopy (h.isSealed x hx)
    aside := ?_
    below := ?_ }⟩
  · obtain ⟨hnonempty, htarget, hapart, hsingle⟩ := s.good.copies i x hx hcopy
    exact ⟨hnonempty, htarget, hapart, hsingle⟩
  · rintro r hr (hp | hlt)
    · have hbounds := h.good.pooled r hp
      have := h.highest
      omega
    · have := (haside r hr).2
      have := h.highest
      simp only at hlt
      omega
  · rintro r s - ⟨x, hx, -⟩
    exact absurd hx (hnone x)

theorem Compiler.Begun.unused {ids : List Identity} (hids : ids.Nodup) : Unused ids c :=
  ⟨hids, fun i _ hi => by rw [h.used] at hi; cases hi⟩

end

theorem Gen.start_spec (h : start.Makes (.new catalog config) () c) (hfits : catalog.Fits σ) : c.Begun σ config := by
  simp only [start, makes_bind, makes_modify] at h
  obtain ⟨a, c1, hemit, rfl⟩ := h
  obtain ⟨rfl, hincomplete, hgood, hsize⟩ := emitAt_incomplete hemit (new_good hfits) (by simp)
  obtain ⟨-, rfl⟩ := makes_emitAt.1 hemit
  refine ⟨{ hgood with }, ⟨rfl, ⟨hincomplete.lt, hincomplete.plain, hincomplete.waits⟩, fun x hx => ?_⟩,
    hsize, rfl, rfl, rfl, rfl, rfl, fun x hx => ?_, rfl⟩
  · cases hx
    rfl
  · have hinit : x.opcode = .init := by
      cases hx
      rfl
    simp [hinit]

theorem Gen.noteCursor?_spec {n : Option Int} (h : (noteCursor? n).Makes c () c') (hc : c.Begun σ config) :
    c'.Begun σ config ∧ c.cursors ≤ c'.cursors ∧ ∀ k, n = some k → k < c'.cursors := by
  cases n with
  | none =>
    obtain ⟨-, rfl⟩ := makes_pure.1 h
    exact ⟨hc, Int.le_refl _, fun k hk => by cases hk⟩
  | some n =>
    simp only [noteCursor?, noteCursor, makes_modify] at h
    subst h
    refine ⟨hc.note n, Int.le_max_left .., fun k hk => ?_⟩
    cases hk
    exact Int.lt_of_lt_of_le (Int.lt_succ n) (Int.le_max_right ..)

theorem Gen.startIn_spec (h : (startIn setting).Makes (.new catalog config) () c) (hfits : catalog.Fits σ)
    (hown : σ.own = setting.own) : c.Begun σ config ∧ (∀ k, setting.cursors = some k → k ≤ c.cursors) ∧
      ∀ n, setting.own = some n → n < c.cursors := by
  simp only [startIn, makes_bind, makes_modify] at h
  obtain ⟨⟨⟩, c1, hstart, ⟨⟩, c2, hcursors, ⟨⟩, c3, hrow, rfl⟩ := h
  obtain ⟨hbegun2, -, hlt2⟩ := noteCursor?_spec hcursors (start_spec hstart hfits)
  obtain ⟨hbegun3, hle3, hlt3⟩ := noteCursor?_spec hrow hbegun2
  refine ⟨hbegun3.surround _ hown, fun k hk => ?_, hlt3⟩
  have hlt := hlt2 (k - 1) (by rw [hk]; rfl)
  show k ≤ c3.cursors
  omega

end

namespace Gen

variable {σ : Scope} {c c1 : Compiler} {t : Table} {cursor out : Int} {n : Nat} {done : Label}

/-- The code before the body of a scan; the label is behind the loop. -/
def enterLoop (t : Table) (cursor : Int) : Gen Label := do
  emit (.of .openRead cursor 0 0 (.table t))
  let done ← label
  emitJump (.of .rewind cursor) done
  return done

/-- The code behind the body of a scan. -/
def leaveLoop (cursor out : Int) (n : Nat) (top : Int) (done : Label) : Gen Unit := do
  emit (.of .resultRow out n)
  emit (.of .next cursor top)
  resolve done

theorem forEachRow_eq (setting : Setting) (t : Table) (cursor : Int) (n : Nat) (body : Int → Gen Unit) :
    forEachRow setting t cursor n body = (do
      startIn setting
      noteCursor cursor
      let out ← allocRegs n
      let done ← enterLoop t cursor
      let top ← here
      body out
      leaveLoop cursor out n top done
      finish) := by
  simp [forEachRow, enterLoop, leaveLoop]

theorem enterLoop_spec (h : (enterLoop t cursor).Makes c done c1) (hc : c.Good σ) :
    Step σ [] c c1 ∧ c1.size = c.size + 2 ∧ c1.Sealed ∧ c1.Made done ∧ c1.builder.address? done = none ∧
      ∀ {w : World σ} {pins : Int → Prop} {c2 : Compiler}, Placed w c c2 → (∀ r, pins r → ¬ c.Free r) →
        Extends pins (fun _ => True) c1 c2 → w.ops[c.size]? = some (.of .openRead cursor 0 0 (.table t)) ∧
        w.ops[c.size + 1]? = some { of .rewind cursor with p2 := w.addr done.index } := by
  simp only [enterLoop, makes_bind, makes_pure] at h
  obtain ⟨⟨⟩, d1, hopen, _, d2, hlabel, ⟨⟩, d3, hrewind, rfl, rfl⟩ := h
  obtain ⟨s1, e1⟩ := emit_spec hopen hc (by simp)
  obtain ⟨s2, l2⟩ := label_spec hlabel s1.good
  obtain ⟨s3, e3⟩ := emitJump_spec hrewind s2.good (by simp) l2.made
  have hsize2 : d2.size = c.size + 1 := l2.size.trans e1.size
  refine ⟨s1.trans (s2.trans s3), by rw [e3.size, hsize2], (emitJump_closes hrewind (by simp)).isSealed,
    s3.made l2.made, (s3.labels _ l2.made).trans l2.unresolved,
    fun placed hpins e => ⟨?_, ?_⟩⟩
  · have hrest := (s2.trans s3).grows.trans_of_apart e fun r hr hp => hpins r hp (s1.free r hr)
    exact placed.emitted e1 (Nat.le_refl _) hrest (by simp)
  · rw [← hsize2]
    exact placed.emitted e3 (by omega) e (by simp)

theorem leaveLoop_spec {top : Int} (h : (leaveLoop cursor out n top done).Makes c () c1) (hc : c.Good σ)
    (hmade : c.Made done) (hnone : c.builder.address? done = none) :
    c1.Good σ ∧ Extends nowhere c.Free c c1 ∧ (∀ r, c1.Free r → c.Free r) ∧ c1.size = c.size + 2 ∧
      c1.builder.address? done = some c1.size ∧ ∀ {w : World σ} {c0 c2 : Compiler}, Placed w c0 c2 → c0.size ≤ c.size →
        Extends nowhere (fun _ => True) c1 c2 →
        w.ops[c.size]? = some (.of .resultRow out n) ∧ w.ops[c.size + 1]? = some (.of .next cursor top) := by
  simp only [leaveLoop, makes_bind] at h
  obtain ⟨⟨⟩, d1, hresult, ⟨⟩, d2, hnext, hresolve⟩ := h
  obtain ⟨s1, e1⟩ := emit_spec hresult hc (by simp)
  obtain ⟨s2, e2⟩ := emit_spec hnext s1.good (by simp)
  have s := s1.trans s2
  have hmade2 := s.made hmade
  have hnone2 := (s.labels _ hmade).trans hnone
  have hgrows (extra : Int → Prop) : Extends nowhere extra d2 c1 :=
    resolve_extends hresolve s2.good hmade2 hnone2
  obtain rfl := makes_resolve.1 hresolve
  have hsize2 : d2.size = c.size + 2 := by rw [e2.size, e1.size]
  have hsize : size { d2 with builder := d2.builder.resolve done } = c.size + 2 :=
    (Builder.resolve_size ..).trans hsize2
  refine ⟨s2.good.resolve done, s.grows.trans (hgrows _) fun _ _ => id, s.free, hsize, ?_, fun placed hle e => ⟨?_, ?_⟩⟩
  · rw [hsize, ← hsize2]
    exact Builder.resolve_address?_self hmade2
  · have hrest : Extends nowhere (fun _ => True) d1 d2 := s2.grows.mono (fun _ => id) fun _ _ => trivial
    exact placed.emitted e1 hle (hrest.trans ((hgrows _).trans e fun _ _ => id) fun _ _ => id) (by simp)
  · rw [← e1.size]
    exact placed.emitted e2 (by rw [e1.size]; omega) ((hgrows _).trans e fun _ _ => id) (by simp)

end Gen

section

variable {σ : Scope} {catalog : Catalog} {config : Config} {setting : Setting} {t : Table} {cursor : Int}
  {ids : List Identity} {P : Prop} {ds : List Reading} {body : Int → Gen Unit} {c' : Compiler}
  {p : Program} {env : Env} {m : Machine}

theorem ScanBody.of_fills {c1 c2 c3 : Compiler} {out : Int} {hp : Closed σ c' p} {fits : env.Fits σ}
    (f : Fills σ (fun r => InRow out ds.length r ∧ P) (InRow out ds.length) ids c1 c2)
    (hrun : ∀ w : World σ, (∀ r, InRow out ds.length r → w.Owns [] c2 r) →
      Runs w [] (fun r => InRow out ds.length r ∧ ¬ w.Holds r) c1 c2 (fun env => ds.mapM (· env)) (fun _ => none)
      (Filled out)) (hopen : ∀ r, InRow out ds.length r → c1.Open r) (hrest : Extends nowhere c2.Free c2 c3)
    (hlt : c2.size < c3.size) (hconst : ∀ x ∈ c3.hoisted.toList, x.expr.isConstant .notJoin) (hstart : c1.size = 3)
    (hsealed : c1.Sealed) (hcursor : σ.cursors cursor) (hcursors : ∀ n, σ.cursors n → n < c1.cursors)
    (hwhole : ∀ r, Placed (hp.world (env.at cursor r) (fits.at cursor r) c3.hoisted.toList) c1 c3) :
    ScanBody hp fits c3.hoisted.toList c1 c2 cursor out ds := by
  refine ⟨hstart, hsealed, hcursor, hcursors, hconst, fun r => ?_, fun r m ready => hrun _ (fun s hs => ?_) m ready⟩
  · have hfirst := (hwhole r).firstLent (S := nowhere) f.passes.follows f.good
      (hrest.mono (fun _ => id) fun _ => .inl) (.inr (.inr (.inl hlt))) (fun _ => False.elim)
      (fun _ => False.elim) fun _ => False.elim
    rwa [World.lend_nothing] at hfirst
  · refine ⟨id, (by simp), fun hholds => ?_⟩
    rcases hrest.holdsConstant_of_new hholds with hconst | hnew | hpin
    · exact hconst
    · exact absurd (f.free s (.inr hnew)) (hopen s hs).taken
    · exact hpin.elim

theorem Gen.makes_of_computeHoisted {hs : List Hoisted} {c : Compiler} (h : (computeHoisted hs).Makes c () c')
    {x : Hoisted} (hx : x ∈ hs) : ∃ reg c1 c2, (x.expr.coded.exact reg).Makes c1 () c2 := by
  induction hs generalizing c with
  | nil => cases hx
  | cons y hs ih =>
    simp only [computeHoisted, makes_bind] at h
    obtain ⟨⟨⟩, c1, hfirst, hrest⟩ := h
    rcases List.mem_cons.1 hx with rfl | hx
    · exact ⟨_, _, _, hfirst⟩
    · exact ih hrest hx

variable (h : (forEachRow setting t cursor ds.length body).Makes (.new catalog config) p c')
  (hfits : catalog.Fits σ) (haside : ∀ r, σ.aside r → InRow 1 ds.length r)
  (hbody : ∀ c, c.sharedResults = [] → FillsRowFrom σ [] ids P config.hoistConstants (body 1) 1 ds c)
  (hids : ids.Nodup) (hcovers : setting.Covers cursor σ) (hcursor : σ.cursors cursor)

include h hfits haside hbody hids hcovers hcursor

/-- A scan is compiled as a loop around its body. -/
theorem Gen.forEachRow_spec : ∃ c1 c2 c3 c4 c5, Finishes c3 c4 c5 c' p ∧ c3.Good σ ∧ c3.Started ∧ c2.size ≤ c4.size ∧
      c4.config = config ∧ (∀ n, σ.cursors n → n < c4.cursors) ∧
      ∀ (hp : Closed σ c' p) (env : Env) (fits : env.Fits σ), config.chainedItems = env.chained →
        ScanBody hp fits c4.hoisted.toList c1 c2 cursor 1 ds ∧ Scans p t cursor 1 ds.length c2.size := by
  rw [forEachRow_eq] at h
  simp only [makes_bind, noteCursor, makes_modify, makes_here] at h
  obtain ⟨⟨⟩, d, hstart, ⟨⟩, _, rfl, out, c0, halloc, done, c1, henter, _, _, ⟨rfl, rfl⟩, ⟨⟩, c2, hmakes, ⟨⟩, c3,
    hleave, hfinish⟩ := h
  obtain ⟨hbegun, hreserved, hown⟩ := startIn_spec hstart hfits hcovers.own
  have hnoted := hbegun.note cursor
  obtain ⟨s0, htaken⟩ := allocRegs_spec halloc hnoted.good (by omega)
  obtain ⟨rfl, hgood0⟩ := hnoted.alloc halloc (by omega) fun r hr => by
    have hrow := haside r hr
    exact ⟨hrow.1, by have := hrow.2; omega⟩
  obtain ⟨s1, hsize1, hsealed, hmade, hnone, hops1⟩ := enterLoop_spec henter hgood0
  -- the body fills the registers that were taken for it
  have hopen0 (r : Int) (hr : InRow 1 ds.length r) : c0.Open r := by
    obtain ⟨hlo, hhi⟩ := hr
    have hr := (htaken (r - 1) (by omega) (by omega)).2.isOpen
    rwa [show 1 + (r - 1) = r by omega] at hr
  have hopen (r : Int) (hr : InRow 1 ds.length r) : c1.Open r := (hopen0 r hr).step s1
  have hshared : c1.sharedResults = [] := by
    rw [s1.shared.eq_of_nil, s0.shared.eq_of_nil, hnoted.shared]
  obtain ⟨f2, hrun⟩ := hbody c1 hshared hmakes s1.good
    (s1.grows.hoisting.trans (s0.grows.hoisting.trans hnoted.hoisting)) hopen
    (((hnoted.unused hids).step s0).step s1)
  have hgrows2 : Extends (InRow 1 ds.length) (fun _ => True) c1 c2 :=
    f2.grows.mono (fun _ => And.left) fun _ _ => trivial
  obtain ⟨hgood3, e3, hfree3, hsize3, haddress, hops3⟩ := leaveLoop_spec hleave f2.good
    (Nat.lt_of_lt_of_le hmade hgrows2.labels_le) ((f2.labels _ hmade).trans hnone)
  have hstarted := (((hnoted.started.extends s0.grows).extends s1.grows).extends hgrows2).extends e3
  obtain ⟨c4, c5, hfinishes⟩ := finish_makes hfinish hstarted.start
  obtain ⟨s4, e4⟩ := hfinishes.halt_spec hgood3
  have hlt : c2.size < c4.size := by have := s4.size_le; omega
  have hrest : Extends nowhere c2.Free c2 c4 := e3.trans (s4.grows.mono (fun _ => id) hfree3) fun _ _ => id
  have hgrows4 : Extends (InRow 1 ds.length) (fun _ => True) c1 c4 :=
    (hgrows2.trans_of_apart hrest fun _ _ => id).mono (fun _ hr => hr.resolve_right id) fun _ _ => trivial
  have hcursors0 (n : Int) (hn : σ.cursors n) : n < c0.cursors := by
    refine Int.lt_of_lt_of_le ?_ s0.grows.cursors
    show n < max d.cursors (cursor + 1)
    rcases hcovers.reserves n hn with hle | ⟨k, hk, hlt⟩ | hrow
    · omega
    · have := hreserved k hk
      omega
    · have := hown n hrow
      omega
  have hsize0 : c0.size = 1 := by
    obtain ⟨-, rfl⟩ := makes_allocRegs.1 halloc
    exact hnoted.size
  have hconfig : c4.config = config := by
    rw [hgrows4.config, s1.grows.config, s0.grows.config, hnoted.config]
  have hcursors1 (n : Int) (hn : σ.cursors n) : n < c1.cursors := Int.lt_of_lt_of_le (hcursors0 n hn) s1.grows.cursors
  refine ⟨c1, c2, c3, c4, c5, hfinishes, hgood3, hstarted, Nat.le_of_lt hlt, hconfig,
    fun n hn => Int.lt_of_lt_of_le (hcursors1 n hn) hgrows4.cursors, fun hp env fits hchained => ⟨?_, ?_⟩⟩
  · refine .of_fills f2 hrun hopen hrest hlt (fun x hx => (s4.good.constant x hx).1) (by omega) hsealed hcursor
      hcursors1 fun r => ?_
    exact hfinishes.placed hgood3 hstarted hp _ (hconfig ▸ hchained) s1.good (by omega) hcursors1
  · have placed := hfinishes.placed hgood3 hstarted hp fits (hconfig ▸ hchained) hgood0 (Nat.le_of_eq hsize0.symm)
      hcursors0
    obtain ⟨hopenRead, hrewind⟩ := hops1 placed (fun r hr => (hopen0 r hr).taken) hgrows4
    obtain ⟨hresult, hnext⟩ := hops3 placed (Nat.le_trans s1.size_le hgrows2.size_le)
      (s4.grows.mono (fun _ => id) fun _ _ => trivial)
    have hlabel := Nat.lt_of_lt_of_le hmade (Nat.le_trans hgrows2.labels_le e3.labels_le)
    have hdone := placed.settled done _ ((s4.labels done hlabel).trans haddress)
    rw [hsize0] at hopenRead hrewind
    rw [hdone, hsize3] at hrewind
    have htop : c1.builder.here = 3 := by
      show (c1.size : Int) = 3
      omega
    rw [htop] at hnext
    refine ⟨hopenRead, hrewind, hresult, hnext, ?_⟩
    rw [← hsize3]
    exact placed.emitted_last e4 (by omega) (by simp)

theorem Gen.forEachRow_copiesWhole (hmerged : σ.Unmerged) : p.CopiesWhole := by
  obtain ⟨_, _, _, _, _, hfinishes, hgood, hstarted, -⟩ :=
    forEachRow_spec h hfits haside hbody hids hcovers hcursor
  exact hfinishes.copiesWhole hgood hstarted hmerged

variable (hwhole : p.CopiesWhole) (hsmall : p.ops.size < 2147483648) (fits : env.Fits σ)
  (hchained : config.chainedItems = env.chained) (fresh : Finishes.Fresh σ env m)

include hwhole hsmall fits hchained fresh

/-- A scan delivers the values of its body for each row of the table, and halts. It fails only where a constant that
was set aside has no value, or the body has none for a row. -/
theorem Gen.forEachRow_leads : ∃ (a n : Nat) (hoisted : List Expr), p.ops[a]? = some (.of .halt) ∧
      (∀ x ∈ hoisted, x.Fixed σ ∧ ∃ reg c1 c2, (x.coded.exact reg).Makes c1 () c2) ∧
      Leads p.ops (fun b m' => b = a ∧ ∃ vss, (m.store.rows t.id).mapM (rowValues env cursor ds) = some vss ∧
          m'.rows = m.rows ++ vss.toArray)
        (hoisted.mapM (·.meaning.value env) = none ∨ (m.store.rows t.id).mapM (rowValues env cursor ds) = none)
        n 0 m := by
  obtain ⟨c1, c2, c3, c4, c5, hfinishes, hgood, hstarted, hle, hconfig, hcursors4, hloop⟩ :=
    forEachRow_spec h hfits haside hbody hids hcovers hcursor
  have hp := hfinishes.closed hgood hstarted hwhole hsmall
  obtain ⟨hscanBody, scans⟩ := hloop hp env fits hchained
  have hconstants := hfinishes.leads hgood hstarted hp fits (hconfig ▸ hchained) hcursors4 fresh
  have hmapped : c4.hoisted.toList.mapM (·.expr.meaning.value env) =
      (c4.hoisted.toList.map (·.expr)).mapM (·.meaning.value env) := by
    rw [List.mapM_map]
    rfl
  rw [hmapped] at hconstants
  refine ⟨c2.size + 2, _, c4.hoisted.toList.map (·.expr), scans.halt, List.forall_mem_map.2 fun x hx => ?_,
    hconstants.bind (k := 2 + (m.store.rows t.id).length * (c2.size - c1.size + 2)) ?_ .inl⟩
  · have hconstant := (hfinishes.halt_spec hgood).1.good.constant x hx
    exact ⟨⟨hconstant.2, hconstant.1⟩, makes_of_computeHoisted hfinishes.constants hx⟩
  rintro _ m1 ⟨rfl, hvalues, T, frame⟩
  have hscan : Scanning hp fits c4.hoisted.toList c1 c2 cursor m1 :=
    .start fresh frame hvalues hcursors4 (c4.unloaded_size ▸ hle)
  refine Leads.next scans.openRead (step_openRead t)
    (k := 1 + (m.store.rows t.id).length * (c2.size - c1.size + 2)) (by omega) ?_
  rw [frame.store]
  have hopened := hscan.move hcursor { data := .rows (m.store.rows t.id) } rfl
  obtain ⟨hempty, hmoved⟩ := step_rewind_rows (a := 2)
    (i := { of .rewind cursor with p2 := ((c2.size + 2 : Nat) : Int) }) rfl
    (show (m1.setCursor cursor { data := .rows (m.store.rows t.id) }).cursor? cursor = _ by
      rw [cursor?_setCursor, if_pos rfl])
  cases hrows : m.store.rows t.id with
  | nil =>
    obtain ⟨m2, hstep, hdelivered⟩ := hempty hrows
    rw [hrows] at hstep hdelivered
    refine Leads.branch scans.rewind hstep (k := 0) (by omega) (.done ⟨rfl, [], rfl, ?_⟩)
    rw [hdelivered, Array.append_empty]
    exact frame.rows
  | cons r rest =>
    have hstep := hmoved (by simp [hrows])
    rw [hrows] at hstep hopened
    refine Leads.branch scans.rewind hstep (k := (rest.length + 1) * (c2.size - c1.size + 2)) (by simp) ?_
    have hfirst := hopened.move hcursor (.onRow (r :: rest) 0) rfl
    refine (hfirst.leads hscanBody scans (r := r) [] rest rfl ?_).weaken ?_ .inr
    · rw [cursor?_setCursor, if_pos rfl]
      rfl
    · rintro _ m' ⟨rfl, vss, hvss, hdelivered⟩
      exact ⟨rfl, vss, hvss, hdelivered.trans (congrArg (· ++ vss.toArray) frame.rows)⟩

theorem Gen.forEachRow_rows {steps : Nat} {m' : Machine} (hrun : runFrom p.ops steps 0 m = (.ok (), m')) :
    ∃ vss, (m.store.rows t.id).mapM (rowValues env cursor ds) = some vss ∧ m'.rows = m.rows ++ vss.toArray := by
  obtain ⟨a, n, _, hhalt, -, hleads⟩ :=
    forEachRow_leads h hfits haside hbody hids hcovers hcursor hwhole hsmall fits hchained fresh
  obtain ⟨b, -, hrows⟩ := halted_of_leads hleads (fun b m1 hb => ⟨_, hb.1 ▸ hhalt, step_halt⟩) hrun
  exact hrows

end

end ScalarSql
