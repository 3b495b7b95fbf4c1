import ScalarSql.Proofs.Matching
import ScalarSql.Proofs.StoredRows

/-!
# Expressions that are never NULL

`Expr.canBeNull` follows signs and register nodes down to a literal or a column. Where it denies NULL, code over the
rows of a store never delivers NULL (`Gen.delivered_not_null`): inserts keep NULL out of the columns that refuse it, and
signs keep proper values proper. A register node stands for an expression whose value code before it left in the
register; `Gen.inSteps` writes such code.
-/

namespace ScalarSql

open Compiler ScalarSql.Expr Gen

/-- The expression under signs, each a minus sign or not. -/
def Expr.signed : List (Bool × NodeInfo) → Expr → Expr
  | [], e => e
  | (minus, info) :: signs, e => .node info (.unary (if minus then .negate else .positive) (e.signed signs))

/-- The value with its sign changed for each minus sign. -/
def Value.signed : List (Bool × NodeInfo) → Value → Value
  | [], v => v
  | (minus, _) :: signs, v => if minus then .subtract (.integer 0) (v.signed signs) else v.signed signs

/-- Computes an expression in steps, of which the last one comes first. Each holds the value of the steps before it in a
register and puts signs before a register node for it. Returns the expression of the last step. -/
def Gen.inSteps (e : Expr) : List (NodeInfo × List (Bool × NodeInfo)) → Int → Gen Expr
  | [], reg => do
    e.coded.exact reg
    return e
  | (info, signs) :: steps, reg => do
    let held ← getTemp
    let original ← inSteps e steps held
    let x := signed signs (.node info (.register held original))
    x.coded.exact reg
    return x

section

variable {σ : Scope} {K : Known} {ids : List Identity} {r : Int} {v : Value} {e source : Expr}
  {info : NodeInfo} {target : Int → Gen Int} {signs : List (Bool × NodeInfo)} {c c' : Compiler} {reg : Int} {x : Expr}

theorem Expr.canBeNull_signed (e : Expr) : (e.signed signs).canBeNull = e.canBeNull := by
  induction signs with
  | nil => rfl
  | cons sign signs ih =>
    obtain ⟨minus, info⟩ := sign
    cases minus <;> exact ih

theorem Expr.isConstant_signed : (signed signs (.node info (.register r source))).isConstant .notJoin = false := by
  induction signs with
  | nil => simp [signed, isConstant]
  | cons sign signs ih => simp [signed, isConstant, ih]

theorem Expr.identities_signed : (signed signs (.node info (.register r source))).identities = [] := by
  induction signs with
  | nil => rfl
  | cons sign signs ih => exact ih

theorem Value.isProper_signed (h : v.isProper) : (v.signed signs).isProper := by
  induction signs with
  | nil => exact h
  | cons sign signs ih =>
    obtain ⟨minus, info⟩ := sign
    cases minus with
    | false => exact ih
    | true => exact isProper_negated ih

theorem Loads.finding (h : Finding r target) (hv : (r, v) ∈ K) : Loads σ K ids (fun reg => do
      let found ← target reg
      if found ≠ reg then emit (.of .copyOne found reg)) fun _ => some v := by
  intro c c' reg hmakes hc hreg hids
  simp only [makes_bind] at hmakes
  obtain ⟨x, c1, htarget, hmakes⟩ := hmakes
  obtain ⟨rfl, rfl⟩ := h htarget
  split at hmakes
  · obtain ⟨s, e⟩ := emit_spec hmakes hc (by simp)
    refine ⟨s.mono (by simp), fun w havoid m ready => ?_⟩
    refine ready.emitSet e (by simp) hreg.nonneg (Instr.step_copyOne hreg.nonneg) ?_
    rw [(ready.held _ hv).2.2]
  · rename_i heq
    obtain ⟨-, rfl⟩ := makes_pure.1 hmakes
    exact ⟨(Step.refl hc).mono (by simp), fun w havoid => absurd (not_not.1 heq) (havoid.held _ hv)⟩

/-- The code leaves a value in the register that holds it already, or computes it. -/
structure Coded.Held (σ : Scope) (K : Known) (r : Int) (v w : Value) (code : Coded) : Prop where
  temp : Temps σ K [] code.temp fun _ => some w
  exact : Loads σ K [] code.exact fun _ => some w
  target : Finding r code.target ∧ w = v ∨ Targets σ K [] code.target fun _ => some w

/-- A register under signs is no constant, so its code runs where it stands. -/
theorem Coded.held_signed (hv : (r, v) ∈ K) (signs : List (Bool × NodeInfo)) :
    (signed signs (.node info (.register r source))).coded.Held σ K r v (v.signed signs) := by
  induction signs with
  | nil =>
    have h : Finding r (node info (.register r source)).coded.target := .register
    exact ⟨.finding rfl h hv, .finding h hv, .inl ⟨h, rfl⟩⟩
  | cons sign signs ih =>
    obtain ⟨minus, info'⟩ := sign
    generalize hx : signed ((minus, info') :: signs) (.node info (.register r source)) = x
    have hconst : x.isConstant .notJoin = false := hx ▸ isConstant_signed
    have hids : x.identities = [] := hx ▸ identities_signed
    have hcomputed {w : Value} (h : Targets σ K [] x.coded.target fun _ => some w) : x.coded.Held σ K r v w := by
      have htemp : Temps σ K x.identities (tempOf x x.coded.target) fun _ => some w :=
        .of_targets (hx ▸ rfl) (fun h => by rw [hconst] at h; exact Bool.noConfusion h) (hids ▸ h)
      rw [hids] at htemp
      subst hx
      exact ⟨htemp, .of_targets (.inl rfl) h, .inr h⟩
    subst hx
    cases minus with
    | false =>
      rcases ih.target with ⟨hfinding, hsame⟩ | htarget
      · have hsame : Value.signed ((false, info') :: signs) v = v := hsame
        rw [hsame]
        exact ⟨.finding hconst hfinding.checked hv, .finding hfinding.checked hv, .inl ⟨hfinding.checked, rfl⟩⟩
      · exact hcomputed htarget.checked
    | true =>
      have hload := Loads.fromZero ih.temp
      refine hcomputed (Targets.checked (.of_loads ?_))
      cases signs <;> exact hload

def Value.inSteps (v : Value) : List (NodeInfo × List (Bool × NodeInfo)) → Value
  | [] => v
  | (_, signs) :: steps => (v.inSteps steps).signed signs

theorem Value.isProper_inSteps (h : v.isProper) (steps : List (NodeInfo × List (Bool × NodeInfo))) :
    (v.inSteps steps).isProper := by
  induction steps with
  | nil => exact h
  | cons step steps ih => exact isProper_signed ih

theorem Gen.inSteps_yields (hplain : e.Plain σ) (steps : List (NodeInfo × List (Bool × NodeInfo)))
    (hmakes : (inSteps e steps reg).Makes c x c') (hc : c.Good σ) (hreg : c.Open reg) (hids : Unused e.identities c) :
    Step σ e.identities c c' ∧ ∀ w : World σ, w.Avoids K reg →
      Yields w K (· = reg) c c' (fun env => (e.meaning.value env).map (·.inSteps steps)) reg := by
  induction steps generalizing c c' reg x with
  | nil =>
    simp only [inSteps, makes_bind, makes_pure] at hmakes
    obtain ⟨⟨⟩, c1, hexact, rfl, rfl⟩ := hmakes
    have hexact' := (hplain.realizes K).value.exact
    rw [e.coded_expr] at hexact'
    obtain ⟨s, hrun⟩ := hexact' hexact hc hreg hids
    refine ⟨s, fun w havoid => ?_⟩
    simpa [Value.inSteps] using hrun w havoid
  | cons step steps ih =>
    obtain ⟨info, signs⟩ := step
    simp only [inSteps, makes_bind, makes_pure] at hmakes
    obtain ⟨held, c1, htemp, original, c2, hinner, ⟨⟩, c3, hexact, rfl, rfl⟩ := hmakes
    obtain ⟨s1, htaken⟩ := getTemp_spec htemp hc
    obtain ⟨s2, hrun⟩ := ih hinner s1.good htaken.isOpen (hids.step s1)
    have hcoded (v : Value) : (signed signs (.node info (.register held original))).coded.Held σ ((held, v) :: K)
        held v (v.signed signs) := Coded.held_signed List.mem_cons_self signs
    have hsigned (v : Value) := (hcoded v).exact hexact s2.good (hreg.step (s1.trans s2)) (.nil c2)
    obtain ⟨s3, -⟩ := hsigned .null
    refine ⟨((s1.trans s2).trans s3).mono (by simp), fun w havoid m ready => ?_⟩
    have hheld : held ≠ reg := fun he => hreg.taken (he ▸ htaken.free)
    have htaken2 : Taken c c2 held := htaken.trans s2
    have havoid1 : w.Avoids K held := ready.avoids htaken2 s3.grows
    have hsize : c1.size = c.size := by rw [size, getTemp_builder htemp, size]
    have h1 : Yields w K (· = held) c c2 (fun env => (e.meaning.value env).map (·.inSteps steps)) held :=
      fun m ready => ready.silent s1 s2.grows hsize (hrun w havoid1 m)
    refine ready.bindValue (s1.trans s2) s3.continues h1 ?_ htaken2.taken havoid1.lent ?_ fun v hv => ?_
    · rintro _ rfl
      exact ⟨havoid1, .inr (ready.scratch htaken2 s3.grows)⟩
    · simp
    · intro m1 ready1
      refine ((hsigned v).2 w (havoid.cons hheld) m1 ready1).congr ?_
      obtain ⟨u, hu, rfl⟩ := Option.map_eq_some_iff.1 hv
      rw [hu]
      rfl

theorem Gen.canBeNull_of_inSteps {steps : List (NodeInfo × List (Bool × NodeInfo))}
    (hmakes : (inSteps e steps reg).Makes c x c') : x.canBeNull = e.canBeNull := by
  induction steps generalizing c c' reg x with
  | nil =>
    simp only [inSteps, makes_bind, makes_pure] at hmakes
    obtain ⟨⟨⟩, c1, hexact, rfl, rfl⟩ := hmakes
    rfl
  | cons step steps ih =>
    simp only [inSteps, makes_bind, makes_pure] at hmakes
    obtain ⟨held, c1, -, original, c2, hinner, ⟨⟩, c3, -, rfl, rfl⟩ := hmakes
    rw [canBeNull_signed, ← ih hinner]
    rfl

end

/-! ## Rows of a store -/

/-- A row that fits the table and holds no NaN. -/
structure Row.Proper (t : Table) (row : Row) : Prop where
  fits : row.Fits t
  number : ∀ r, .real r ∈ row.values → Binary64.ofFloat r ≠ .nan

theorem Row.Proper.value {t : Table} {row : Row} {column : Int} (h : row.Proper t)
    (hcolumn : 0 ≤ column → t.columnNotNull column) (hrowid : ¬ t.isRowid column) :
    ∃ v, Key.field? row.values column = some v ∧ v.isProper := by
  have hpos : ¬ column < 0 := by
    simp only [Table.isRowid, Bool.or_eq_true, decide_eq_true_eq, not_or] at hrowid
    exact hrowid.1
  have hnotNull := hcolumn (Int.not_lt.1 hpos)
  rw [Table.columnNotNull, Bool.eq_false_iff.2 hrowid, Bool.false_or, Table.column?, if_neg hpos] at hnotNull
  obtain ⟨c, hc, hnotNull⟩ := (Option.any_eq_true _ _).1 hnotNull
  have hlt : column.toNat < row.values.length := h.fits.width ▸ (List.getElem?_eq_some_iff.1 hc).1
  obtain ⟨v, hv⟩ : ∃ v, row.values[column.toNat]? = some v := ⟨_, List.getElem?_eq_getElem hlt⟩
  refine ⟨v, (if_neg hpos).trans hv, ?_⟩
  cases v with
  | null => exact absurd rfl (h.fits.notNull _ _ c hv hc hnotNull)
  | real r => simpa [Value.isProper] using h.number r (List.mem_of_getElem? hv)
  | _ => rfl

theorem Value.isProper_realValue {v : Value} (h : v.isProper) : (Instr.realValue v).isProper := by
  cases v with
  | integer n =>
    simp only [Instr.realValue, Value.isProper, bne_iff_ne]
    exact Value.numberReal_ne_nan (v := .integer n) (by rintro _ ⟨⟩)
  | _ => exact h

theorem Row.Proper.column {t : Table} {row : Row} {column : Int} (h : row.Proper t)
    (hcolumn : 0 ≤ column → t.columnNotNull column) : ((RowView.ofRow row).value (some t) column).isProper := by
  simp only [RowView.value]
  split
  · rfl
  · rename_i hrowid
    obtain ⟨u, hu, hproper⟩ := h.value hcolumn hrowid
    have hu : (RowView.ofRow row).column column = some u := hu
    rw [hu, Option.getD_some]
    split
    · exact Value.isProper_realValue hproper
    · exact hproper

/-- The cursor stands on one of the rows. It is on the row of NULLs only where the column may be NULL. -/
structure Cursor.Reads (rows : List Row) (mayBeNull : Bool) (cur : Cursor) : Prop where
  data : cur.data = .rows rows
  position : ∃ i < rows.length, cur.position = some i
  nullRow : cur.nullRow = true → mayBeNull = true

/-- A column stands on rows of its table, in the scan of a table or under a cursor from outside; a column without a
cursor stands on the own row, under a cursor of either kind. -/
def Expr.ReadsRows (setting : Setting) (store : Store) (made : Table → Prop) (scanned : Table) (cursor : Int)
    (outer : List (Int × Cursor)) (e : Expr) : Prop :=
  ∀ ref, e.kind = .column ref → ref.fixed = none ∧ ∀ t, ref.table = some t → made t ∧
    ∀ n, readCursor? setting.own ref.cursor = some n →
      if n = cursor then t.id = scanned.id
      else ∀ cur, outer.lookup n = some cur → cur.Reads (store.rows t.id) e.flags.canBeNull

theorem Expr.ReadsRows.honest {setting : Setting} {store : Store} {made : Table → Prop} {scanned : Table} {cursor : Int}
    {outer : List (Int × Cursor)} {e : Expr} {catalog : Catalog} {config : Config} {params : List Value} {row : Row}
    (h : e.ReadsRows setting store made scanned cursor outer) (hrow : row ∈ store.rows scanned.id)
    (hproper : ∀ t, made t → ∀ row ∈ store.rows t.id, row.Proper t) :
    e.Honest ((Env.under setting catalog config params outer).at cursor row) := by
  intro ref hkind hc v hv
  obtain ⟨hfixed, htable⟩ := h ref hkind
  obtain ⟨info, kind⟩ := e
  obtain ⟨number, column, table, fixed⟩ := ref
  cases hkind
  cases hfixed
  cases table with
  | none => simp [canBeNull] at hc
  | some t =>
    obtain ⟨hmade, hplace⟩ := htable t rfl
    simp only [canBeNull, Bool.or_eq_false_iff, Bool.and_eq_false_imp, decide_eq_true_eq, Bool.not_eq_false'] at hc
    obtain ⟨hflag, hcolumn⟩ := hc
    obtain ⟨view, hview, rfl⟩ := Option.map_eq_some_iff.1 hv
    obtain ⟨n, hn, hview⟩ := Option.bind_eq_some_iff.1 hview
    have hplace := hplace n hn
    by_cases hcursor : n = cursor
    · rw [if_pos hcursor] at hplace
      obtain rfl : RowView.ofRow row = view := by simpa [Env.at, hcursor] using hview
      exact (hproper t hmade row (hplace ▸ hrow)).column hcolumn
    · rw [if_neg hcursor] at hplace
      have hview : (outer.lookup n).map Cursor.view = some view := by
        simpa [Env.at, Env.under, hcursor] using hview
      obtain ⟨cur, hcur, rfl⟩ := Option.map_eq_some_iff.1 hview
      obtain ⟨hdata, ⟨i, hi, hposition⟩, hnull⟩ := hplace cur hcur
      have hnull : cur.nullRow = false := Bool.eq_false_iff.2 fun hrow => by
        have hmay : info.flags.canBeNull = true := hnull hrow
        rw [hflag] at hmay
        exact Bool.noConfusion hmay
      have hon : cur.view = .ofRow (store.rows t.id)[i] := by
        simp [Cursor.view, Cursor.storedEntries, Cursor.rowid, RowView.ofRow, hdata, hposition, hnull, hi]
      rw [hon]
      exact (hproper t hmade _ (List.getElem_mem hi)).column hcolumn

/-- An expression that cannot be NULL has no calls and no IN. -/
theorem Expr.plain_of_canBeNull {e : Expr} {fs : Functions} {cursors : Int → Prop} (hs : e.Scalar fs cursors)
    (hfixed : e.Every Unfixed) (hc : e.canBeNull = false) :
    (e.Every fun x => ∀ name args window, x.kind ≠ .call name args window) ∧ e.identities = [] := by
  induction e using children_induction with
  | step info kind ih =>
    have hleaf (h : kind.children = []) (hk : ∀ name args window, kind ≠ .call name args window) :
        (node info kind).Every fun x => ∀ name args window, x.kind ≠ .call name args window :=
      .node hk fun x hx => by rw [h] at hx; cases hx
    cases kind with
    | integer | float | string | blob => exact ⟨hleaf rfl (by simp), rfl⟩
    | column ref =>
      obtain ⟨cursor, column, table, fixed⟩ := ref
      cases hfixed.here _ rfl
      exact ⟨hleaf rfl (by simp), rfl⟩
    | unary op operand =>
      have hmem : operand ∈ (Kind.unary (σ := Select) op operand).children := by simp
      cases op with
      | positive | negate =>
        obtain ⟨hcalls, hids⟩ := ih operand hmem (hs.children _ hmem) (hfixed.children _ hmem) hc
        exact ⟨.node (by simp) (by simpa using hcalls), hids⟩
      | _ => cases hc
    | register => exact hs.here.2.elim
    | _ => cases hc

/-- Where an expression cannot be NULL, no value that its code delivers for the rows of a store is NULL, also if it is
computed in steps. -/
theorem Gen.delivered_not_null {collations : Collations} {functions : Functions} {calls : List Catalog.Call}
    {requests : List (Table × List Value)} {catalog : Catalog} {config : Config} {params : List Value}
    {outer : List (Int × Cursor)} {setting : Gen.Setting} {t : Table} {cursor : Int} {e : Expr}
    {steps : List (NodeInfo × List (Bool × NodeInfo))} {p : Program} {c' : Compiler} {k : Nat} {m : Machine}
    (hrequests : ∀ request ∈ requests, (Catalog.without collations functions).Made calls request.1)
    (hnumber : ∀ id, ∀ row ∈ (Store.empty.after requests).rows id, ∀ r, .real r ∈ row.values →
      Binary64.ofFloat r ≠ .nan)
    (htame : catalog.collations.Tame) (hscalar : e.Scalar catalog.functions (setting.Reserves cursor))
    (hreads : e.Every (Expr.ReadsRows setting (Store.empty.after requests)
      ((Catalog.without collations functions).Made calls) t cursor outer))
    (hc : e.canBeNull = false)
    (h : (Gen.forEachRow setting t cursor 1 fun reg => do let _ ← Gen.inSteps e steps reg).Makes
      (.new catalog config) p c')
    (hsize : p.ops.size < 2147483648) (houter : ∀ q ∈ outer, q.2.isStored = true)
    (hrun : Machine.runFrom p.ops k 0 (.startUnder p catalog (.after .empty requests) params outer) = (.ok (), m)) :
    (∀ reg c x c', (Gen.inSteps e steps reg).Makes c x c' → x.canBeNull = false) ∧
      m.rows.size = ((Store.empty.after requests).rows t.id).length ∧ ∀ row ∈ m.rows, ∃ v, row = [v] ∧ v ≠ .null := by
  obtain ⟨hcalls, hnone⟩ := Expr.plain_of_canBeNull hscalar (hreads.mono fun _ hx ref hk => (hx ref hk).1) hc
  have hdistinct : e.identities.Nodup := hnone ▸ List.nodup_nil
  obtain ⟨σ, hσ, haside, hmerged, hplain⟩ := e.exists_scope catalog hscalar hcalls hdistinct
  have hbody : Loads σ [] e.identities (fun reg => do let _ ← Gen.inSteps e steps reg)
      fun env => (e.meaning.value env).map (·.inSteps steps) := by
    intro c c' reg hmakes hgood hreg hids
    simp only [Gen.makes_bind, Gen.makes_pure] at hmakes
    obtain ⟨x, c1, hmakes, -, rfl⟩ := hmakes
    exact Gen.inSteps_yields hplain steps hmakes hgood hreg hids
  obtain ⟨vss, hvss, hrows⟩ := Gen.forEachRow_unmerged hσ htame haside hmerged hbody hdistinct h hsize houter
    hrun
  refine ⟨fun reg c x c' hmakes => (Gen.canBeNull_of_inSteps hmakes).trans hc, ?_, fun row hrow => ?_⟩
  · rw [hrows]
    exact length_of_mapM hvss
  · obtain ⟨r, hr, hvalues⟩ := mem_of_mapM hvss (by simpa [hrows] using hrow)
    rw [rowValues_single] at hvalues
    obtain ⟨_, hvalue, rfl⟩ := Option.map_eq_some_iff.1 hvalues
    obtain ⟨v, hv, rfl⟩ := Option.map_eq_some_iff.1 hvalue
    have hhonest : e.Every (Expr.Honest ((Env.under setting catalog config params outer).at cursor r)) :=
      hreads.mono fun x hx => hx.honest hr fun u hu row hrow =>
        ⟨(Store.holds_after hrequests hu).fits row hrow, hnumber u.id row hrow⟩
    have hproper := Value.isProper_inSteps (Expr.isProper_of_canBeNull hscalar hhonest hc hv) steps
    refine ⟨_, rfl, fun hnull => ?_⟩
    rw [hnull] at hproper
    cases hproper

namespace Example

def negatedColumn (t : Table) : Expr := .ofKind (.unary .negate (.ofKind (.column ⟨-1, 0, some t, none⟩)))

end Example

open Example in
/-- The key of the own row is negated, held in a register, and negated again from there. -/
theorem Gen.delivered_not_null_key :
    ∃ t p c m, (Catalog.empty.after (schemaCalls.take 1)).tables = [t] ∧
      (Gen.forEachRow { own := some 0 } t 0 1 fun reg => do
        let _ ← Gen.inSteps (negatedColumn t) [(⟨{}, 1⟩, [(true, ⟨{}, 2⟩)])] reg).Makes (.new .empty {}) p c ∧
      p.run .empty (Store.empty.after (storeRequests t t)) [] = (.ok (), m) ∧
      m.rows = #[[.integer 5], [.integer 6]] ∧ ∀ row ∈ m.rows, ∃ v, row = [v] ∧ v ≠ .null := by
  obtain ⟨t, ht⟩ : ∃ t, (Catalog.empty.after (schemaCalls.take 1)).tables = [t] := ⟨_, rfl⟩
  have hmade : (Catalog.without .builtin .builtin).Made schemaCalls t :=
    ⟨schemaCalls.take 1, List.take_prefix 1 _, ht ▸ List.mem_singleton_self t⟩
  have hrequests : ∀ request ∈ storeRequests t t, (Catalog.without .builtin .builtin).Made schemaCalls request.1 := by
    simp [storeRequests, hmade]
  have hstore : Store.empty.after (storeRequests t t) =
      ⟨[(t.id, [⟨5, [.integer 5, .text "x"]⟩, ⟨6, [.integer 6, .null]⟩])]⟩ := by
    cases ht
    rfl
  have hnull : (negatedColumn t).canBeNull = false := by
    cases ht
    decide +kernel
  obtain ⟨p, c, m, h, hrun, hrows⟩ := Gen.of_delivered?
    (show (Gen.forEachRow { own := some 0 } t 0 1 fun reg => do
        let _ ← Gen.inSteps (negatedColumn t) [(⟨{}, 1⟩, [(true, ⟨{}, 2⟩)])] reg).delivered? .empty {}
          (Store.empty.after (storeRequests t t)) [] = some #[[.integer 5], [.integer 6]] by cases ht; decide +kernel)
  have hsize : p.ops.size < 2147483648 := Gen.size_lt_of_makes h (by cases ht; decide +kernel)
  have hscalar : (negatedColumn t).Scalar Catalog.empty.functions (Gen.Setting.Reserves { own := some 0 } 0) :=
    .ofKind ⟨rfl, trivial⟩ (List.forall_mem_singleton.2
      (.ofKind ⟨rfl, fun _ => .inl (by decide)⟩ (List.forall_mem_nil _)))
  have hreads : (negatedColumn t).Every (Expr.ReadsRows { own := some 0 } (Store.empty.after (storeRequests t t))
      ((Catalog.without .builtin .builtin).Made schemaCalls) t 0 []) := by
    refine .node (by rintro _ ⟨⟩) (List.forall_mem_singleton.2 (.node ?_ (List.forall_mem_nil _)))
    rintro _ ⟨⟩
    refine ⟨rfl, fun u hu => ?_⟩
    cases hu
    refine ⟨hmade, fun n hn => ?_⟩
    cases hn
    rfl
  have hnumber : ∀ id, ∀ row ∈ (Store.empty.after (storeRequests t t)).rows id, ∀ r, .real r ∈ row.values →
      Binary64.ofFloat r ≠ .nan := by
    intro id row hrow r hr
    rw [hstore, Store.rows] at hrow
    by_cases hid : id = t.id
    · subst hid
      simp only [List.lookup_cons_self, Option.getD_some, List.mem_cons, List.not_mem_nil, or_false] at hrow
      rcases hrow with rfl | rfl <;> simp at hr
    · simp [List.lookup, beq_false_of_ne hid] at hrow
  have hnotNull := Gen.delivered_not_null hrequests hnumber (Collations.tame_of_no_factory rfl) hscalar hreads hnull h
    hsize (List.forall_mem_nil _) hrun
  exact ⟨t, p, c, m, ht, h, hrun, hrows, hnotNull.2.2⟩

end ScalarSql
