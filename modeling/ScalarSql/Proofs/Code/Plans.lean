import ScalarSql.Proofs.Code.Routines

/-!
# How IN over a list is tested

The items of a list are compared in turn, or they are looked up in an ephemeral table. The table is
ordered with NULL first, so its first key tells whether a key is NULL; a register is loaded with it if
NULL needs a place of its own.
-/

namespace ScalarSql

open Compiler Gen Meaning

variable {σ : Scope} {w : World σ} {K : Known} {ids : List Identity}
  {c c1 c2 c' : Compiler} {m : Machine} {n : Int} {t : Nat} {cs : List (Option Collation)}
  {keys : List Key}

/-! ## The keys of a list -/

namespace Meaning

variable {col : Collation} {affinity : Affinity} {values : List Value} {operand : Expr} {items : List Meaning}
  {env : Env} {table : List (Option Collation) × List Key}

theorem mem_inserted {k : Key} :
    k ∈ inserted col affinity keys values ↔ k ∈ keys ∨ ∃ v ∈ values, k = [v.applyAffinity affinity] := by
  induction values generalizing keys with
  | nil => simp [inserted]
  | cons v rest ih =>
    rw [show inserted col affinity keys (v :: rest) =
      inserted col affinity (Key.insert [some col] keys [v.applyAffinity affinity]) rest from rfl, ih,
      Key.mem_insert]
    simp only [List.mem_cons, exists_eq_or_imp]
    tauto

theorem nullFirst_inserted (h : Key.NullFirst keys) (hsingle : ∀ k ∈ keys, ∃ v, k = [v]) :
    Key.NullFirst (inserted col affinity keys values) := by
  induction values generalizing keys with
  | nil => exact h
  | cons v rest ih =>
    refine ih (h.insert hsingle _) fun k hk => ?_
    rcases Key.mem_insert.1 hk with rfl | hk
    · exact ⟨_, rfl⟩
    · exact hsingle k hk

/-- The keys that a value is looked up among. -/
def converted (operand : Expr) (values : List Value) : List Value :=
  values.map (Value.applyAffinity (if operand.affinity = .none then .blob else operand.affinity))

/-- The keys are those of a list of values, and a NULL comes first. -/
structure KeysOf (operand : Expr) (values : List Value) (keys : List Key) : Prop where
  mem : ∀ k, k ∈ keys ↔ ∃ v ∈ converted operand values, k = [v]
  nullFirst : Key.NullFirst keys

theorem keyTable_eq_some (h : keyTable operand items env = some table) :
    ∃ values col, items.mapM (·.value env) = some values ∧
      env.collation (operand.collationName?.getD "BINARY") = some col ∧ table.1 = [some col] ∧
      KeysOf operand values table.2 := by
  simp only [keyTable, Option.bind_eq_bind, Option.bind_eq_some_iff] at h
  obtain ⟨values, hvalues, col, hcol, htable⟩ := h
  cases htable
  refine ⟨values, col, hvalues, hcol, rfl, fun k => mem_inserted.trans ?_,
    nullFirst_inserted (h := (by simp [Key.NullFirst] : Key.NullFirst [])) (by simp)⟩
  simp [converted]

theorem keyTable_ne_nil (h : keyTable operand items env = some table) (hne : items ≠ []) : table.2 ≠ [] := by
  obtain ⟨values, col, hvalues, -, -, hkeys⟩ := keyTable_eq_some h
  cases items with
  | nil => exact absurd rfl hne
  | cons μ rest =>
    rw [List.mapM_cons] at hvalues
    simp only [Option.bind_eq_bind, Option.bind_eq_some_iff] at hvalues
    obtain ⟨v, -, vs, -, hvs⟩ := hvalues
    cases hvs
    exact List.ne_nil_of_mem ((hkeys.mem _).2 ⟨_, List.mem_cons_self, rfl⟩)

variable (h : KeysOf operand values keys)

include h

theorem KeysOf.any_eq {f : Key → Bool} {g : Value → Bool} (hfg : ∀ v, f [v] = g v) :
    keys.any f = (converted operand values).any g := by
  rw [Bool.eq_iff_iff, List.any_eq_true, List.any_eq_true]
  constructor
  · rintro ⟨k, hk, hf⟩
    obtain ⟨v, hv, rfl⟩ := (h.mem k).1 hk
    exact ⟨v, hv, hfg v ▸ hf⟩
  · rintro ⟨v, hv, hg⟩
    exact ⟨[v], (h.mem _).2 ⟨v, hv, rfl⟩, (hfg v).symm ▸ hg⟩

theorem KeysOf.head_null : (keys.head? == some [.null]) = (converted operand values).any Value.isNull := by
  rw [Bool.eq_iff_iff, List.any_eq_true, beq_iff_eq]
  constructor
  · intro hhead
    obtain ⟨v, hv, hnull⟩ := (h.mem _).1 (List.mem_of_head? hhead)
    cases hnull
    exact ⟨_, hv, rfl⟩
  · rintro ⟨v, hv, hnull⟩
    cases v with
    | null => exact h.nullFirst ((h.mem _).2 ⟨_, hv, rfl⟩)
    | _ => cases hnull

theorem lookupOutcome_eq (hcol : env.collation (operand.collationName?.getD "BINARY") = some col) (notNull : Bool)
    (x : Value) : lookupOutcome operand notNull x values env = if operand.canBeNull && x.isNull then none
      else if keys.any fun k => Key.compare [some col] [x.applyAffinity operand.affinity] k == .eq then some true
      else if !notNull && keys.head? == some [.null] then none else some false := by
  have hcompare (v : Value) : (Key.compare [some col] [x.applyAffinity operand.affinity] [v] == .eq) =
      (Value.compareBy (some col) (x.applyAffinity operand.affinity) v == .eq) := by
    simp only [Key.compare, List.headD_cons]
    split <;> simp_all
  rw [h.any_eq hcompare, h.head_null, lookupOutcome, hcol]
  rfl

end Meaning

/-! ## Whether a key is NULL -/

def firstField (keys : List Key) : Value := (keys.head?.bind (·.head?)).getD .null

theorem Meaning.KeysOf.firstField_isNull {operand : Expr} {values : List Value} (h : KeysOf operand values keys)
    (hne : keys ≠ []) : (firstField keys).isNull = (keys.head? == some [.null]) := by
  cases keys with
  | nil => exact absurd rfl hne
  | cons k rest =>
    obtain ⟨v, -, rfl⟩ := (h.mem k).1 List.mem_cons_self
    cases v <;> simp [firstField, Value.isNull]

theorem Gen.loadHasNull_spec {reg : Int} (h : (loadHasNull n reg).Makes c () c') (hc : c.Good σ) (hreg : 0 ≤ reg) :
    Step σ [] c c' ∧ ∀ (w : World σ) m t cs keys, m.Tabled n t cs keys → keys ≠ [] → Ready w K c c' m →
      RunsFrom w (· = reg) c c' (fun _ => some ()) (fun _ => none)
        (fun _ m' => m'.register reg = firstField keys) m := by
  simp only [loadHasNull, makes_bind] at h
  obtain ⟨⟨⟩, c1, hzero, a, c2, hrewind, ⟨⟩, c3, hcolumn, hjump⟩ := h
  obtain ⟨s1, e1⟩ := emit_spec hzero hc (by simp)
  obtain ⟨rfl, hinc2, hgood2, -⟩ := emitAt_incomplete hrewind s1.good (by simp)
  obtain ⟨s3, e3⟩ := emit_spec hcolumn hgood2 (by simp)
  let skipping (i : Instr) : Instr := { i with p2 := c3.size }
  have hc' : c' = c3.patch c1.size skipping := makes_jumpHere.1 hjump
  obtain ⟨s2, e2⟩ := emitAt_patch (f := skipping) hrewind s1.good (by simp) fun _ => rfl
  have s3' := s3.patch hinc2 (f := skipping) fun _ => rfl
  have e3' := e3.patch (f := skipping) hinc2.lt
  rw [← hc'] at s3' e3'
  have hsize1 := e1.size
  have hsize2 := e2.size
  have hsize3 := e3'.size
  refine ⟨(s1.trans (s2.trans s3')).mono (by simp), fun w m t cs keys htabled hne ready => ?_⟩
  have hk2 := s3'.continues
  have hk1 := s2.continues.trans hk2
  have hop1 := ready.emitted e1 (Nat.le_refl _) hk1.grows (by simp)
  have hop2 := ready.emitted e2 (by omega) hk2.grows (by simp [skipping])
  have hop3 := ready.emitted_last e3' (by omega) (by simp)
  have hwrites1 : m.Writes (· = reg) (m.setRegister reg.toNat (.integer (Int64.ofInt 0))) := .setRegister m hreg _
  have htabled1 := htabled.frame (Machine.anchor?_congr hwrites1.cursors n) fun _ => by
    rw [hwrites1.ephemeral]
  obtain ⟨m2, hstep2, hmoves, cur, hcur, hfirst⟩ :=
    Instr.step_rewind (a := c1.size) (i := skipping (.of .rewind n)) rfl htabled1
  rw [List.isEmpty_eq_false_iff.2 hne] at hstep2
  refine Leads.next hop1 (Instr.step_integer 0 hreg) (k := 2) (by omega) ?_
  rw [← hsize1]
  refine Leads.branch hop2 hstep2 (k := 1) (by omega) ?_
  rw [if_neg (by decide), ← hsize2]
  refine Leads.next hop3 (Instr.step_column hcur hreg) (k := 0) (by omega) (.done ⟨⟨(), rfl, ?_, ?_⟩, ?_⟩)
  · exact hsize3.symm
  · refine (Machine.register_setRegister_self _ hreg _).trans ?_
    rw [hfirst]
    rfl
  · have hw1 : Within w (· = reg) c c1 m _ := .of_writes hwrites1 fun _ => .inl
    have hw2 : Within w (· = reg) c1 (c2.patch c1.size skipping) _ m2 := .of_moves hmoves
    have hw3 (v : Value) : Within w (· = reg) (c2.patch c1.size skipping) c' m2 (m2.setRegister reg.toNat v) :=
      .of_writes (.setRegister m2 hreg v) fun _ => .inl
    exact hw1.trans (hw2.trans (hw3 _) s2.follows s3'.grows.cursors s3'.size_le
      (ready.divided s2.good hk2.grows)) s1.follows hk1.grows.cursors hk1.size_le
      (ready.divided s1.good hk1.grows)

/-! ## The plan -/

theorem Gen.allocCursor_spec (h : allocCursor.Makes c n c1) (hc : c.Good σ) :
    Step σ [] c c1 ∧ c1.size = c.size ∧ c1.routines = c.routines ∧ n = c.cursors ∧ c1.cursors = c.cursors + 1 := by
  obtain ⟨rfl, rfl⟩ := makes_modifyGet.1 h
  exact ⟨.of_cursors hc (Int.le_add_one (Int.le_refl _)), rfl, rfl, rfl, rfl⟩

section

variable {items : List (Item Code)} {μs : List Meaning} {e left : Expr} {node : Identity} {plan : Plan}
  {wantNull : Bool}

/-- What the plan to look values up in an ephemeral table says. -/
structure Plan.Probes (plan : Plan) (left : Expr) (items : List (Item Code)) (wantNull : Bool) : Prop where
  strategy : plan.strategy = .ephemeral
  notNull : plan.notNull = items.all fun item => !item.expr.expr.canBeNull
  /-- A register is loaded if it matters whether a key is NULL. -/
  hasNull : plan.hasNull.isSome = (wantNull && !plan.notNull)
  map : plan.map = List.range left.vectorSize

theorem Arguments.looksUp (h : Arguments σ K items μs) (env : Env) :
    looksUp μs env = !(RightSide.list items).isChainable env.chained := by
  have hconst : (μs.all fun μ => μ.expr.isConstant .plain) =
      items.all fun item => item.expr.expr.isConstant .plain := by
    induction h with
    | nil => rfl
    | cons hitem _ ih => rw [List.all_cons, List.all_cons, ih, hitem.2]
  rw [Meaning.looksUp, RightSide.isChainable, hconst, ← h.length_eq, Bool.not_or, Bool.not_not]
  rw [Bool.eq_iff_iff]
  simp

/-- The code fills the table in which the plan looks values up. -/
structure Plan.Fills (plan : Plan) (σ : Scope) (K : Known) (ids : List Identity) (left : Expr) (μs : List Meaning)
    (c c' : Compiler) : Prop where
  step : Step σ ids c c'
  cursor : plan.cursor < c'.cursors
  taken : ∀ reg ∈ plan.hasNull, Taken c c' reg
  run : ∀ (w : World σ) m, Ready w K c c' m → looksUp μs w.env ∧
    RunsFrom w nowhere c c' (fun env => μs.mapM (·.value env)) (fun _ => none)
      (fun _ m' => ∃ table t, keyTable left μs w.env = some table ∧ m'.Tabled plan.cursor t table.1 table.2 ∧
        ∀ reg ∈ plan.hasNull, m'.register reg = firstField table.2) m

/-- The plan to compare a value with each item in turn has no code; else the table is filled. -/
theorem Gen.planRight_spec (h : Arguments σ K items μs) (hne : items ≠ [])
    (hmakes : (planRight e node left (.list items) { chain := true } wantNull).Makes c plan c')
    (hc : c.Good σ) (hids : Unused (node :: itemIds items) c) (hnode : σ.HasTable node left items μs) :
    (plan.strategy = .chain ∧ plan.map = List.range left.vectorSize ∧ Step σ [] c c' ∧ c'.size = c.size ∧
      ∀ (w : World σ) m, Ready w K c c' m → looksUp μs w.env = false) ∨
    plan.Probes left items wantNull ∧ plan.Fills σ K (node :: itemIds items) left μs c c' := by
  simp only [planRight, makes_bind, pure_bind, makes_get] at hmakes
  obtain ⟨n, c1, halloc, _, _, ⟨rfl, rfl⟩, hmakes⟩ := hmakes
  obtain ⟨s1, hsize1, hroutines1, rfl, hcursors1⟩ := allocCursor_spec halloc hc
  rw [s1.grows.config] at hmakes
  by_cases hchain : (RightSide.list items).isChainable c.config.chainedItems
  · left
    simp only [hchain, Bool.and_self, if_true, makes_pure] at hmakes
    obtain ⟨rfl, rfl⟩ := hmakes
    refine ⟨rfl, rfl, s1, hsize1, fun w m ready => ?_⟩
    rw [h.looksUp, ← ready.chained, s1.grows.config, hchain]
    rfl
  · right
    have hconst : ∀ item ∈ items, item.expr.expr.isConstant .plain := by
      simp only [RightSide.isChainable, Bool.or_eq_true, not_or] at hchain
      simpa using hchain.1
    have hlooks {c' : Compiler} (hconfig : c'.config = c.config) (w : World σ) {m : Machine}
        (ready : Ready w K c c' m) : looksUp μs w.env := by
      rw [h.looksUp, ← ready.chained, hconfig, Bool.eq_false_iff.2 hchain]
      rfl
    simp only [hchain, Bool.and_false, Bool.false_eq_true, if_false, Bool.not_false, Bool.and_true] at hmakes
    cases hwant : wantNull && !(RightSide.list items).notNull with
    | false =>
      simp only [hwant, Bool.false_eq_true, if_false, makes_bind, makes_pure] at hmakes
      obtain ⟨⟨⟩, c2, hfill, rfl, rfl⟩ := hmakes
      obtain ⟨s2, hcursor, -, hrun⟩ := fillRight_spec h hne hconst s1 hsize1 hroutines1
        ⟨Int.le_refl _, by omega⟩ hfill (hids.step s1) hnode
      refine ⟨⟨rfl, rfl, hwant.symm, rfl⟩, s2, hcursor, (by simp), fun w m ready =>
        ⟨hlooks s2.grows.config w ready, ?_⟩⟩
      refine (hrun w m ready).weaken fun _ m' _ hfilled => ?_
      obtain ⟨table, t, htable, htabled⟩ := hfilled
      exact ⟨table, t, htable, htabled, by simp⟩
    | true =>
      simp only [hwant, if_true, makes_bind, makes_map] at hmakes
      obtain ⟨_, c2, ⟨reg, hreg, rfl⟩, ⟨⟩, c3, hfill, hmakes⟩ := hmakes
      simp only [makes_bind, makes_pure] at hmakes
      obtain ⟨⟨⟩, c4, hload, rfl, rfl⟩ := hmakes
      obtain ⟨s2, -, htaken⟩ := allocReg_spec hreg s1.good
      obtain ⟨hsize2, hroutines2, hcursors2⟩ : c2.size = c1.size ∧ c2.routines = c1.routines ∧
          c2.cursors = c1.cursors := by
        obtain ⟨-, rfl⟩ := makes_modifyGet.1 hreg
        exact ⟨rfl, rfl, rfl⟩
      obtain ⟨s3, hcursor, htaken3, hrun3⟩ := fillRight_spec h hne hconst (s1.trans s2)
        (hsize2.trans hsize1) (hroutines2.trans hroutines1) ⟨Int.le_refl _, by omega⟩ hfill
        (hids.step (s1.trans s2)) hnode
      have htaken0 : Taken c c3 reg := htaken3 reg { htaken with free := s1.free _ htaken.free }
      have hpos : 0 ≤ reg := htaken0.isOpen.nonneg
      obtain ⟨s4, hrun4⟩ := loadHasNull_spec (K := K) hload s3.good hpos
      have hcursors4 := s4.grows.cursors
      have s : Step σ (node :: itemIds items) c c4 := (s3.trans s4).mono (by simp)
      refine ⟨⟨rfl, rfl, hwant.symm, rfl⟩, s, by show c.cursors < c4.cursors; omega, ?_,
        fun w m ready => ⟨hlooks s.grows.config w ready, ?_⟩⟩
      · rintro _ ⟨⟩
        exact htaken0.trans s4
      · have hk := s4.continues
        refine RunsFrom.mono ?_ fun r (hr : r = reg) => .inr (hr ▸ ready.scratch htaken0 hk.grows)
        refine ready.bind s3 hk (fun ready => (hrun3 w m ready).within)
          (fun _ hf => hf.elim) id (fun _ _ _ _ hg => by cases hg) fun values m1 hvalues _ htabled ready1 => ?_
        obtain ⟨⟨table, t, htable, htabled⟩, -⟩ := htabled
        have hnonempty := keyTable_ne_nil htable fun he => hne (List.forall₂_nil_right_iff.1 (he ▸ h))
        have hloaded := (hrun4 w m1 t _ _ htabled hnonempty ready1).within
        refine hloaded.map (f := fun _ => values) hvalues (fun _ => rfl) fun _ m2 h2 =>
          ⟨table, t, htable, ?_, ?_⟩
        · exact htabled.frame (h2.2.cursors _ (.inl hcursor)) (h2.2.tables t)
        · rintro _ ⟨⟩
          exact h2.1

end

end ScalarSql
