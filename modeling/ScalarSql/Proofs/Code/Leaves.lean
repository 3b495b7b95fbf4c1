import ScalarSql.Code.Reference
import ScalarSql.Proofs.Code.Filling

/-!
# Literals, parameters and columns

The leaves of expressions load their value by one or two instructions. A column that is known to equal
a constant is computed as that constant, with the affinity of the column.
-/

namespace ScalarSql

open Compiler Gen Instr

variable {σ : Scope} {K : Known} {ids : List Identity} {d : Reading} {e : Expr}
  {i : Int → Instr} {n : Int} {ref : ColumnRef Expr}

theorem Loads.of_emit (hop : ∀ r, (i r).opcode ≠ .copy)
    (hstep : ∀ (env : Env) (m : Machine) a r, m.params = env.params → 0 ≤ r →
      ∃ v, d env = some v ∧ (i r).Sets a m r v) :
    Loads σ K ids (fun reg => emit (i reg)) d := by
  intro c c' reg hmakes hc hreg hids
  obtain ⟨s, e⟩ := emit_spec hmakes hc (hop reg)
  refine ⟨s.mono (by simp), fun w havoid m ready => ?_⟩
  have hpos : 0 ≤ reg := hreg.nonneg
  obtain ⟨v, hv, hrun⟩ := hstep w.env m c.size reg ready.params hpos
  exact ready.emitSet e (hop reg) hpos hrun hv

theorem Loads.andThen {g : Int → Gen Unit} (h : Loads σ K ids g d) {f : Value → Value}
    (hop : ∀ r, (i r).opcode ≠ .copy) (hstep : ∀ r a m, 0 ≤ r → ∃ m', ((i r).step a).outcome m = (.ok .next, m') ∧
      m.Writes (· = r) m' ∧ m'.register r = f (m.register r)) :
    Loads σ K ids (fun reg => do g reg; emit (i reg)) fun env => (d env).map f := by
  intro c c' reg hmakes hc hreg hids
  simp only [makes_bind] at hmakes
  obtain ⟨⟨⟩, c1, hg, hemit⟩ := hmakes
  obtain ⟨s1, hrun⟩ := h hg hc hreg hids
  obtain ⟨s2, e2⟩ := emit_spec hemit s1.good (hop reg)
  refine ⟨(s1.trans s2).mono (by simp), fun w havoid m ready => ?_⟩
  refine ready.bindValue s1 s2.continues (hrun w havoid) havoid.only (s1.not_free hreg.taken)
    havoid.lent (by simp +contextual) fun v hv m1 ready1 => ?_
  obtain ⟨m2, hrun2, hwrites, hvalue⟩ := hstep reg c1.size m1 hreg.nonneg
  have hheld := (ready1.held _ List.mem_cons_self).2.2
  refine ready1.emit e2 (hop reg) hrun2 (by rw [hv]; rfl) rfl ?_ (.of_writes hwrites fun _ => .inl)
  rw [hvalue, hheld]

/-! ## Literals -/

theorem Loads.null : Loads σ K ids (fun reg => emit (.of .null 0 reg)) fun _ => some .null :=
  .of_emit (fun _ => by simp) fun _ _ _ _ _ hr => ⟨_, rfl, step_null hr⟩

theorem Loads.inline (v : Int) : Loads σ K ids (fun reg => emit (.of .integer v reg))
      fun _ => some (.integer (Int64.ofInt v)) :=
  .of_emit (fun _ => by simp) fun _ _ _ _ _ hr => ⟨_, rfl, step_integer v hr⟩

theorem Loads.boolean (b : Bool) : Loads σ K ids (fun reg => emit (.of .integer (if b then 1 else 0) reg))
      fun _ => some (.ofBool b) := by
  cases b
  · exact .inline 0
  · exact .inline 1

theorem Loads.text (s : String) :
    Loads σ K ids (fun reg => emit (.of .text 0 reg 0 (.text s))) fun _ => some (.text s) :=
  .of_emit (fun _ => by simp) fun _ _ _ _ _ hr => ⟨_, rfl, step_text s hr⟩

theorem Loads.param (index : Int) (p4 : Operand) : Loads σ K ids (fun reg => emit (.of .param index reg 0 p4))
      fun env => some (env.param index) := by
  refine .of_emit (fun _ => by simp) fun env m a r hparams hr => ⟨_, rfl, ?_⟩
  rw [Sets, step_param index p4 hr, hparams]
  rfl

theorem Loads.real (t : String) (negated : Bool) :
    Loads σ K ids (loadReal t negated) fun _ => some (realLiteral t negated) :=
  .of_emit (fun _ => by simp) fun _ _ _ _ _ hr => ⟨_, rfl, step_real _ hr⟩

theorem Loads.integer (t : String) (negated : Bool) :
    Loads σ K ids (loadInteger t negated) fun _ => integerLiteral t negated := by
  unfold loadInteger integerLiteral
  cases (IntegerText.read t).signed? negated with
  | some i =>
    exact .of_emit (fun _ => by simp) fun _ _ _ _ _ hr => ⟨_, rfl, step_int64 i hr⟩
  | none =>
    cases IntegerText.isHex t with
    | false => exact .real t negated
    | true =>
      intro c c' reg hmakes hc hreg hids
      obtain ⟨s, e⟩ := emit_spec hmakes hc (by simp)
      exact ⟨s.mono (by simp), fun w _ m ready =>
        ready.emitFail e (by simp) (step_raise 1 (by decide) _) rfl⟩

theorem Loads.blob (hex : String) :
    Loads σ K ids (loadBlob hex) fun _ => (Text.readHexBytes? hex.toList).map .blob := by
  unfold loadBlob
  cases Text.readHexBytes? hex.toList with
  | some bytes =>
    exact .of_emit (fun _ => by simp) fun _ _ _ _ _ hr => ⟨_, rfl, step_blob _ bytes hr⟩
  | none =>
    intro c c' reg hmakes
    exact (makes_throw.1 hmakes).elim

/-! ## Columns -/

section

variable (hn : σ.cursors n)

include hn

theorem Loads.of_read {f : RowView → Value} (hop : ∀ r, (i r).opcode ≠ .copy)
    (hopen : ∀ m a r cur, m.cursor? n = some cur → cur.isStored → 0 ≤ r → (i r).Sets a m r (f cur.view))
    (hclosed : ∀ m a r, m.cursor? n = none → ((i r).step a).outcome m = (.error (.cursorNotOpen n), m)) :
    Loads σ K ids (fun reg => emit (i reg)) fun env => (env.row n).map f := by
  intro c c' reg hmakes hc hreg hids
  obtain ⟨s, e⟩ := emit_spec hmakes hc (hop reg)
  refine ⟨s.mono (by simp), fun w havoid m ready => ?_⟩
  have hpos : 0 ≤ reg := hreg.nonneg
  have hrow := ready.rows n hn
  cases hcur : m.cursor? n with
  | none =>
    rw [hcur] at hrow
    exact ready.emitFail e (hop reg) (hclosed m c.size reg hcur) (by rw [← hrow]; rfl)
  | some cur =>
    rw [hcur] at hrow
    exact ready.emitSet e (hop reg) hpos
      (hopen m c.size reg cur hcur (ready.stored n cur hn hcur) hpos) (by rw [← hrow]; rfl)

theorem Loads.field (column : Int) (default : Option Value) :
    Loads σ K ids (fun reg => emit (.of .column n column reg (Operand.ofOption .value default)))
      fun env => (env.row n).map fun view => (view.column column).getD (default.getD .null) := by
  refine .of_read hn (fun _ => by simp) (fun m a r cur hcur hstored hr => ?_) fun m a r hcur => step_column_closed hcur
  rw [Sets, step_column hcur hr, Cursor.column?_eq_view hstored]
  cases default <;> rfl

theorem Loads.rowid : Loads σ K ids (fun reg => emit (.of .rowid n reg)) fun env => (env.row n).map (·.rowid) :=
  .of_read hn (fun _ => by simp) (fun _ _ _ _ hcur _ hr => step_rowid hcur hr) fun _ _ _ hcur => step_rowid_closed hcur

theorem Loads.column (table : Option Table) (column : Int) :
    Loads σ K ids (readColumn table n column) fun env => (env.row n).map (·.value table column) := by
  unfold readColumn RowView.value
  cases table with
  | none => exact .field hn column none
  | some t =>
    cases hrowid : t.isRowid column with
    | true =>
      simp only [hrowid, if_true]
      exact .rowid hn
    | false =>
      have hfield : Loads σ K ids _ _ := .field hn column ((t.column? column).bind (·.default?))
      by_cases hreal : t.columnAffinity column = .real
      · simp only [hrowid, if_pos hreal, Bool.false_eq_true, if_false]
        have hboth := hfield.andThen (i := fun r => .of .realAffinity r) (f := realValue)
          (fun _ => by simp) fun r a m hr => ?_
        · simpa only [Option.map_map, Function.comp_def] using hboth
        · rcases step_realAffinity (a := a) (m := m) hr with hset | ⟨hsame, hvalue⟩
          · exact ⟨_, hset, .setRegister m hr _, Machine.register_setRegister_self m hr _⟩
          · exact ⟨m, hsame, .refl _ m, hvalue.symm⟩
      · simp only [hrowid, if_neg hreal, Bool.false_eq_true, if_false, bind_pure_unit]
        exact hfield

end

/-- A column is read from the row under its cursor, or from the own row if it has none. -/
theorem Targets.column (hn : σ.cursors ref.cursor) :
    Targets σ K ids (Gen.column ref none) fun env => env.column ref.table ref.cursor ref.column := by
  intro c c' reg r hmakes hc hreg hids
  -- the row that the code reads, and where the environment has it
  obtain ⟨n, hn, hread, hseen⟩ : ∃ n, σ.cursors n ∧
      (do Gen.readColumn ref.table n ref.column reg; return reg).Makes c r c' ∧
      ∀ w : World σ, w.env.seen ref.cursor = w.env.row n := by
    by_cases hcursor : 0 ≤ ref.cursor
    · simp only [Gen.column, if_pos hcursor] at hmakes
      refine ⟨ref.cursor, hn, hmakes, fun w => ?_⟩
      rw [Env.seen, readCursor?, if_pos hcursor]
      rfl
    · simp only [Gen.column, if_neg hcursor, Gen.makes_get_bind] at hmakes
      split at hmakes
      · rename_i base hrow
        obtain ⟨n, hn, -⟩ := hc.ownRow _ hrow
        cases hn
      · rename_i n hrow
        obtain ⟨n, hn, hown⟩ := hc.ownRow _ hrow
        cases hn
        refine ⟨n, σ.placed n hown, hmakes, fun w => ?_⟩
        rw [Env.seen, readCursor?, if_neg hcursor, w.own, hown]
        rfl
      · exact (Gen.makes_throw.1 hmakes).elim
  obtain ⟨hstep, hfound, hyields⟩ := Targets.of_loads (.column hn ref.table ref.column) hread hc hreg hids
  refine ⟨hstep, hfound, fun w havoid => ?_⟩
  have hvalue : (w.env.row n).map (·.value ref.table ref.column) = w.env.column ref.table ref.cursor ref.column := by
    rw [Env.column, hseen w]
  exact (hyields w havoid).of_eq hvalue

theorem Targets.fixedColumn {code : Code} (h : code.Realizes σ K d) :
    Targets σ K code.expr.identities (Gen.column ref (some code)) fun env => (d env).map (Meaning.fixedValue ref) := by
  rw [show Gen.column ref (some code) = Gen.fixedColumn ref code from rfl]
  unfold Meaning.fixedValue
  generalize haffinity : (ref.table.map (·.columnAffinity ref.column)).getD .blob = affinity
  by_cases hblob : (affinity = .blob || affinity = .none)
  · have hsame : Gen.fixedColumn ref code = code.target := by
      funext reg
      simp only [Gen.fixedColumn, haffinity, if_pos hblob, bind_pure]
    simp only [hsame, if_pos hblob, Option.map_id_fun', id]
    exact h.target
  · have hthen : Gen.fixedColumn ref code = fun reg => (do
        (do
          (do
            let found ← code.target reg
            if found ≠ reg then Gen.emit (.of .copyOne found reg))
          Gen.emit (.of .affinity reg 1 0 (.affinity (Affinity.codes [affinity]))))
        return reg) := by
      funext reg
      simp only [Gen.fixedColumn, haffinity, if_neg hblob, bind_assoc]
      refine bind_congr fun found => ?_
      split <;> simp
    simp only [hthen, if_neg hblob]
    refine .of_loads (.andThen (.of_targets (.inl rfl) h.target)
      (i := fun r => .of .affinity r 1 0 (.affinity (Affinity.codes [affinity])))
      (fun _ => by simp) fun r a m hr => ?_)
    exact ⟨_, Instr.step_affinity affinity hr, .setRegister m hr _, Machine.register_setRegister_self m hr _⟩

end ScalarSql
