import ScalarSql.Proofs.Code.Plans

/-!
# IN by a look-up

The left side is converted in its register and looked up in the table. If it is not found and NULL
needs a place of its own, the first key is looked at: it is NULL if a key is. The same comparison with
the first key serves a left side that is NULL, which is not converted.

The register of the left side may be that of a constant that others use too. The conversion does not
change it then, because the value of a constant has the affinity of its expression already.
-/

namespace ScalarSql

open Compiler Gen Instr Machine Meaning

variable {σ : Scope} {w : World σ} {K : Known} {T : Int → Prop} {c c1 c2 c' : Compiler} {m m1 : Machine}
  {operand : Expr} {plan : Plan} {left : Int} {codes : String} {ifFalse ifNull : Label} {items : List (Item Code)}
  {r : Int} {wantNull : Bool}

/-! ## Steps -/

theorem Machine.Writes.setRegister_same (m : Machine) (hr : 0 ≤ r) (v : Value) :
    m.Writes (fun s => s = r ∧ v ≠ m.register r) (m.setRegister r.toNat v) := by
  refine { Writes.setRegister m hr v with registers := fun s hs => ?_ }
  rw [register_setRegister m hr]
  split
  · rename_i hsr
    subst hsr
    by_contra hne
    exact hs ⟨rfl, hne⟩
  · rfl

theorem Instr.step_ne_null {s p : Int} (col : Option Collation) (a : Nat) (m : Machine)
    (h : (m.register s).isNull ∨ (m.register r).isNull) :
    ∃ o, (({ of .ne s 0 r (Operand.ofOption .collation col) with p2 := p } : Instr).step a).outcome m =
      (.ok (.jumpIf false), { m with lastCompare := o }) := by
  let i : Instr := { of .ne s 0 r (Operand.ofOption .collation col) with p2 := p }
  have hmode : i.mode = {} := CompareMode.ofBits_toBits {}
  have horder : i.order? m = none := by
    have hnull : ((m.register s).isNull || (m.register r).isNull) := by simpa using h
    rw [order?, hmode]
    show CompareMode.order? {} _ (m.register s) (m.register r) = none
    rw [CompareMode.order?, if_pos hnull]
    rfl
  have hstep := outcome_compare_jump (a := a) (m := m) (i := i) (by simp [i, comparing]) (by rw [hmode])
  rw [horder, hmode] at hstep
  exact ⟨_, hstep⟩

/-! ## Converting the left side -/

/-- Jumps if the left side is NULL, and converts it else. -/
def Gen.convertLeft (canBeNull : Bool) (left : Int) (codes : String) (dest : Label) : Gen Unit := do
  if canBeNull then emitJump (.of .isNull left) dest
  emit (.of .affinity left 1 0 (.affinity codes))

theorem Gen.convertLeft_spec {canBeNull : Bool} {dest : Label} {affinity : Affinity}
    (h : (convertLeft canBeNull left (Affinity.codes [affinity]) dest).Makes c () c') (hc : c.Good σ) (hleft : 0 ≤ left)
    (hdest : c.Made dest) : Step σ [] c c' ∧ ∀ (w : World σ) m x, m.register left = x →
      (x.applyAffinity affinity ≠ x → w.Avoids K left) → Ready w K c c' m →
      RunsFrom w (fun r => r = left ∧ x.applyAffinity affinity ≠ x) c c'
        (fun _ => some (canBeNull && x.isNull)) (fun b => if b then some dest else none)
        (fun b m' => m'.register left = if b then x else x.applyAffinity affinity) m := by
  have hconvert {c1 : Compiler} (hemit : (emit (.of .affinity left 1 0
      (.affinity (Affinity.codes [affinity])))).Makes c1 () c') (hc1 : c1.Good σ) :
      Step σ [] c1 c' ∧ ∀ (w : World σ) m x, m.register left = x → Ready w K c1 c' m →
      RunsFrom w (fun r => r = left ∧ x.applyAffinity affinity ≠ x) c1 c' (fun _ => some false)
        (fun b => if b then some dest else none)
        (fun b m' => m'.register left = if b then x else x.applyAffinity affinity) m := by
    obtain ⟨s, e⟩ := emit_spec hemit hc1 (by simp)
    refine ⟨s, fun w m x hx ready => ?_⟩
    refine ready.emit e (by simp) (step_affinity affinity hleft) rfl rfl ?_ ?_
    · rw [register_setRegister_self m hleft, hx]
      rfl
    · refine .of_writes (.setRegister_same m hleft _) fun r hr => .inl ?_
      rwa [hx] at hr
  cases canBeNull with
  | false =>
    obtain ⟨s, hrun⟩ := hconvert (by simpa [convertLeft] using h) hc
    exact ⟨s, fun w m x hx _ ready => hrun w m x hx ready⟩
  | true =>
    simp only [convertLeft, if_true, makes_bind] at h
    obtain ⟨⟨⟩, c1, htest, hemit⟩ := h
    obtain ⟨s1, e1⟩ := emitJump_spec htest hc (by simp) hdest
    obtain ⟨s2, hrun⟩ := hconvert hemit s1.good
    refine ⟨s1.trans s2, fun w m x hx havoid ready => ?_⟩
    have hk := s2.continues
    have hnull (ready : Ready w K c c1 m) : RunsFrom w nowhere c c1 (fun _ => some x.isNull)
        (fun b => if b then some dest else none) (fun _ m' => m' = m) m := by
      refine ready.emitBranch e1 (by simp) (step_isNull rfl) rfl rfl ?_ rfl (.refl w _ _ _ m)
      rw [← hx]
      rfl
    refine ready.bindBranch s1 hk hnull (fun _ hf => hf.elim) (by simp) ?_ ?_
    · rintro _ hb rfl
      exact ⟨true, by simp [Option.some.inj hb], rfl, by simpa using hx⟩
    · rintro _ hb rfl ready1
      exact (hrun w _ x hx ready1).congr (by simp [Option.some.inj hb])

/-! ## Looking at the first key -/

section

variable (hsingle : operand.vectorSize = 1)

include hsingle

/-- If the left side or the first key is NULL, the outcome is unknown. -/
theorem Gen.testUnknown_spec (h : (testUnknown operand plan left ifFalse ifNull).Makes c () c') (hc : c.Good σ)
    (hfalse : c.Made ifFalse) (hnull : c.Made ifNull) (hleft : ¬ c.Free left) :
    Step σ [] c c' ∧ Closes c c' ∧ ∀ (w : World σ) m t cs keys, m.Tabled plan.cursor t cs keys →
      keys ≠ [] → ((m.register left).isNull ∨ (firstField keys).isNull) → Ready w K c c' m →
      RunsFrom w nowhere c c' (fun _ => some ()) (fun _ => some ifNull) (fun _ _ => True) m := by
  simp only [testUnknown, hsingle, Nat.lt_irrefl, if_false, jumpDifferent, makes_bind,
    makes_here, makes_pure, Int.natCast_zero, Int.add_zero] at h
  obtain ⟨top, _, ⟨-, rfl⟩, ⟨⟩, c1, hrewind, ⟨⟩, _, ⟨found, c2, hlookup, reg, c3, htemp, ⟨⟩, c4, hcolumn, ⟨⟩,
    c5, hne, ⟨⟩, c6, hrelease, -, rfl⟩, hgoto⟩ := h
  obtain ⟨s1, e1⟩ := emitJump_spec hrewind hc (by simp) hfalse
  obtain ⟨s2, hb2, -⟩ := lookup_collation?_spec s1.good hlookup
  obtain ⟨s3, htaken⟩ := getTemp_spec htemp s2.good
  obtain ⟨s4, e4⟩ := emit_spec hcolumn s3.good (by simp)
  have s04 : Step σ [] c c4 := s1.trans (s2.trans (s3.trans s4))
  obtain ⟨s5, e5⟩ := emitJump_spec hne s4.good (by simp) (s04.made hfalse)
  have htaken0 : Taken c c3 reg := { htaken with free := s1.free _ (s2.free _ htaken.free) }
  have s6 : Step σ [] c c6 := releaseTemp_step (s04.trans s5) (htaken0.trans (s4.trans s5)) hrelease
  obtain ⟨s7, e7⟩ := emitJump_spec hgoto s6.good (by simp) (s6.made hnull)
  have hsize1 := e1.size
  have hsize3 : c3.size = c1.size := by rw [size, getTemp_builder htemp, hb2, size]
  have hsize4 := e4.size
  have hsize5 := e5.size
  have hsize6 : c6.size = c5.size := by rw [size, releaseTemp_builder hrelease, size]
  have hsize7 := e7.size
  have s : Step σ [] c c' := s6.trans s7
  refine ⟨s, (emitJump_closes hgoto (by simp)).after s6.size_le,
    fun w m t cs keys htabled hnonempty hisNull ready => ?_⟩
  have hgrows {c c1 : Compiler} (s : Step σ [] c c1) : Extends nowhere (fun _ => True) c c1 :=
    s.grows.mono (fun _ h => h) fun _ _ => trivial
  have hx5 : Extends nowhere (fun _ => True) c5 c' :=
    (releaseTemp_extends hrelease).trans (hgrows s7) fun _ _ hf => hf
  have hx4 := (hgrows s5).trans hx5 fun _ _ hf => hf
  have hx3 := (hgrows s4).trans hx4 fun _ _ hf => hf
  have hx1 := (hgrows (s2.trans s3)).trans hx3 fun _ _ hf => hf
  have hop1 := ready.emitted e1 (Nat.le_refl _) hx1 (by simp)
  have hop4 := ready.emitted e4 (by omega) hx4 (by simp)
  have hop5 := ready.emitted e5 (by omega) hx5 (by simp)
  have hop7 := ready.emitted_last e7 (by omega) (by simp)
  have hreg : 0 ≤ reg := htaken.isOpen.nonneg
  have hapart : left ≠ reg := fun he => hleft (he ▸ htaken0.free)
  obtain ⟨m1, hstep1, hmoves, cur, hcur, hfirst⟩ := step_rewind (a := c.size)
    (i := { of .rewind plan.cursor with p2 := w.addr ifFalse.index }) rfl htabled
  rw [List.isEmpty_eq_false_iff.2 hnonempty] at hstep1
  let m2 := m1.setRegister reg.toNat (firstField keys)
  have hregisters : ∀ r, m1.register r = m.register r := by
    obtain ⟨-, cursors, rfl⟩ := hmoves
    exact fun _ => rfl
  have hisNull2 : (m2.register left).isNull ∨ (m2.register reg).isNull := by
    rw [register_setRegister_ne m1 hreg _ hapart, register_setRegister_self m1 hreg, hregisters]
    exact hisNull
  obtain ⟨o, hstep5⟩ := step_ne_null (p := w.addr ifFalse.index) found c4.size m2 hisNull2
  refine Leads.branch hop1 hstep1 (k := 3) (by omega) ?_
  rw [if_neg (by decide), ← hsize1, ← hsize3]
  have hstep4 : ((of .column plan.cursor 0 reg).step c3.size).outcome m1 = (.ok .next, m2) := by
    refine (step_column (n := plan.cursor) hcur hreg).trans ?_
    rw [hfirst]
    rfl
  refine Leads.next hop4 hstep4 (k := 2) (by omega) ?_
  rw [← hsize4]
  refine Leads.branch hop5 hstep5 (k := 1) (by omega) ?_
  rw [if_neg (by decide), ← hsize5, ← hsize6]
  refine Leads.jump hop7 (step_goto rfl) (k := 0) (by omega) (.done ⟨⟨(), rfl, rfl, trivial⟩, ?_⟩)
  have hw1 : Within w nowhere c c m m1 := .of_moves hmoves
  have hw2 : Within w nowhere c c' m1 { m2 with lastCompare := o } := by
    refine .of_writes ((Writes.setRegister m1 hreg _).trans (.lastCompare m2 o)) fun r hr => .inr ?_
    rw [hr]
    exact ready.scratch htaken0 hx3
  exact hw1.trans hw2 ⟨Nat.le_refl _, Int.le_refl _, fun _ h => h⟩ s.grows.cursors s.size_le
    (ready.divided ready.start s.grows)

/-! ## What was not found -/

def Gen.jumpNoNull (plan : Plan) (ifFalse : Label) : Gen Unit :=
  match plan.hasNull with
  | some reg => emitJump (.of .notNull reg) ifFalse
  | none => goto ifFalse

section

variable (hnull : plan.hasNull.isSome = !plan.notNull) (scan : Label)

include hnull scan

theorem Gen.testNotFound_eq :
    testNotFound operand plan left true scan ifFalse ifNull = (do
      jumpNoNull plan ifFalse
      resolve scan
      testUnknown operand plan left ifFalse ifNull) := by
  obtain ⟨strategy, cursor, hasNull, notNull, map⟩ := plan
  cases hasNull with
  | none =>
    obtain rfl : notNull := by simpa using hnull
    simp [testNotFound, jumpNoNull]
  | some reg =>
    obtain rfl : notNull = false := by simpa using hnull
    simp [testNotFound, jumpNoNull, hsingle]

theorem Gen.testNotFound_local : Local (testNotFound operand plan left true scan ifFalse ifNull) := by
  rw [testNotFound_eq hsingle hnull]
  have hjump : Local (jumpNoNull plan ifFalse) := by
    unfold jumpNoNull
    split
    · exact .emitJump _ _
    · exact .emitJump _ _
  have hunknown : Local (testUnknown operand plan left ifFalse ifNull) := by
    simp only [testUnknown, hsingle, Nat.lt_irrefl, if_false, jumpDifferent, bind_assoc]
    exact .bind .here fun _ => .bind (.emitJump _ _) fun _ => .bind .lookup fun _ => .bind .getTemp fun _ =>
      .bind (.emit _) fun _ => .bind (.emitJump _ _) fun _ => .bind (.releaseTemp _) fun _ =>
      .bind (.pure _) fun _ => .emitJump _ _
  exact .bind hjump fun _ => .bind (.resolve _) fun _ => hunknown

end

end

/-- The jump is taken unless the first key is NULL; without a register to look at it is always taken. -/
theorem Gen.jumpNoNull_spec (h : (jumpNoNull plan ifFalse).Makes c () c') (hc : c.Good σ) (hfalse : c.Made ifFalse) :
    Step σ [] c c' ∧ ∀ (w : World σ) m v, (∀ reg ∈ plan.hasNull, (reg, v) ∈ K) → Ready w K c c' m →
      RunsFrom w nowhere c c' (fun _ => some (plan.hasNull.isSome && v.isNull))
        (fun b => if b then none else some ifFalse) (fun _ m' => m' = m) m := by
  unfold jumpNoNull at h
  cases hreg : plan.hasNull with
  | none =>
    rw [hreg] at h
    obtain ⟨s, e⟩ := emitJump_spec h hc (by simp) hfalse
    exact ⟨s, fun w m v _ ready => ready.emitGoto e rfl rfl rfl⟩
  | some reg =>
    rw [hreg] at h
    obtain ⟨s, e⟩ := emitJump_spec h hc (by simp) hfalse
    refine ⟨s, fun w m v hv ready => ?_⟩
    refine ready.emitBranch e (by simp) (step_notNull rfl) rfl rfl ?_ rfl (.refl w _ _ _ m)
    have hvalue : m.register reg = v := (ready.held _ (hv reg rfl)).2.2
    show (if (true && v.isNull) then none else some ifFalse) =
      if (!(m.register reg).isNull) then some ifFalse else none
    rw [hvalue]
    cases v.isNull <;> rfl

/-! ## The test -/

/-- What is known when the value `x` in register `left` is looked up in the table of a list. -/
structure Probing (w : World σ) (K : Known) (c : Compiler) (operand : Expr) (plan : Plan)
    (left : Int) (x : Value) (values : List Value) (keys : List Key) (m : Machine) : Prop where
  tabled : ∃ t col, m.Tabled plan.cursor t [some col] keys ∧
    w.env.collation (operand.collationName?.getD "BINARY") = some col
  cursor : plan.cursor < c.cursors
  keysOf : KeysOf operand values keys
  nonempty : keys ≠ []
  /-- A register tells whether a key is NULL. -/
  hasNull : ∀ reg ∈ plan.hasNull, (reg, firstField keys) ∈ K
  /-- It is changed only if nothing else is in it. -/
  avoids : x.applyAffinity operand.affinity ≠ x → w.Avoids K left
  value : m.register left = x

variable (hsingle : operand.vectorSize = 1)

include hsingle

theorem Gen.testLookup_eq (hplan : plan.Probes operand items wantNull) :
    testLookup operand plan left codes ifFalse ifNull = (do
      let scan ← label
      convertLeft operand.canBeNull left codes (if ifFalse ≠ ifNull then scan else ifFalse)
      if ifFalse ≠ ifNull then
        let found ← emitAt (.of .found plan.cursor 0 left (.int 1))
        testNotFound operand plan left true scan ifFalse ifNull
        jumpHere found
      else
        emitJump (.of .notFound plan.cursor 0 left (.int 1)) ifFalse
        resolve scan) := by
  have hfield : operand.vectorField 0 = operand := Expr.vectorField_of_single (by simp [Expr.isVector, hsingle]) 0
  have hmap : plan.map = [0] := by rw [hplan.map, hsingle]; rfl
  simp only [testLookup, convertLeft, hplan.strategy, hmap, hsingle, jumpNullFields, hfield]
  by_cases hsame : ifFalse = ifNull <;> cases operand.canBeNull <;> simp [hsame]

/-- The step looks the value of the left side up among the keys and goes on or to one of the labels. -/
abbrev LooksUp (σ : Scope) (K : Known) (c c' : Compiler) (operand : Expr) (plan : Plan) (left : Int)
    (ifFalse ifNull : Label) : Prop :=
  Step σ [] c c' ∧ Closes c c' ∧ ∀ (w : World σ) m x values keys,
    Probing w K c operand plan left x values keys m → Ready w K c c' m →
    RunsFrom w (fun r => r = left ∧ x.applyAffinity operand.affinity ≠ x) c c'
      (fun env => some (lookupOutcome operand plan.notNull x values env))
      (verdict ifFalse ifNull) (fun _ _ => True) m

theorem Gen.testLookup_distinct (hplan : plan.Probes operand items true) (hdistinct : ifFalse ≠ ifNull)
    (h : (testLookup operand plan left (Affinity.codes [operand.affinity]) ifFalse ifNull).Makes c () c')
    (hc : c.Good σ) (hfalse : c.Made ifFalse) (hnull : c.Made ifNull) (hleft : 0 ≤ left) (htaken : ¬ c.Free left) :
    LooksUp σ K c c' operand plan left ifFalse ifNull := by
  have hsome : plan.hasNull.isSome = !plan.notNull := by simpa using hplan.hasNull
  rw [testLookup_eq hsingle hplan] at h
  simp only [if_pos hdistinct, makes_bind] at h
  obtain ⟨scan, c1, hlabel, ⟨⟩, c2, hconvert, found, b3, hfound, ⟨⟩, b6, hnot, hjump⟩ := h
  obtain ⟨s1, hscan⟩ := label_spec hlabel hc
  obtain ⟨s2, hrun2⟩ := convertLeft_spec (K := K) hconvert s1.good hleft hscan.made
  obtain ⟨rfl, hinc3, hgood3, -⟩ := emitAt_incomplete hfound s2.good (by simp)
  let skipping (i : Instr) : Instr := { i with p2 := b6.size }
  have hc' : c' = b6.patch c2.size skipping := makes_jumpHere.1 hjump
  have hsize' : c'.size = b6.size := by rw [hc', patch_size]
  obtain ⟨s3, e3⟩ := emitAt_patch (f := skipping) hfound s2.good (by simp) fun _ => rfl
  obtain ⟨-, -, hnot'⟩ := testNotFound_local hsingle hsome scan (f := skipping) hnot hinc3.lt hinc3.waits
  rw [← hc', testNotFound_eq hsingle hsome] at hnot'
  generalize b3.patch c2.size skipping = c3 at s3 e3 hnot'
  simp only [makes_bind] at hnot'
  obtain ⟨⟨⟩, c4, hno, ⟨⟩, c5, hresolve, hunknown⟩ := hnot'
  have s03 : Step σ [] c c3 := s1.trans (s2.trans s3)
  obtain ⟨s4, hrun4⟩ := jumpNoNull_spec (K := K) hno s3.good (s03.made hfalse)
  obtain ⟨s5, hk4, hsize5, hplace⟩ := hscan.resolve hresolve s1 (s2.trans (s3.trans s4))
  obtain ⟨s6, hcloses, hrun6⟩ := testUnknown_spec (K := K) hsingle hunknown s5.good (s5.made hfalse)
    (s5.made hnull) (s5.not_free htaken)
  refine ⟨s5.trans s6, hcloses.after s5.size_le, fun w m x values keys hp ready => ?_⟩
  obtain ⟨t, col, htabled, hcol⟩ := hp.tabled
  have houtcome := lookupOutcome_eq hp.keysOf hcol plan.notNull x
  rw [← hp.keysOf.firstField_isNull hp.nonempty] at houtcome
  have hk3 := s4.continues.trans hk4
  have hk2 := s3.continues.trans hk3
  have hk1 := s2.continues.trans hk2
  have hT : ∀ r, r = left ∧ x.applyAffinity operand.affinity ≠ x → w.Avoids K r ∧
      ((r = left ∧ x.applyAffinity operand.affinity ≠ x) ∨ w.Scratch c r) :=
    fun r hr => ⟨hr.1 ▸ hp.avoids hr.2, .inl hr⟩
  have ready0 : Ready w K c c5 m := ready.first s5 s6.grows s6.continues.guarded
  have haddr : (w.addr scan.index).toNat = c5.size := hplace _ ready0.settled
  let place (o : Option Bool) : Nat :=
    if o = some true then c'.size else if o = some false then (w.addr ifFalse.index).toNat else c5.size
  have hfirst : RunsTo w (fun r => r = left ∧ x.applyAffinity operand.affinity ≠ x) c c5
      (fun env => some (lookupOutcome operand plan.notNull x values env)) place
      (fun o m' => o = none → (m'.register left).isNull ∨ (firstField keys).isNull) m := by
    refine ready0.silentTo s1 hk1.grows hscan.size fun ready1 => ?_
    have hcursor1 : plan.cursor < c1.cursors := Int.lt_of_lt_of_le hp.cursor s1.grows.cursors
    have hconverted := runsFrom_iff.1 (hrun2 w m x hp.value hp.avoids (ready1.first s2 hk2.grows hk2.guarded)).within
    refine ready1.bindTo s2.passes hk2.grows.weaken hconverted (fun r hr => ⟨(hT r hr).1, .inl hr⟩) (by simp)
      fun b m2 hb hholds => ?_
    obtain ⟨hvalue, hw2⟩ := hholds
    have hb : (operand.canBeNull && x.isNull) = b := Option.some.inj hb
    rw [hb] at houtcome
    cases b with
    | true =>
      -- a left side that is NULL is not looked up
      refine .inr ⟨none, by rw [houtcome]; rfl, haddr, fun _ => .inl ?_⟩
      rw [hvalue]
      exact (Bool.and_eq_true_iff.1 hb).2
    | false =>
      refine .inl ⟨rfl, fun ready2 => ?_⟩
      have htabled2 := htabled.frame (hw2.cursors _ (.inl hcursor1)) (hw2.tables t)
      obtain ⟨m3, hstep, hmoves⟩ := step_probe (a := c2.size) true
        (i := skipping (.of .found plan.cursor 0 left (.int 1))) rfl rfl htabled2
      have hop := ready2.emitted e3 (Nat.le_refl _) hk3.grows (by simp [skipping])
      have hsize3 := e3.size
      let hits := keys.any fun k => Key.compare [some col] [x.applyAffinity operand.affinity] k == .eq
      have hprobe : RunsTo w nowhere c2 c3 (fun _ => some hits)
          (fun b => if b then c'.size else c3.size) (fun _ _ => True) m2 := by
        refine Leads.branch hop hstep (k := 0) (by omega) (.done ⟨⟨hits, rfl, ?_, trivial⟩, .of_moves hmoves⟩)
        have hleft2 : m2.register left = x.applyAffinity operand.affinity := hvalue
        show (if ((keys.any fun k => Key.compare [some col] [m2.register left] k == .eq) == true) then
          (b6.size : Int).toNat else c2.size + 1) = _
        rw [hleft2, beq_true, ← hsize3, hsize']
        rfl
      refine ready2.bindTo s3.passes hk3.grows.weaken hprobe (fun _ hf => hf.elim) (by simp) fun b m4 hhits _ => ?_
      have hhits : hits = b := Option.some.inj hhits
      cases b with
      | true =>
        refine .inr ⟨some true, ?_, rfl, by simp⟩
        rw [houtcome, if_neg Bool.false_ne_true, if_pos hhits]
      | false =>
        refine .inl ⟨rfl, fun ready3 => ?_⟩
        have hjumped := runsFrom_iff.1 (hrun4 w m4 (firstField keys) hp.hasNull (ready3.first s4 hk4.grows hk4.guarded))
        refine ready3.bindTo s4.passes hk4.grows.weaken hjumped (fun _ hf => hf.elim) (by simp) fun b m5 hb _ => ?_
        have hb : (plan.hasNull.isSome && (firstField keys).isNull) = b := Option.some.inj hb
        cases b with
        | true =>
          refine .inl ⟨rfl, fun _ => .done (a := none) ?_ hsize5 fun _ => .inr (Bool.and_eq_true_iff.1 hb).2⟩
          rw [houtcome, if_neg Bool.false_ne_true, if_neg (Bool.eq_false_iff.1 hhits), if_pos (hsome ▸ hb)]
        | false =>
          refine .inr ⟨some false, ?_, rfl, by simp⟩
          rw [houtcome, if_neg Bool.false_ne_true, if_neg (Bool.eq_false_iff.1 hhits),
            if_neg (by rw [← hsome, hb]; decide)]
  rw [runsFrom_iff]
  refine ready.bindTo s5.passes s6.grows.weaken hfirst.within hT (by simp) fun o m1 ho hholds => ?_
  obtain ⟨hunknown, hw⟩ := hholds
  cases o with
  | some b => cases b <;> exact .inr ⟨_, ho, rfl, trivial⟩
  | none =>
    refine .inl ⟨rfl, fun ready1 => ?_⟩
    have hrun : RunsFrom w _ c5 c' (fun env => some (lookupOutcome operand plan.notNull x values env))
        (verdict ifFalse ifNull) (fun _ _ => True) m1 :=
      (hrun6 w m1 t _ keys (htabled.frame (hw.cursors _ (.inl hp.cursor)) (hw.tables t)) hp.nonempty
        (hunknown rfl) ready1).map (f := fun _ => none) ho (fun _ => rfl) fun _ _ _ => trivial
    exact hrun.mono fun _ hf => hf.elim

theorem Gen.testLookup_same (hplan : plan.Probes operand items wantNull)
    (h : (testLookup operand plan left (Affinity.codes [operand.affinity]) ifFalse ifFalse).Makes c () c')
    (hc : c.Good σ) (hfalse : c.Made ifFalse) (hleft : 0 ≤ left) :
    LooksUp σ K c c' operand plan left ifFalse ifFalse := by
  rw [testLookup_eq hsingle hplan] at h
  simp only [ne_eq, not_true_eq_false, if_false, makes_bind] at h
  obtain ⟨scan, c1, hlabel, ⟨⟩, c2, hconvert, ⟨⟩, c3, hnotFound, hresolve⟩ := h
  obtain ⟨s1, hscan⟩ := label_spec hlabel hc
  obtain ⟨s2, hrun2⟩ := convertLeft_spec (K := K) hconvert s1.good hleft (s1.made hfalse)
  obtain ⟨s3, e3⟩ := emitJump_spec hnotFound s2.good (by simp) (s2.made (s1.made hfalse))
  obtain ⟨s4, hk3, hsize4, -⟩ := hscan.resolve hresolve s1 (s2.trans s3)
  have hcloses : Closes c2 c3 := emitJump_closes hnotFound (by simp)
  refine ⟨s4, resolve_closes hresolve (hcloses.after (s1.trans s2).size_le), fun w m x values keys hp ready => ?_⟩
  obtain ⟨t, col, htabled, hcol⟩ := hp.tabled
  have houtcome := lookupOutcome_eq hp.keysOf hcol plan.notNull x
  have hk2 := s3.continues.trans hk3
  have hk1 := s2.continues.trans hk2
  refine ready.silent s1 hk1.grows hscan.size fun ready1 => ?_
  refine ready1.bindBranch s2 hk2 (fun ready => (hrun2 w m x hp.value hp.avoids ready).within)
    (fun r hr => ⟨hr.1 ▸ hp.avoids hr.2, .inl hr⟩) (by simp) (fun m2 hb _ => ?_) fun m2 hb hholds ready2 => ?_
  · exact ⟨none, by rw [houtcome, if_pos (Option.some.inj hb)], rfl, trivial⟩
  · have hnot : ¬ (operand.canBeNull && x.isNull) = true := Bool.eq_false_iff.1 (Option.some.inj hb)
    obtain ⟨hvalue, hw2⟩ := hholds
    have hvalue : m2.register left = x.applyAffinity operand.affinity := hvalue
    have htabled2 := htabled.frame (hw2.cursors _ (.inl (Int.lt_of_lt_of_le hp.cursor s1.grows.cursors))) (hw2.tables t)
    obtain ⟨m3, hstep, hmoves⟩ := step_probe (a := c2.size) false
      (i := { of .notFound plan.cursor 0 left (.int 1) with p2 := w.addr ifFalse.index }) rfl rfl htabled2
    let hits := keys.any fun k => Key.compare [some col] [x.applyAffinity operand.affinity] k == .eq
    have hprobe (ready : Ready w K c2 c3 m2) : RunsFrom w nowhere c2 c3 (fun _ => some (hits == false))
        (fun b => if b then some ifFalse else none) (fun _ _ => True) m2 := by
      refine ready.emitBranch e3 (by simp) hstep rfl rfl ?_ trivial (.of_moves hmoves)
      show _ = if ((keys.any fun k => Key.compare [some col] [m2.register left] k == .eq) == false) then
        some ifFalse else none
      rw [hvalue]
    refine ready2.bindBranch s3 hk3 hprobe (fun _ hf => hf.elim) (by simp) (fun m4 hmiss _ => ?_) fun m4 hhit _ _ => ?_
    · have hmiss : hits = false := by simpa using hmiss
      refine ⟨_, rfl, ?_, trivial⟩
      rw [houtcome, if_neg hnot, if_neg (Bool.eq_false_iff.1 hmiss)]
      split <;> rfl
    · have hhit : hits = true := by simpa using hhit
      exact .done (a := some true) hsize4 (by rw [houtcome, if_neg hnot, if_pos hhit]) rfl trivial

end ScalarSql
