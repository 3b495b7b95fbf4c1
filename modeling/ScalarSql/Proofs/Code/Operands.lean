import ScalarSql.Code.Operator
import ScalarSql.Proofs.Code.Leaves

/-!
# Operations on two values

Two operands are computed into registers, an instruction works on them, and the registers are
released: this is the shape of arithmetic and of comparisons, and also of each step in a comparison of
row values.
-/

namespace ScalarSql

open Compiler Gen Instr

variable {σ : Scope} {K : Known} {ids ids1 ids2 ids3 : List Identity} {d1 d2 : Reading}
  {c c1 c2 c3 c4 c5 : Compiler} {p₁ p₂ : Int × Option Int} {r1 r2 : Int} {opcode : Opcode} {left right : Code}
  {ins : Instr} {x y : Expr} {op : BinaryOp} {w : World σ} {m : Machine} {l r : Expr} {mode : CompareMode}
  {found : Option Collation}

/-! ## Two operands -/

theorem Gen.release_both (s1 : Step σ ids1 c c1) (hp1 : Borrowed K c c1 p₁) (s2 : Step σ ids2 c1 c2)
    (hp2 : Borrowed K c1 c2 p₂) (s3 : Step σ ids3 c2 c3) (h1 : (release p₁.2).Makes c3 () c4)
    (h2 : (release p₂.2).Makes c4 () c5) : Step σ (ids1 ++ ids2 ++ ids3) c c5 := by
  have hfirst := release_step ((s1.trans s2).trans s3) ((hp1.lends.trans s2).trans s3) h1
  refine release_step hfirst (fun r hr => ?_) h2
  have htaken : Taken c1 c2 r := hp2.lends r hr
  have hwhole : Taken c c3 r :=
    ⟨s1.free r htaken.free, htaken.pos, (htaken.trans s3).taken, (htaken.trans s3).unhoisted⟩
  -- the register of the first operand was taken when the second one was free
  exact release_taken hwhole (fun he => (hp1.lends r he).taken htaken.free) h1

/-- Code that computes two operands and then goes on with their values. -/
theorem Ready.bindBoth {α : Type} {T : Int → Prop} {d : Env → Option α} {goes : α → Option Label}
    {holds : α → Machine → Prop} (h : Ready w K c c3 m) (s1 : Step σ ids1 c c1) (hp1 : Borrowed K c c1 p₁)
    (y1 : Yields w K nowhere c c1 d1 p₁.1) (s2 : Step σ ids2 c1 c2) (hp2 : Borrowed K c1 c2 p₂)
    (y2 : Yields w K nowhere c1 c2 d2 p₂.1) (k : Continues c2 c3) (hnone1 : d1 w.env = none → d w.env = none)
    (hnone2 : ∀ a, d1 w.env = some a → d2 w.env = none → d w.env = none)
    (hnext : ∀ a b, d1 w.env = some a → d2 w.env = some b → Runs w ((p₂.1, b) :: (p₁.1, a) :: K) T c2 c3 d goes holds) :
    RunsFrom w T c c3 d goes holds m := by
  refine h.bindTemp s1 (s2.continues.trans k) hp1 y1 hnone1 fun a ha m1 ready1 => ?_
  have hmore : ∀ p ∈ K, p ∈ (p₁.1, a) :: K := fun _ => List.mem_cons_of_mem _
  exact ready1.bindTemp s2 k (hp2.mono hmore) (y2.hold hmore) (hnone2 a ha) fun b hb => hnext a b ha hb

theorem Ready.heldBoth {a b : Value} (h : Ready w ((r2, b) :: (r1, a) :: K) c c1 m) :
    m.register r1 = a ∧ m.register r2 = b :=
  ⟨(h.held _ (List.mem_cons_of_mem _ List.mem_cons_self)).2.2, (h.held _ List.mem_cons_self).2.2⟩

/-! ## Arithmetic -/

theorem Loads.arithmetic {f : Value → Value → Value} (hop : opcode ≠ .copy)
    (hstep : ∀ s t r a m, 0 ≤ r → (of opcode s t r).Sets a m r (f (m.register s) (m.register t)))
    (h1 : Temps σ K ids1 left.temp d1) (h2 : Temps σ K ids2 right.temp d2) :
    Loads σ K (ids1 ++ ids2) (arithmetic opcode left right) fun env => do
      return f (← d1 env) (← d2 env) := by
  intro c c' reg hmakes hc hreg hids
  simp only [Gen.arithmetic, makes_bind] at hmakes
  obtain ⟨p₁, c1, hleft, p₂, c2, hright, ⟨⟩, c3, hemit, ⟨⟩, c4, hr1, hr2⟩ := hmakes
  obtain ⟨s1, hp1, hrun1⟩ := h1 hleft hc hids.left
  obtain ⟨s2, hp2, hrun2⟩ := h2 hright s1.good (hids.right s1)
  obtain ⟨s3, e3⟩ := emit_spec hemit s2.good hop
  refine ⟨(release_both s1 hp1 s2 hp2 s3 hr1 hr2).mono (by simp), fun w havoid m ready => ?_⟩
  have hcontinues : Continues c2 c' := s3.continues.extend (by rw [e3.size]; omega) fun _ =>
    (release_extends hr1).trans (release_extends hr2) fun _ _ hf => hf
  refine ready.bindBoth s1 hp1 (hrun1 w) s2 hp2 (hrun2 w) hcontinues (by simp +contextual)
    (by simp +contextual) fun a b ha hb m1 ready1 => ?_
  obtain ⟨hvalue1, hvalue2⟩ := ready1.heldBoth
  have hpos : 0 ≤ reg := hreg.nonneg
  refine ready1.emitSet ((e3.of_builder (release_builder hr1)).of_builder
    (release_builder hr2)) hop hpos (hstep p₁.1 p₂.1 reg _ m1 hpos) ?_
  rw [ha, hb, hvalue1, hvalue2]
  rfl

/-! ## Comparisons -/

theorem Gen.comparison_spec {p₂ : Int} (h : (comparison l r opcode r1 r2 mode p₂).Makes c ins c1) (hc : c.Good σ) :
    Step σ [] c c1 ∧ c1.builder = c.builder ∧ ∃ found, Finds σ (l.compareCollationName? r) found ∧
        ins = .of opcode r1 p₂ r2 (Operand.ofOption .collation found)
          { mode with affinity := l.compareAffinity r.affinity : CompareMode }.toBits := by
  simp only [comparison, makes_bind, makes_pure] at h
  obtain ⟨found, _, hlookup, rfl, rfl⟩ := h
  obtain ⟨hstep, hb, hfinds⟩ := lookup_collation?_spec hc hlookup
  exact ⟨hstep, hb, found, hfinds, rfl⟩

theorem World.finds (w : World σ) {name : Option String} (hfinds : Finds σ name found) :
    name.bind w.env.collation = found := by
  rw [w.collation]
  cases hfinds with
  | none => rfl
  | some hget => exact hget

theorem Env.order?_eq {env : Env} (hblind : env.CaseBlind) (hl : l.TypedAlike x) (hr : r.TypedAlike y)
    (hfound : (l.compareCollationName? r).bind env.collation = found) {p₂ : Int}
    (hins : ins = .of opcode r1 p₂ r2 (Operand.ofOption .collation found)
      { mode with affinity := l.compareAffinity r.affinity : CompareMode }.toBits) (m : Machine) :
    ins.order? m = env.order? x y mode.nullEq (m.register r1) (m.register r2) := by
  rw [← Meaning.order?_congr hblind hl hr, hins]
  unfold Instr.order? Env.order?
  rw [hfound, Instr.collation?_ofOption]
  simp only [Instr.mode, Instr.of, CompareMode.ofBits_toBits]
  rfl

theorem Instr.ne_copy_of_comparing (h : ins.opcode ∈ comparing) : ins.opcode ≠ .copy := by
  intro he
  rw [he] at h
  revert h
  decide

section

variable {l r x y : Expr} {opcode : Opcode} {mode : CompareMode} {ins : Instr} {reg : Int}

/-- Two values are compared and the outcome is stored, where `before` is the value that is there; the
order of the two values stays known to the machine. -/
theorem compareStored (s1 : Step σ ids1 c c1) (hp1 : Borrowed K c c1 p₁)
    (y1 : ∀ w : World σ, Yields w K nowhere c c1 d1 p₁.1) (s2 : Step σ ids2 c1 c2)
    (hp2 : Borrowed K c1 c2 p₂) (y2 : ∀ w : World σ, Yields w K nowhere c1 c2 d2 p₂.1)
    (hx : l.TypedAlike x) (hy : r.TypedAlike y) (hop : opcode ∈ comparing) (hstore : mode.store) (hreg : 1 ≤ reg)
    (hins : (comparison l r opcode p₁.1 p₂.1 mode reg).Makes c2 ins c3)
    (hemit : (emit ins).Makes c3 () c4) (hr1 : (release p₁.2).Makes c4 () c5)
    {c6 : Compiler} (hr2 : (release p₂.2).Makes c5 () c6) :
    Step σ (ids1 ++ ids2) c c6 ∧ ∀ (w : World σ) before, Runs w ((reg, before) :: K) (· = reg) c c6
        (fun env => do return env.order? x y mode.nullEq (← d1 env) (← d2 env)) (fun _ => none)
        fun order m => m.register reg = opcode.stored mode.keepNull order before ∧ m.lastCompare = order.getD .lt := by
  obtain ⟨s3, hb3, found, hfinds, hins⟩ := comparison_spec hins s2.good
  have hcomparing : ins.opcode ∈ comparing := by
    rw [hins]
    exact hop
  obtain ⟨s4, e4⟩ := emit_spec hemit s3.good (ne_copy_of_comparing hcomparing)
  have e6 := (e4.of_builder (release_builder hr1)).of_builder (release_builder hr2)
  have hsize : c3.size = c2.size := by rw [size, hb3, size]
  have hcontinues : Continues c3 c6 := s4.continues.extend (by rw [e4.size]; omega) fun _ =>
    (release_extends hr1).trans (release_extends hr2) fun _ _ hf => hf
  refine ⟨(release_both s1 hp1 s2 hp2 (s3.trans s4) hr1 hr2).mono (by simp), fun w before m ready => ?_⟩
  have hmore : ∀ p ∈ K, p ∈ (reg, before) :: K := fun _ => List.mem_cons_of_mem _
  refine ready.bindBoth s1 (hp1.mono hmore) ((y1 w).hold hmore) s2 (hp2.mono hmore) ((y2 w).hold hmore)
    (s3.continues.trans hcontinues) (by simp +contextual) (by simp +contextual)
    fun a b ha hb m1 ready1 => ?_
  refine ready1.silent s3 hcontinues.grows hsize fun ready2 => ?_
  obtain ⟨hvalue1, hvalue2⟩ := ready2.heldBoth
  have hbefore : m1.register reg = before := (ready2.held (reg, before) (by simp)).2.2
  have hpos : 0 ≤ ins.p2 := by
    rw [hins]
    exact Int.le_trans (by decide) hreg
  have hmode : ins.mode = { mode with affinity := l.compareAffinity r.affinity } := by
    rw [hins]
    exact CompareMode.ofBits_toBits _
  obtain ⟨m2, hstep, hwrites, hvalue, hlast⟩ := outcome_compare_store (a := c3.size) (m := m1)
    hcomparing (by rw [hmode]; exact hstore) hpos
  have horder := Env.order?_eq w.caseBlind hx hy (w.finds hfinds) hins m1
  rw [hvalue1, hvalue2] at horder
  rw [horder] at hvalue hlast
  rw [show ins.p2 = reg by rw [hins]; rfl] at hwrites hvalue
  refine ready2.emit e6 (ne_copy_of_comparing hcomparing) hstep (by rw [ha, hb]; rfl) rfl
    ⟨?_, hlast⟩ (.of_writes hwrites fun _ => .inl)
  rw [hvalue, hmode, hbefore, show ins.opcode = opcode by rw [hins]; rfl]

end

theorem Loads.comparison (hop : op.isComparison) (hx : left.expr.TypedAlike x) (hy : right.expr.TypedAlike y)
    (h1 : Temps σ K ids1 left.temp d1) (h2 : Temps σ K ids2 right.temp d2) :
    Loads σ K (ids1 ++ ids2) (storeComparison op left right) fun env => do
      return .ofTruth (env.compare op x y (← d1 env) (← d2 env)) := by
  intro c c' reg hmakes hc hreg hids
  simp only [storeComparison, makes_bind] at hmakes
  obtain ⟨p₁, c1, hleft, p₂, c2, hright, ins, c3, hins, ⟨⟩, c4, hemit, ⟨⟩, c5, hr1, hr2⟩ := hmakes
  obtain ⟨s1, hp1, hrun1⟩ := h1 hleft hc hids.left
  obtain ⟨s2, hp2, hrun2⟩ := h2 hright s1.good (hids.right s1)
  obtain ⟨hstep, hrun⟩ := compareStored s1 hp1 hrun1 s2 hp2 hrun2 hx hy
    (opcode_comparing hop) rfl hreg.pos hins hemit hr1 hr2
  refine ⟨hstep, fun w havoid m ready => ?_⟩
  have hready := ready.hold hreg.taken havoid.lent
  refine (hrun w _ m hready).map (f := fun order => .ofTruth (order.map op.opcode.accepts)) ?_ (fun _ => rfl)
    fun order m1 hholds => ?_
  · cases d1 w.env <;> cases d2 w.env <;> rfl
  · rw [hholds.1]
    cases order <;> rfl

theorem BinaryOp.branching (hop : op.isComparison) (wanted : Bool) :
    (if wanted then op.opcode else op.opcode.negated?.getD op.opcode) ∈ comparing ∧
      ∀ o, (if wanted then op.opcode else op.opcode.negated?.getD op.opcode).accepts o =
        (op.opcode.accepts o == wanted) := by
  cases wanted with
  | true => exact ⟨opcode_comparing hop, fun o => by simp⟩
  | false => exact ⟨negated_comparing hop, fun o => by simpa using accepts_negated hop o⟩

theorem Env.order?_isSome (env : Env) (x y : Expr) (a b : Value) : (env.order? x y true a b).isSome := by
  unfold Env.order? CompareMode.order?
  split <;> rfl

theorem Jumps.comparison (hop : op.isComparison) (hx : left.expr.TypedAlike x) (hy : right.expr.TypedAlike y)
    (h1 : Temps σ K ids1 left.temp d1) (h2 : Temps σ K ids2 right.temp d2) (wanted jumpIfNull : Bool) :
    Jumps σ K (ids1 ++ ids2) (fun l => jumpComparison op left right wanted l jumpIfNull) fun env => do
        return takes wanted jumpIfNull (env.compare op x y (← d1 env) (← d2 env)) := by
  intro c c' label hmakes hc hl hids
  simp only [jumpComparison, makes_bind] at hmakes
  obtain ⟨p₁, c1, hleft, p₂, c2, hright, ins, c3, hins, ⟨⟩, c4, hemit, ⟨⟩, c5, hr1, hr2⟩ := hmakes
  obtain ⟨hcompares, haccepts⟩ := BinaryOp.branching hop wanted
  generalize (if wanted then op.opcode else op.opcode.negated?.getD op.opcode) = opcode at hins hcompares haccepts
  obtain ⟨mode, hmode, hstore, hnull, hjumpIfNull⟩ : ∃ mode : CompareMode,
      (if op.comparesNull then { nullEq := true } else { jumpIfNull }) = mode ∧
        mode.store = false ∧ mode.nullEq = op.comparesNull ∧
        (op.comparesNull = false → mode.jumpIfNull = jumpIfNull) := by
    cases op.comparesNull <;> exact ⟨_, rfl, rfl, rfl, by simp⟩
  rw [hmode] at hins
  obtain ⟨s1, hp1, hrun1⟩ := h1 hleft hc hids.left
  obtain ⟨s2, hp2, hrun2⟩ := h2 hright s1.good (hids.right s1)
  obtain ⟨s3, hb3, found, hfinds, hins⟩ := comparison_spec hins s2.good
  have hcomparing : ins.opcode ∈ comparing := by
    rw [hins]
    exact hcompares
  have hlabel : c3.Made label := Nat.lt_of_lt_of_le hl
    (Nat.le_trans s1.grows.labels_le (Nat.le_trans s2.grows.labels_le s3.grows.labels_le))
  obtain ⟨s4, e4⟩ := emitJump_spec hemit s3.good (ne_copy_of_comparing hcomparing) hlabel
  have hcontinues : Continues c3 c' := s4.continues.extend (by rw [e4.size]; omega) fun _ =>
    (release_extends hr1).trans (release_extends hr2) fun _ _ hf => hf
  refine ⟨(release_both s1 hp1 s2 hp2 (s3.trans s4) hr1 hr2).mono (by simp), fun w m ready => ?_⟩
  refine ready.bindBoth s1 hp1 (hrun1 w) s2 hp2 (hrun2 w) (s3.continues.trans hcontinues)
    (by simp +contextual) (by simp +contextual) fun a b ha hb m1 ready1 => ?_
  refine ready1.silent s3 hcontinues.grows (by rw [size, hb3, size]) fun ready2 => ?_
  obtain ⟨hvalue1, hvalue2⟩ := ready2.heldBoth
  have hjumps : ({ ins with p2 := w.addr label.index } : Instr).mode =
      { mode with affinity := left.expr.compareAffinity right.expr.affinity } := by
    rw [hins]
    exact CompareMode.ofBits_toBits _
  have horder := Env.order?_eq w.caseBlind hx hy (w.finds hfinds) hins m1
  rw [hvalue1, hvalue2, hnull] at horder
  have hstep := outcome_compare_jump (a := c3.size) (m := m1)
    (i := { ins with p2 := w.addr label.index }) hcomparing (by rw [hjumps]; exact hstore)
  refine ready2.emitBranch ((e4.of_builder (release_builder hr1)).of_builder
    (release_builder hr2)) (ne_copy_of_comparing hcomparing) hstep rfl
    (by rw [ha, hb]; rfl) ?_ trivial (.of_writes (.lastCompare m1 _) fun _ => False.elim)
  rw [show ({ ins with p2 := w.addr label.index } : Instr).order? m1 = ins.order? m1 from rfl, horder, hjumps]
  have hsome := Env.order?_isSome w.env x y a b
  cases horder' : w.env.order? x y op.comparesNull a b with
  | none =>
    have hfalse : op.comparesNull = false := by
      cases hc : op.comparesNull with
      | false => rfl
      | true =>
        rw [hc] at horder'
        rw [horder'] at hsome
        cases hsome
    simp only [Env.compare, horder', Option.map_none, takes, Option.elim_none, hjumpIfNull hfalse]
  | some o =>
    simp only [Env.compare, horder', Option.map_some, takes, Option.elim_some,
      show ins.opcode = opcode by rw [hins]; rfl, haccepts]

end ScalarSql
