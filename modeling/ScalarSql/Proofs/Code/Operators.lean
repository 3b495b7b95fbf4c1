import ScalarSql.Proofs.Code.Rows

/-!
# Operators

Code of unary and binary operators, CAST and COLLATE. AND, OR and NOT branch on their operands without
computing a value.
-/

namespace ScalarSql

open Coded Compiler ScalarSql.Expr Gen Instr Meaning

variable {σ : Scope} {K : Known} {ids ids1 ids2 : List Identity} {d : Reading} {e x : Expr}
  {operand left right : Coded} {μ ν : Meaning} {op : BinaryOp} {code : Code} {g g1 g2 : Label → Gen Unit}
  {d1 d2 : Env → Option Bool} {f : Value → Value}

/-! ## Branches in a row -/

theorem Jumps.ofFirst {d : Env → Option Bool} (h : Jumps σ K ids1 g d) (ids2 : List Identity) :
    Jumps σ K (ids1 ++ ids2) g d := by
  intro c c' l hmakes hc hl hids
  obtain ⟨s, hrun⟩ := h hmakes hc hl hids.left
  exact ⟨s.mono (by simp +contextual), hrun⟩

theorem Jumps.ofSecond {d : Env → Option Bool} (h : Jumps σ K ids2 g d) (ids1 : List Identity) :
    Jumps σ K (ids1 ++ ids2) g d := by
  intro c c' l hmakes hc hl hids
  obtain ⟨s, hrun⟩ := h hmakes hc hl hids.second
  exact ⟨s.mono (by simp +contextual), hrun⟩

section

variable (h1 : Jumps σ K ids1 g1 d1) (h2 : Jumps σ K ids2 g2 d2)

include h1 h2

/-- Two branches to one label: the second one counts if the first one is not taken. -/
theorem Jumps.either :
    Jumps σ K (ids1 ++ ids2) (fun l => do g1 l; g2 l) (fun env => do if ← d1 env then return true else d2 env) := by
  intro c c' l hmakes hc hl hids
  simp only [makes_bind] at hmakes
  obtain ⟨⟨⟩, c1, hfirst, hsecond⟩ := hmakes
  obtain ⟨s1, hrun1⟩ := h1 hfirst hc hl hids.left
  obtain ⟨s2, hrun2⟩ := h2 hsecond s1.good (s1.made hl) (hids.right s1)
  refine ⟨s1.trans s2, fun w m ready => ?_⟩
  refine ready.bindBranch s1 s2.continues (hrun1 w m) (fun _ hf => hf.elim) (fun hnone => by simp [hnone])
    (fun m1 ht _ => ?_) fun m1 ht _ ready1 => ?_
  · exact ⟨true, by simp [ht], rfl, trivial⟩
  · exact (hrun2 w m1 ready1).congr (by simp [ht])

/-- A branch that leads around the second one. -/
theorem Jumps.around : Jumps σ K (ids1 ++ ids2) (fun l => do
        let skip ← label
        g1 skip
        g2 l
        resolve skip) (fun env => do if ← d1 env then return false else d2 env) := by
  intro c c' l hmakes hc hl hids
  simp only [makes_bind] at hmakes
  obtain ⟨skip, c1, hlabel, ⟨⟩, c2, hfirst, ⟨⟩, c3, hsecond, hresolve⟩ := hmakes
  obtain ⟨s1, hnew⟩ := label_spec hlabel hc
  obtain ⟨s2, hrun2⟩ := h1 hfirst s1.good hnew.made (hids.step s1).left
  obtain ⟨s3, hrun3⟩ := h2 hsecond s2.good (s2.made (s1.made hl)) ((hids.step s1).right s2)
  obtain ⟨s4, hcontinues, hsize, hplace⟩ := hnew.resolve hresolve s1 (s2.trans s3)
  refine ⟨s4, fun w m ready => ?_⟩
  have hrest := s3.continues.trans hcontinues
  refine ready.silent s1 (s2.continues.trans hrest).grows hnew.size fun ready1 => ?_
  refine ready1.bindBranch s2 hrest (hrun2 w m) (fun _ hf => hf.elim) (fun hn => by simp [hn])
    (fun m1 ht _ => ?_) fun m1 ht _ ready2 => ?_
  · exact ⟨false, by simp [ht], hplace _ ready.settled, trivial⟩
  · exact (ready2.before s3 hcontinues.grows hcontinues.guarded hsize (hrun3 w)).congr (by simp [ht])

end

section

variable (hl : left.Realizes σ K μ) (hr : right.Realizes σ K ν) (wanted jumpIfNull : Bool)

include hl hr wanted jumpIfNull

theorem Jumps.and :
    Jumps σ K (left.expr.identities ++ right.expr.identities) (fun l => jumpAnd left right wanted l jumpIfNull)
      (jumpAnd μ ν wanted jumpIfNull) := by
  cases wanted with
  | true => exact .around (hl.branch false !jumpIfNull) (hr.branch true jumpIfNull)
  | false => exact .either (hl.branch false jumpIfNull) (hr.branch false jumpIfNull)

theorem Jumps.or :
    Jumps σ K (left.expr.identities ++ right.expr.identities) (fun l => jumpOr left right wanted l jumpIfNull)
      (jumpOr μ ν wanted jumpIfNull) := by
  cases wanted with
  | true => exact .either (hl.branch true jumpIfNull) (hr.branch true jumpIfNull)
  | false => exact .around (hl.branch true !jumpIfNull) (hr.branch false jumpIfNull)

end

/-! ## Binary operators -/

theorem Loads.binary (op : BinaryOp) (hl : left.Computes σ K μ) (hr : right.Computes σ K ν) :
    Loads σ K (left.expr.identities ++ right.expr.identities) (fun reg =>
        if !op.isComparison then Gen.arithmetic op.opcode left.toCode right.toCode reg
        else if left.expr.isVector || right.expr.isVector then storeRows op left right reg
        else storeComparison op left.toCode right.toCode reg) (binaryValue op μ ν) := by
  unfold binaryValue
  rw [← hl.alike.isVector, ← hr.alike.isVector]
  cases hop : op.isComparison with
  | false =>
    have hne : op.opcode ≠ .copy := by cases op <;> first | exact absurd hop (by decide) | decide
    exact .arithmetic hne (fun _ _ _ _ _ hr => step_arithmetic hop hr) hl.temp hr.temp
  | true =>
    cases hv : left.expr.isVector || right.expr.isVector with
    | true => exact .rows hop hl hr hv
    | false => exact .comparison hop hl.alike.toTypedAlike hr.alike.toTypedAlike hl.temp hr.temp

/-- AND and OR with a literal come down to the operand that the meaning comes down to. -/
theorem Jumps.reduced (hl : left.Realizes σ K μ) (hr : right.Realizes σ K ν) {jump : Bool → Label → Bool → Gen Unit}
    {jumps : Bool → Bool → Env → Option Bool}
    (hjump : ∀ wanted jumpIfNull, Jumps σ K (left.expr.identities ++ right.expr.identities)
      (fun l => jump wanted l jumpIfNull) (jumps wanted jumpIfNull)) (wanted jumpIfNull : Bool) :
    Jumps σ K (left.expr.identities ++ right.expr.identities)
      (fun l => (Coded.reduced? op left right).elim jump Coded.jump wanted l jumpIfNull)
      ((Meaning.reduced? op μ ν).elim jumps Meaning.jump wanted jumpIfNull) := by
  have hfirst := (hl.jump wanted jumpIfNull).ofFirst right.expr.identities
  have hsecond := (hr.jump wanted jumpIfNull).ofSecond left.expr.identities
  have hneither := hjump wanted jumpIfNull
  simp only [Coded.reduced?, Meaning.reduced?, hl.literal.alwaysTrue, hl.literal.alwaysFalse,
    hr.literal.alwaysTrue, hr.literal.alwaysFalse]
  generalize (μ.expr.isAlwaysTrue || ν.expr.isAlwaysFalse) = keepsSecond
  generalize (ν.expr.isAlwaysTrue || μ.expr.isAlwaysFalse) = keepsFirst
  cases op <;> cases keepsSecond <;> cases keepsFirst <;> assumption

theorem Jumps.compared (hl : left.Computes σ K μ) (hr : right.Computes σ K ν) {g : Gen (Int × Option Int)}
    (hlit : e.SameLiteral x) (htemp : Temps σ K (left.expr.identities ++ right.expr.identities) g (binaryValue op μ ν))
    (wanted jumpIfNull : Bool) : Jumps σ K (left.expr.identities ++ right.expr.identities)
      (fun l => (if op.isComparison && !(left.expr.isVector || right.expr.isVector) then
          jumpComparison op left.toCode right.toCode else jumpOnTruth e g) wanted l jumpIfNull)
      ((if op.isComparison && !(μ.expr.isVector || ν.expr.isVector) then jumpComparison op μ ν
        else Meaning.onTruth x (Meaning.binaryValue op μ ν)) wanted jumpIfNull) := by
  rw [← hl.alike.isVector, ← hr.alike.isVector]
  split
  · rename_i hcompares
    simp only [Bool.and_eq_true] at hcompares
    exact .comparison hcompares.1 hl.alike.toTypedAlike hr.alike.toTypedAlike hl.temp hr.temp wanted jumpIfNull
  · exact .onTruth hlit htemp wanted jumpIfNull

/-- Code of a binary operator. A comparison only needs the values of its operands. -/
theorem Coded.realizes_binary (he : e.Stands σ x (left.expr.identities ++ right.expr.identities) (binaryValue op μ ν))
    (hl : left.Computes σ K μ) (hr : right.Computes σ K ν)
    (hboth : op.isComparison ∨ left.Realizes σ K μ ∧ right.Realizes σ K ν) :
    (Coded.binary e op left right).Realizes σ K (Meaning.binary x op μ ν) := by
  have hcode : (binary e op left right).toCode.Realizes σ K (binaryValue op μ ν) := by
    have hload := Code.realizes_of he (.of_loads (Loads.binary op hl hr))
    refine Eq.mp (congrArg (fun body => (Code.of e body).Realizes σ K _) (funext fun reg => ?_)) hload
    cases op.isComparison <;> cases left.expr.isVector || right.expr.isVector <;> rfl
  have hjump (wanted jumpIfNull : Bool) : Jumps σ K (left.expr.identities ++ right.expr.identities)
      (fun l => (binary e op left right).jump wanted l jumpIfNull)
      (jumpBinary x op μ ν wanted jumpIfNull) := by
    have hcompared := Jumps.compared hl hr he.literal (he.identities ▸ hcode.temp) wanted jumpIfNull
    cases op
    case and =>
      obtain ⟨hleft, hright⟩ := hboth.resolve_left (by decide)
      exact .and hleft hright wanted jumpIfNull
    case or =>
      obtain ⟨hleft, hright⟩ := hboth.resolve_left (by decide)
      exact .or hleft hright wanted jumpIfNull
    all_goals exact hcompared
  have hbase := realizes_ofJump he hcode hjump
  refine ⟨hbase.alike, hbase.literal, hbase.value, hbase.nonempty, hbase.vector, hbase.fields,
    hbase.jump, fun wanted jumpIfNull => ?_⟩
  rw [show (binary e op left right).expr = e from rfl, he.identities]
  refine Jumps.checked (e := e) ?_
  rcases hboth with hop | ⟨hleft, hright⟩
  · have hnone := hjump wanted jumpIfNull
    cases op <;> first
      | exact absurd hop (by decide)
      | exact hnone
  · exact .reduced hleft hright hjump wanted jumpIfNull

theorem Coded.realizes_compared (hl : left.Computes σ K μ) (hr : right.Computes σ K ν)
    (hboth : op.isComparison ∨ left.Realizes σ K μ ∧ right.Realizes σ K ν)
    (hvaries : left.expr.isConstant .notJoin = false) :
    (Coded.compared op left right).Realizes σ K (Meaning.compared op μ ν) := by
  have hflags : (infoOf (.binary op left.expr right.expr)).flags.collate =
      (infoOf (.binary op μ.expr ν.expr)).flags.collate := by
    rw [collate_infoOf, collate_infoOf]
    simp [Kind.ownFlags, hl.alike.collate, hr.alike.collate]
  refine realizes_binary ⟨alike_binary hflags hl.alike hr.alike, ⟨?_, ?_⟩, rfl, rfl, rfl, ?_⟩ hl hr hboth
  · simp [ofKind, isAlwaysTrue]
  · simp [ofKind, isAlwaysFalse]
  · intro hconst
    have hleft := children_constant hconst left.expr (by simp [ofKind])
    rw [hvaries] at hleft
    cases hleft

/-! ## Unary operators -/

theorem Loads.applied {g : Gen (Int × Option Int)} (h : Temps σ K ids g d) {i : Int → Int → Instr}
    (hop : ∀ s r, (i s r).opcode ≠ .copy)
    (hstep : ∀ s r a m, 0 ≤ r → (i s r).Sets a m r (f (m.register s))) :
    Loads σ K ids (fun reg => do
      let p ← g
      emit (i p.1 reg)
      release p.2) fun env => (d env).map f := by
  intro c c' reg hmakes hc hreg hids
  simp only [makes_bind] at hmakes
  obtain ⟨p, c1, hg, ⟨⟩, c2, hemit, hrelease⟩ := hmakes
  obtain ⟨s1, hp, hrun⟩ := h hg hc hids
  obtain ⟨s2, e2⟩ := emit_spec hemit s1.good (hop p.1 reg)
  refine ⟨release_step ((s1.trans s2).mono (by simp)) (hp.lends.trans s2) hrelease, fun w havoid m ready => ?_⟩
  have hcontinues : Continues c1 c' := s2.continues.extend (by rw [e2.size]; omega) fun _ =>
    release_extends hrelease
  refine ready.bindTemp s1 hcontinues hp (hrun w) (fun hn => by simp [hn]) fun v hv m1 ready1 => ?_
  have hvalue := (ready1.held _ List.mem_cons_self).2.2
  have hpos : 0 ≤ reg := hreg.nonneg
  refine ready1.emitSet (e2.of_builder (release_builder hrelease)) (hop p.1 reg) hpos (hstep p.1 reg c1.size m1 hpos) ?_
  rw [hv, hvalue]
  rfl

theorem Loads.operation {opcode : Opcode} (hop : opcode ≠ .copy)
    (hstep : ∀ s r a m, 0 ≤ r → (of opcode s r).Sets a m r (f (m.register s))) (h : Temps σ K ids code.temp d) :
    Loads σ K ids (Coded.applied opcode code) fun env => (d env).map f :=
  .applied (i := fun s r => .of opcode s r) h (fun _ _ => hop) hstep

theorem Loads.truthTest (test : TruthTest) (h : Temps σ K ids code.temp d) :
    Loads σ K ids (truthTest test code) fun env => (d env).map fun v => .ofBool (test.holds v.truth) := by
  have happlied := Loads.applied (f := fun v => .ofBool (test.holds v.truth)) h
    (i := fun s r => .of .isTrue s r (if test.forTrue then 0 else 1)
      (.int (if test.forTrue = test.negated then 1 else 0)))
    (fun _ _ => by simp) fun s r a m hr => ?_
  · exact happlied
  · rw [Instr.Sets, step_isTrue hr]
    obtain ⟨forTrue, negated⟩ := test
    cases (m.register s).truth with
    | none => cases forTrue <;> cases negated <;> rfl
    | some b => cases b <;> cases forTrue <;> cases negated <;> rfl

theorem Code.realizes_zero : (Code.of (ofKind (.integer (.inline 0))) fun r => do
      emit (.of .integer 0 r)
      return r).Realizes σ K fun _ => some (.integer 0) := by
  have hplain : (ofKind (.integer (.inline 0))).Plain σ :=
    .node ⟨⟨rfl, trivial⟩, σ.zero, nofun⟩ (by simp)
  have hstands : (ofKind (.integer (.inline 0))).Stands σ (ofKind (.integer (.inline 0))) []
      fun _ => some (.integer 0) :=
    ⟨.refl _, ⟨rfl, rfl⟩, rfl, rfl, rfl, fun _ => ⟨hplain, rfl⟩⟩
  exact Code.realizes_of hstands (.of_loads (.inline 0))

theorem Loads.fromZero (h : Temps σ K ids code.temp d) :
    Loads σ K ids (Gen.arithmetic .subtract (.of (.ofKind (.integer (.inline 0))) fun r => do
      Gen.emit (.of .integer 0 r)
      return r) code) fun env => (d env).map (Value.subtract (.integer 0)) := by
  have hsubtract := Loads.arithmetic (f := Value.subtract) (by decide)
    (fun _ _ _ _ _ hr => Instr.step_subtract hr) (Code.realizes_zero (σ := σ) (K := K)).temp h
  have hmeans : (fun env => (d env).map (Value.subtract (.integer 0))) = fun env => (do
      return Value.subtract (← some (.integer 0)) (← d env)) := by
    funext env
    cases d env <;> rfl
  rw [hmeans]
  exact hsubtract

/-- A literal is negated when its code is written, any other value by subtraction from zero. -/
theorem Loads.negated (h : operand.Realizes σ K μ) (hexpr : operand.expr = μ.expr) :
    Loads σ K operand.expr.identities (negated operand) (negatedValue μ) := by
  unfold Coded.negated Meaning.negatedValue
  rw [← hexpr]
  cases operand.expr.kind with
  | integer literal =>
    cases literal with
    | inline v => exact .inline _
    | text t => exact .integer t true
  | float t => exact .real t true
  | _ => exact .fromZero h.value.temp

theorem Gen.skip_spec {c c1 c2 c3 : Compiler} {i j : Instr} {a : Int}
    (hfirst : (emitAt i).Makes c a c1) (hsecond : (emit j).Makes c1 () c2)
    (hskip : (jumpHere a).Makes c2 () c3) (hc : c.Good σ) (hi : i.opcode ≠ .copy) (hj : j.opcode ≠ .copy) :
    ∃ c', Step σ [] c c' ∧ Emits c c' (fun _ => { i with p2 := c.size + 2 }) ∧ Step σ [] c' c3 ∧
      Emits c' c3 fun _ => j := by
  obtain ⟨rfl, rfl⟩ := makes_emitAt.1 hfirst
  obtain rfl := makes_emit.1 hsecond
  obtain ⟨c', hjump⟩ : ∃ c', (emit { i with p2 := c.size + 2 }).Makes c () c' := ⟨_, makes_emit.2 rfl⟩
  have hnext : (emit j).Makes c' () c3 := makes_emit.2 <| by
    rw [makes_jumpHere.1 hskip, Builder.emit_emit_jumpHere, makes_emit.1 hjump]
    rfl
  obtain ⟨s1, e1⟩ := emit_spec hjump hc hi
  obtain ⟨s2, e2⟩ := emit_spec hnext s1.good hj
  exact ⟨c', s1, e1, s2, e2⟩

theorem Instr.step_nullTest {l : Int} {a : Nat} {m : Machine} (ifNull : Bool) (r : Int) :
    (({ of (if ifNull then .isNull else .notNull) r with p2 := l } : Instr).step a).outcome m =
      (.ok (.jumpIf ((m.register r).isNull == ifNull)), m) := by
  cases ifNull
  · rw [step_notNull rfl]
    simp
  · rw [step_isNull rfl]
    simp

theorem Loads.nullTest (ifNull : Bool) (h : Temps σ K ids code.temp d) :
    Loads σ K ids (nullTest ifNull code) fun env => (d env).map fun v => .ofBool (v.isNull == ifNull) := by
  intro c c' reg hmakes hc hreg hids
  simp only [Coded.nullTest, makes_bind] at hmakes
  obtain ⟨⟨⟩, c1, hone, p, c2, hg, a, c3, hfirst, ⟨⟩, c4, hsecond, ⟨⟩, c5, hskip, hrelease⟩ := hmakes
  have hload : Loads σ K [] _ _ := .inline 1
  obtain ⟨s1, hrun1⟩ := hload hone hc hreg (.nil c)
  obtain ⟨s2, hp, hrun2⟩ := h hg s1.good (hids.step s1)
  obtain ⟨c6, s3, e3, s4, e4⟩ := skip_spec hfirst hsecond hskip s2.good (by cases ifNull <;> simp) (by simp)
  have hpos : 0 ≤ reg := hreg.nonneg
  have hstep2 : Step σ ids c1 c' :=
    release_step ((s2.trans (s3.trans s4)).mono (by simp)) (hp.lends.trans (s3.trans s4)) hrelease
  have hcontinues : Continues c2 c' := (s3.trans s4).continues.extend (by rw [e4.size, e3.size]; omega)
    fun _ => release_extends hrelease
  refine ⟨(s1.trans hstep2).mono (by simp), fun w havoid m ready => ?_⟩
  refine ready.bindValue s1 hstep2.continues (hrun1 w havoid) havoid.only (s1.not_free hreg.taken)
    havoid.lent (by simp) fun u hu m1 ready1 => ?_
  cases hu
  refine ready1.bindTemp s2 hcontinues (hp.mono fun _ => List.mem_cons_of_mem _)
    ((hrun2 w).hold fun _ => List.mem_cons_of_mem _) (by simp +contextual) fun v hv m2 ready2 => ?_
  have hvalue := (ready2.held _ List.mem_cons_self).2.2
  have hset := (ready2.held _ (List.mem_cons_of_mem _ List.mem_cons_self)).2.2
  have hop3 := ready2.emitted e3 (Nat.le_refl _)
    (s4.grows.trans (release_extends hrelease) fun _ _ hf => hf) (by cases ifNull <;> simp)
  have hop4 := ready2.emitted_last (e4.of_builder (release_builder hrelease)) (by rw [e3.size]; omega) (by simp)
  have hsize : c'.size = c2.size + 2 := by
    rw [(e4.of_builder (release_builder hrelease)).size, e3.size]
  have htest := step_nullTest (l := c2.size + 2) (a := c2.size) (m := m2) ifNull p.1
  rw [hvalue] at htest
  refine Leads.branch hop3 htest (k := 1) (by omega) ?_
  cases ht : v.isNull == ifNull with
  | true =>
    refine .done ⟨⟨.ofBool true, ?_, ?_, hset⟩, .refl w _ _ _ m2⟩
    · simp [hv, ht]
    · simp only [if_true, World.place, Option.elim_none, hsize]
      omega
  | false =>
    refine .next (k := 0) (by simpa [e3.size] using hop4) (step_addImm (-1) hpos) (by omega) ?_
    refine .done ⟨⟨.ofBool false, ?_, ?_, ?_⟩, ?_⟩
    · simp [hv, ht]
    · simp [World.place, hsize]
    · have hzero : (Value.integer (Int64.ofInt 1)).asInteger + Int64.ofInt (-1) = 0 := by decide
      rw [hset, hzero]
      exact Machine.register_setRegister_self m2 hpos _
    · exact .of_writes (.setRegister _ hpos _) fun _ => .inl

theorem Jumps.onNull (ifNull : Bool) (h : Temps σ K ids code.temp d) :
    Jumps σ K ids (jumpOnNull code ifNull) fun env => (d env).map fun v => v.isNull == ifNull :=
  .ofTest h (i := fun r => .of (if ifNull then .isNull else .notNull) r)
    (fun r => by cases ifNull <;> simp) fun r _ _ _ => step_nullTest ifNull r

theorem Targets.unary (op : UnaryOp) (h : operand.Realizes σ K μ) (hexpr : operand.expr = μ.expr) :
    Targets σ K operand.expr.identities (fun reg =>
      let stored (step : Gen Unit) : Gen Int := do
        step
        return reg
      match op with
      | .positive => operand.target reg
      | .negate => stored (negated operand reg)
      | .not => stored (applied .not operand.toCode reg)
      | .bitNot => stored (applied .bitNot operand.toCode reg)
      | .isNull => stored (nullTest true operand.toCode reg)
      | .notNull => stored (nullTest false operand.toCode reg)
      | .isTrue => stored (truthTest ⟨true, false⟩ operand.toCode reg)
      | .isNotTrue => stored (truthTest ⟨true, true⟩ operand.toCode reg)
      | .isFalse => stored (truthTest ⟨false, false⟩ operand.toCode reg)
      | .isNotFalse => stored (truthTest ⟨false, true⟩ operand.toCode reg))
      (unaryValue op μ) := by
  have hisNull := Loads.nullTest true h.value.temp
  have hnotNull := Loads.nullTest false h.value.temp
  simp only [beq_true, beq_false] at hisNull hnotNull
  cases op with
  | positive => exact h.value.target
  | negate => exact .of_loads (.negated h hexpr)
  | not => exact .of_loads (.operation (by decide) (fun _ _ _ _ => step_not) h.value.temp)
  | bitNot => exact .of_loads (.operation (by decide) (fun _ _ _ _ => step_bitNot) h.value.temp)
  | isNull => exact .of_loads hisNull
  | notNull => exact .of_loads hnotNull
  | isTrue | isNotTrue | isFalse | isNotFalse => exact .of_loads (.truthTest _ h.value.temp)

theorem Coded.realizes_unary {op : UnaryOp} (he : e.Stands σ x operand.expr.identities (unaryValue op μ))
    (h : operand.Realizes σ K μ) (hexpr : operand.expr = μ.expr) :
    (Coded.unary e op operand).Realizes σ K (Meaning.unary x op μ) := by
  have hcode := Code.realizes_of he (.unary op h hexpr)
  refine realizes_ofJump he hcode fun wanted jumpIfNull => ?_
  have htruth := Jumps.onTruth he.literal (he.identities ▸ hcode.temp) wanted jumpIfNull
  cases op
  case not => exact h.branch _ _
  case isNull => exact .onNull wanted h.value.temp
  case notNull => exact .onNull (!wanted) h.value.temp
  case isTrue => exact h.branch _ _
  case isNotTrue => exact h.branch _ _
  case isFalse => exact h.branch _ _
  case isNotFalse => exact h.branch _ _
  all_goals exact htruth

/-! ## CAST and COLLATE -/

theorem Coded.realizes_cast {type : String} (he : e.Stands σ x operand.expr.identities
      fun env => (μ.value env).map (Value.cast (Affinity.ofType type)))
    (h : operand.Realizes σ K μ) : (cast e operand type).Realizes σ K (.cast x μ type) := by
  have hthen := (Loads.of_targets (.inl rfl) h.value.target).andThen
    (i := fun r => .of .cast r (Affinity.ofType type).code.toNat)
    (f := Value.cast (Affinity.ofType type)) (fun _ => by simp) fun r a m hr =>
      ⟨_, step_cast _ hr, .setRegister m hr _, Machine.register_setRegister_self m hr _⟩
  refine Eq.mp (congrArg (fun body => (load e body).Realizes σ K _) (funext fun reg => ?_)) (realizes_load he hthen)
  simp only [bind_assoc]
  refine bind_congr fun found => ?_
  split <;> simp

theorem Coded.realizes_collate (he : e.Stands σ x operand.expr.identities μ.value)
    (h : operand.Realizes σ K μ) : (collate e operand).Realizes σ K (.collate x μ) := by
  have htarget := h.value.target
  have htemp := h.value.temp
  rw [← he.identities] at htarget htemp
  exact realizes_ofCode he ⟨he.constant, htarget.checked, htemp⟩

end ScalarSql
