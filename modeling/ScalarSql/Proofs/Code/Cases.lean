import ScalarSql.Proofs.Code.Operators

/-!
# BETWEEN and CASE

Both compute an operand once and compare it several times: its values stay in registers, and what is
compared is a node that stands for these registers. The arms of CASE are tried in turn; each of them
either leaves at its end for the next one, or stores its result and goes to a label behind the last.
-/

namespace ScalarSql

open Coded Compiler ScalarSql.Expr Gen Meaning

variable {σ : Scope} {K : Known} {ids ids1 ids2 : List Identity} {e x : Expr}
  {operand low high left right : Coded} {μ ν ρ : Meaning} {values : List Value} {c : Compiler} {reg : Int}
  {w : World σ} {T : Int → Prop} {c1 c' : Compiler} {test : Label → Gen Unit} {done : Label} {d1 : Env → Option Bool}
  {store : Int → Gen Unit} {meanings : List (Meaning × Meaning)}

/-! ## Using rows -/

theorem Coded.Realizes.row_length (h : operand.Realizes σ K μ) {env : Env} (hvalues : μ.row env = some values) :
    values.length = operand.expr.vectorSize := by
  unfold Meaning.row at hvalues
  rw [← h.alike.size] at hvalues
  split at hvalues
  · rename_i hone
    obtain ⟨v, -, rfl⟩ := Option.map_eq_some_iff.1 hvalues
    rw [hone]
    rfl
  · rename_i hmany
    have hv : operand.expr.isVector := by
      have := h.nonempty
      simp only [isVector, decide_eq_true_eq]
      omega
    obtain ⟨info, items, he, hfields⟩ := h.vector hv
    rw [length_of_mapM hvalues, ← h.fields.length_eq, he, vectorSize]
    simpa using congrArg List.length hfields

/-- The first piece computes values into registers in a row, which the second one may use. -/
theorem Ready.bindRow {α : Type} {c2 : Compiler} {m : Machine} {d1 : Env → Option (List Value)} {d : Env → Option α}
    {goes : α → Option Label} {holds : α → Machine → Prop} (h : Ready w K c c2 m) (s1 : Step σ ids c c1)
    (k : Continues c1 c2) (h1 : Runs w K nowhere c c1 d1 (fun _ => none) (Filled reg))
    (hstays : ∀ values, d1 w.env = some values → ∀ i : Nat, i < values.length → w.Stays K c c1 (reg + i))
    (hnone : d1 w.env = none → d w.env = none) (hnext : ∀ values, d1 w.env = some values →
      Runs w (rowEntries reg values ++ K) T c1 c2 d goes holds) : RunsFrom w T c c2 d goes holds m := by
  refine h.bind s1 k (h1 m) (fun _ hf => hf.elim) hnone (fun _ _ _ _ hg => by cases hg)
    fun values m1 hvalues _ hfilled ready1 => ?_
  refine hnext values hvalues m1 (ready1.holdRow hfilled fun i hi => ?_)
  obtain ⟨hfree, hlent, -⟩ := hstays values hvalues i hi
  exact ⟨hfree, hlent⟩

theorem World.Avoids.row {t : Int} (h : w.Avoids K t) (ht : ¬ c.Free t)
    (hstays : ∀ i : Nat, i < values.length → w.Stays K c c1 (reg + i)) : w.Avoids (rowEntries reg values ++ K) t := by
  refine ⟨h.constant, h.lent, List.forall_mem_append.2 ⟨fun p hp => ?_, h.held⟩⟩
  obtain ⟨i, hi, hreg⟩ := mem_rowEntries.1 hp
  rw [hreg]
  exact (hstays i (List.getElem?_eq_some_iff.1 hi).1).2.2 t ht h

/-! ## BETWEEN -/

/-- The two comparisons of BETWEEN with an operand in registers. -/
def Coded.conjunction (operand low high : Coded) (reg : Int) : Coded :=
  compared .and (compared .ge (operand.held reg) low) (compared .le (operand.held reg) high)

theorem Expr.isConstant_register (reg : Int) (e : Expr) : (ofKind (.register reg e)).isConstant .notJoin = false := rfl

theorem Coded.isConstant_compared_held (op : BinaryOp) (reg : Int) :
    (compared op (operand.held reg) low).expr.isConstant .notJoin = false := by
  cases hconst : (compared op (operand.held reg) low).expr.isConstant .notJoin with
  | false => rfl
  | true =>
    have hleft := children_constant hconst (operand.held reg).expr
      (show _ ∈ [(operand.held reg).expr, low.expr] from List.mem_cons_self)
    cases hleft

section

variable (h : operand.Realizes σ K μ)

include h

theorem Coded.computes_row (hlen : values.length = operand.expr.vectorSize) (reg : Int) :
    (operand.held reg).Computes σ (rowEntries reg values ++ K) (Meaning.held μ.expr values) := by
  refine computes_held h.alike hlen ?_ fun i v hv => List.mem_append_left _ (mem_rowEntries.2 ⟨i, hv, rfl⟩)
  rintro rfl
  exact h.nonempty hlen.symm

theorem Coded.realizes_compared_row (hl : low.Realizes σ K ν)
    (hlen : values.length = operand.expr.vectorSize) (reg : Int) {op : BinaryOp} (hop : op.isComparison) :
    (compared op (operand.held reg) low).Realizes σ (rowEntries reg values ++ K)
      (Meaning.compared op (Meaning.held μ.expr values) ν) :=
  realizes_compared (computes_row h hlen reg) (hl.hold fun _ => List.mem_append_right _).computes
    (.inl hop) (isConstant_register _ _)

theorem Coded.realizes_conjunction (hl : low.Realizes σ K ν) (hh : high.Realizes σ K ρ)
    (hlen : values.length = operand.expr.vectorSize) (reg : Int) :
    (conjunction operand low high reg).Realizes σ (rowEntries reg values ++ K) (Meaning.conjunction μ ν ρ values) := by
  have hge := realizes_compared_row h hl hlen reg (show BinaryOp.ge.isComparison from rfl)
  have hle := realizes_compared_row h hh hlen reg (show BinaryOp.le.isComparison from rfl)
  exact realizes_compared hge.computes hle.computes (.inr ⟨hge, hle⟩) (isConstant_compared_held .ge reg)

end

/-! ## How code ends -/

section

variable {c c' : Compiler} {d d1 d2 : Reading} {reg : Int} {wanted jumpIfNull : Bool} {l : Label}
  {op : BinaryOp}

theorem Gen.arithmetic_closes {opcode : Opcode} {left right : Code} (hop : opcode ≠ .copy)
    (h1 : Temps σ K ids1 left.temp d1) (h2 : Temps σ K ids2 right.temp d2)
    (hmakes : (arithmetic opcode left right reg).Makes c () c') (hc : c.Good σ)
    (hids : Unused (ids1 ++ ids2) c) : Closes c c' := by
  simp only [arithmetic, makes_bind] at hmakes
  obtain ⟨p₁, c1, hleft, p₂, c2, hright, ⟨⟩, c3, hemit, ⟨⟩, c4, hr1, hr2⟩ := hmakes
  obtain ⟨s1, -⟩ := h1 hleft hc hids.left
  obtain ⟨s2, -⟩ := h2 hright s1.good (hids.right s1)
  exact ((emit_closes hemit hop).after (s1.trans s2).size_le).of_builder
    ((release_builder hr2).trans (release_builder hr1))

theorem Gen.jumpComparison_closes (hop : op.isComparison) {left right : Code} (h1 : Temps σ K ids1 left.temp d1)
    (h2 : Temps σ K ids2 right.temp d2) (hmakes : (jumpComparison op left right wanted l jumpIfNull).Makes c () c')
    (hc : c.Good σ) (hids : Unused (ids1 ++ ids2) c) : Closes c c' := by
  simp only [jumpComparison, makes_bind] at hmakes
  obtain ⟨p₁, c1, hleft, p₂, c2, hright, ins, c3, hins, ⟨⟩, c4, hemit, ⟨⟩, c5, hr1, hr2⟩ := hmakes
  obtain ⟨s1, -⟩ := h1 hleft hc hids.left
  obtain ⟨s2, -⟩ := h2 hright s1.good (hids.right s1)
  obtain ⟨s3, -, found, -, rfl⟩ := comparison_spec hins s2.good
  refine ((emitJump_closes hemit (Instr.ne_copy_of_comparing ?_)).after
    (s1.trans (s2.trans s3)).size_le).of_builder ((release_builder hr2).trans (release_builder hr1))
  cases wanted
  · exact Instr.negated_comparing hop
  · exact Instr.opcode_comparing hop

theorem Gen.jumpOnTruth_closes {g : Gen (Int × Option Int)} (h : Temps σ K ids g d) (htrue : e.isAlwaysTrue = false)
    (hfalse : e.isAlwaysFalse = false) (hmakes : (jumpOnTruth e g wanted l jumpIfNull).Makes c () c')
    (hc : c.Good σ) (hids : Unused ids c) : Closes c c' := by
  simp only [jumpOnTruth, htrue, hfalse, ite_self, Bool.false_eq_true, if_false, Bool.not_false,
    if_true, makes_bind] at hmakes
  obtain ⟨p, c1, hg, ⟨⟩, c2, hemit, hrelease⟩ := hmakes
  obtain ⟨s1, -⟩ := h hg hc hids
  refine ((emitJump_closes hemit ?_).after s1.size_le).of_builder (release_builder hrelease)
  cases wanted <;> simp

theorem Expr.isAlwaysTrue_binary (op : BinaryOp) (x y : Expr) : (ofKind (.binary op x y)).isAlwaysTrue = false := by
  simp [ofKind, isAlwaysTrue]

theorem Expr.isAlwaysFalse_binary (op : BinaryOp) (x y : Expr) : (ofKind (.binary op x y)).isAlwaysFalse = false := by
  simp [ofKind, isAlwaysFalse]

theorem Coded.branch_compared_closes (hop : op.isComparison) (hl : left.Computes σ K μ)
    (hr : right.Computes σ K ν) (h : (compared op left right).Realizes σ K ρ)
    (hmakes : ((compared op left right).branch wanted l jumpIfNull).Makes c () c') (hc : c.Good σ)
    (hids : Unused (left.expr.identities ++ right.expr.identities) c) : Closes c c' := by
  have hbranch : (compared op left right).branch wanted l jumpIfNull = (do
      checkHeight (compared op left right).expr
      (if op.isComparison && !(left.expr.isVector || right.expr.isVector) then
          jumpComparison op left.toCode right.toCode
        else jumpOnTruth (compared op left right).expr (compared op left right).temp) wanted l jumpIfNull) := by
    cases op <;> first
      | exact absurd hop (by decide)
      | rfl
  rw [hbranch] at hmakes
  simp only [makes_bind] at hmakes
  obtain ⟨_, _, hcheck, hmakes⟩ := hmakes
  cases makes_checkHeight hcheck
  split at hmakes
  · exact jumpComparison_closes hop hl.temp hr.temp hmakes hc hids
  · exact jumpOnTruth_closes h.value.temp (isAlwaysTrue_binary _ _ _) (isAlwaysFalse_binary _ _ _) hmakes hc hids

theorem Coded.exact_conjunction_closes {t : Int} (hge : (compared .ge (operand.held reg) low).Realizes σ K μ)
    (hle : (compared .le (operand.held reg) high).Realizes σ K ν)
    (hmakes : ((conjunction operand low high reg).exact t).Makes c () c') (hc : c.Good σ)
    (hids : Unused (low.expr.identities ++ high.expr.identities) c) : Closes c c' := by
  have htarget : (conjunction operand low high reg).target t = (do
      checkHeight (conjunction operand low high reg).expr
      arithmetic .and (compared .ge (operand.held reg) low).toCode (compared .le (operand.held reg) high).toCode t
      return t) := rfl
  simp only [Code.exact, htarget, makes_bind, makes_pure] at hmakes
  obtain ⟨_, _, ⟨_, _, hcheck, _, c1, hboth, rfl, rfl⟩, hmakes⟩ := hmakes
  cases makes_checkHeight hcheck
  simp only [ne_eq, not_true_eq_false, if_false, makes_pure, true_and] at hmakes
  subst hmakes
  exact arithmetic_closes (by decide) hge.value.temp hle.value.temp hboth hc hids

theorem Coded.branch_conjunction_closes (hheld : (operand.held reg).Computes σ K μ) (hhigh : high.Computes σ K ν)
    (hge : (compared .ge (operand.held reg) low).Realizes σ K ρ) {τ : Meaning}
    (hle : (compared .le (operand.held reg) high).Realizes σ K τ)
    (hmakes : ((conjunction operand low high reg).branch wanted l jumpIfNull).Makes c () c') (hc : c.Good σ)
    (hl : c.Made l) (hids : Gen.Unused (low.expr.identities ++ high.expr.identities) c) : Closes c c' := by
  have hbranch : (conjunction operand low high reg).branch wanted l jumpIfNull = (do
      Gen.checkHeight (conjunction operand low high reg).expr
      Gen.jumpAnd (compared .ge (operand.held reg) low) (compared .le (operand.held reg) high) wanted
        l jumpIfNull) := by
    have hnone : reduced? .and (compared .ge (operand.held reg) low) (compared .le (operand.held reg) high) = none := by
      have htrue (op : BinaryOp) (x : Coded) : (compared op (operand.held reg) x).expr.isAlwaysTrue = false :=
        Expr.isAlwaysTrue_binary _ _ _
      have hfalse (op : BinaryOp) (x : Coded) : (compared op (operand.held reg) x).expr.isAlwaysFalse = false :=
        Expr.isAlwaysFalse_binary _ _ _
      simp [reduced?, htrue, hfalse]
    simp only [conjunction, compared, binary] at hnone ⊢
    rfl
  rw [hbranch] at hmakes
  simp only [makes_bind] at hmakes
  obtain ⟨_, _, hcheck, hmakes⟩ := hmakes
  cases makes_checkHeight hcheck
  cases wanted with
  | true =>
    simp only [Gen.jumpAnd, if_true, makes_bind] at hmakes
    obtain ⟨skip, c1, hlabel, ⟨⟩, c2, hfirst, ⟨⟩, c3, hsecond, hresolve⟩ := hmakes
    obtain ⟨s1, hnew⟩ := label_spec hlabel hc
    obtain ⟨s2, -⟩ := hge.branch _ _ hfirst s1.good hnew.made (hids.step s1).left
    have hcloses := branch_compared_closes (by decide) hheld hhigh hle hsecond s2.good ((hids.step s1).right s2)
    exact resolve_closes hresolve (hcloses.after (s1.trans s2).size_le)
  | false =>
    simp only [Gen.jumpAnd, Bool.false_eq_true, if_false, makes_bind] at hmakes
    obtain ⟨⟨⟩, c1, hfirst, hsecond⟩ := hmakes
    obtain ⟨s1, -⟩ := hge.branch _ _ hfirst hc hl hids.left
    exact (branch_compared_closes (by decide) hheld hhigh hle hsecond s1.good (hids.right s1)).after s1.size_le

/-- Values are computed into registers in a row, used, and released. -/
theorem Ready.overRow {α : Type} {w : World σ} {T : Int → Prop} {c1 c2 : Compiler} {m : Machine} {free : Option Int}
    {dRow : Env → Option (List Value)} {d : Env → Option α} {goes : α → Option Label} {holds : α → Machine → Prop}
    (h : Ready w K c c' m) (s1 : Step σ ids1 c c1) (s2 : Step σ ids2 c1 c2) (hcloses : Closes c1 c2)
    (hrelease : (release free).Makes c2 () c') (h1 : Runs w K nowhere c c1 dRow (fun _ => none) (Filled reg))
    (hstays : ∀ values, Extends (fun _ => True) (fun _ => True) c1 c' → dRow w.env = some values →
      ∀ i : Nat, i < values.length → w.Stays K c c1 (reg + i)) (hnone : dRow w.env = none → d w.env = none)
    (hnext : ∀ values, dRow w.env = some values → (∀ i : Nat, i < values.length → w.Stays K c c1 (reg + i)) →
      Runs w (rowEntries reg values ++ K) T c1 c2 d goes holds) : RunsFrom w T c c' d goes holds m := by
  have hstays (values : List Value) := hstays values (s2.grows.trans (release_extends hrelease) fun _ _ hf => hf).weaken
  refine h.bindRow s1 (s2.continues.extend hcloses.lt fun _ => release_extends hrelease) h1 hstays
    hnone fun values hvalues m1 ready1 => ?_
  refine ready1.before s2 (release_extends hrelease) (.inr (.inl hcloses.isSealed)) ?_
    (hnext values hvalues (hstays values hvalues))
  rw [size, release_builder hrelease, size]

end

section

variable (h : operand.Realizes σ K μ) (hl : low.Realizes σ K ν) (hh : high.Realizes σ K ρ)

include h hl hh

theorem Loads.between :
    Loads σ K (operand.expr.identities ++ (low.expr.identities ++ high.expr.identities)) (fun reg => do
        let p ← Coded.asConjunction operand low high
        p.1.exact reg
        Gen.release p.2)
      (fun env => do (Meaning.conjunction μ ν ρ (← μ.row env)).value env) := by
  intro c c' reg hmakes hc hreg hids
  simp only [Coded.asConjunction, makes_bind, makes_pure] at hmakes
  obtain ⟨_, _, ⟨p, c1, hrow, rfl, rfl⟩, ⟨⟩, c2, hexact, hrelease⟩ := hmakes
  obtain ⟨s1, hlends, hrun1⟩ := h.row hrow hc hids.left
  have hreal (values : List Value) (hlen : values.length = operand.expr.vectorSize) :=
    (Coded.realizes_conjunction h hl hh hlen p.1).value.exact hexact s1.good (hreg.step s1) (hids.right s1)
  have hsome := List.length_replicate (n := operand.expr.vectorSize) (a := Value.null)
  obtain ⟨s2, -⟩ := hreal _ hsome
  have hcloses := Coded.exact_conjunction_closes
    (Coded.realizes_compared_row h hl hsome p.1 rfl) (Coded.realizes_compared_row h hh hsome p.1 rfl)
    hexact s1.good (hids.right s1)
  refine ⟨release_step (s1.trans s2) (hlends.trans s2) hrelease, fun w havoid m ready => ?_⟩
  refine ready.overRow s1 s2 hcloses hrelease (hrun1 w).1 (fun values => (hrun1 w).2 c' m values ready)
    (fun hnone => by simp [hnone]) fun values hvalues hstays m1 ready1 => ?_
  have hbody := (hreal values (h.row_length hvalues)).2 w (havoid.row hreg.taken hstays) m1 ready1
  exact hbody.congr (by simp [hvalues])

theorem Jumps.between (wanted jumpIfNull : Bool) :
    Jumps σ K (operand.expr.identities ++ (low.expr.identities ++ high.expr.identities)) (fun l => do
        let p ← Coded.asConjunction operand low high
        p.1.branch wanted l jumpIfNull
        Gen.release p.2)
      (fun env => do (Meaning.conjunction μ ν ρ (← μ.row env)).branch wanted jumpIfNull env) := by
  intro c c' l hmakes hc hlabel hids
  simp only [Coded.asConjunction, makes_bind, makes_pure] at hmakes
  obtain ⟨_, _, ⟨p, c1, hrow, rfl, rfl⟩, ⟨⟩, c2, hbranch, hrelease⟩ := hmakes
  obtain ⟨s1, hlends, hrun1⟩ := h.row hrow hc hids.left
  have hlabel1 : c1.Made l := s1.made hlabel
  have hreal (values : List Value) (hlen : values.length = operand.expr.vectorSize) :=
    (Coded.realizes_conjunction h hl hh hlen p.1).branch wanted jumpIfNull hbranch s1.good hlabel1 (hids.right s1)
  have hsome := List.length_replicate (n := operand.expr.vectorSize) (a := Value.null)
  obtain ⟨s2, -⟩ := hreal _ hsome
  have hcloses := Coded.branch_conjunction_closes (Coded.computes_row h hsome p.1)
    (hh.hold fun _ => List.mem_append_right _).computes
    (Coded.realizes_compared_row h hl hsome p.1 rfl) (Coded.realizes_compared_row h hh hsome p.1 rfl)
    hbranch s1.good hlabel1 (hids.right s1)
  refine ⟨release_step (s1.trans s2) (hlends.trans s2) hrelease, fun w m ready => ?_⟩
  refine ready.overRow s1 s2 hcloses hrelease (hrun1 w).1 (fun values => (hrun1 w).2 c' m values ready)
    (fun hnone => by simp [hnone]) fun values hvalues hstays m1 ready1 => ?_
  exact ((hreal values (h.row_length hvalues)).2 w m1 ready1).congr (by simp [hvalues])

end

theorem Coded.realizes_between
    (he : e.Stands σ x (operand.expr.identities ++ (low.expr.identities ++ high.expr.identities))
      (Meaning.between x μ ν ρ).value)
    (h : operand.Realizes σ K μ) (hl : low.Realizes σ K ν) (hh : high.Realizes σ K ρ) :
    (Coded.between e operand low high).Realizes σ K (Meaning.between x μ ν ρ) := by
  have hload := Code.realizes_of he (.of_loads (.between h hl hh))
  simp only [bind_assoc] at hload
  exact realizes_ofJump he hload fun wanted jumpIfNull => .between h hl hh wanted jumpIfNull

/-! ## CASE -/

/-- One arm of CASE: if its test jumps, the next arm follows; else it stores its result and is done. -/
def Gen.caseArm (test : Label → Gen Unit) (store : Gen Unit) (done : Label) : Gen Unit := do
  let next ← label
  test next
  store
  goto done
  resolve next

/-- The result of one arm, if its test does not jump. -/
def Meaning.armResult {β : Type} (test : Env → Option Bool) (result : Env → Option β) (env : Env) :
    Option (Option β) := do
  if ← test env then return none else return some (← result env)

theorem Meaning.bind_armResult (test : Env → Option Bool) (result rest : Reading) (env : Env) :
    (do if ← test env then rest env else result env) =
      (armResult test result env).bind fun o => o.elim (rest env) some := by
  unfold armResult
  cases test env with
  | none => rfl
  | some t =>
    cases t with
    | true => rfl
    | false => cases result env <;> rfl

/-- One arm goes on behind its end without a result and with all registers in use as they were, or at the label with
a result. What it stores may be in any registers `T`. -/
theorem Gen.caseArm_runs {β : Type} {store : Gen Unit} {d2 : Env → Option β} {holds : β → Machine → Prop}
    (hmakes : (caseArm test store done).Makes c () c') (hc : c.Good σ)
    (hdone : c.Made done) (hids : Unused (ids1 ++ ids2) c) (htest : Jumps σ K ids1 test d1)
    (hstore : ∀ ⦃c1 c2⦄, store.Makes c1 () c2 → Step σ ids1 c c1 → Unused ids2 c1 →
      Step σ ids2 c1 c2 ∧ ∀ w : World σ, (∀ r, T r → w.Avoids K r) → Runs w K T c1 c2 d2 (fun _ => none) holds) :
    Step σ (ids1 ++ ids2) c c' ∧ ∀ w : World σ, (∀ r, T r → w.Avoids K r) → ∀ m, Ready w K c c' m →
      RunsFrom w T c c' (armResult d1 d2) (fun o => o.map fun _ => done)
        (fun o m' => o.elim (∀ r, ¬ w.Scratch c r → m'.register r = m.register r) fun v => holds v m') m := by
  simp only [caseArm, makes_bind] at hmakes
  obtain ⟨next, c1, hlabel, ⟨⟩, c2, htests, ⟨⟩, c3, hstores, ⟨⟩, c4, hgoto, hresolve⟩ := hmakes
  obtain ⟨s1, hnew⟩ := label_spec hlabel hc
  obtain ⟨s2, hrun2⟩ := htest htests s1.good hnew.made (hids.step s1).left
  obtain ⟨s3, hrun3⟩ := hstore hstores ((s1.trans s2).mono (by simp)) ((hids.step s1).right s2)
  obtain ⟨s4, e4⟩ := emitJump_spec hgoto s3.good (by simp) ((s1.trans (s2.trans s3)).made hdone)
  obtain ⟨s5, hcontinues, hsize, hplace⟩ := hnew.resolve hresolve s1 (s2.trans (s3.trans s4))
  refine ⟨s5.mono (by simp), fun w havoid m ready => ?_⟩
  have htail3 : Continues c3 c' := s4.continues.trans hcontinues
  have htail2 : Continues c2 c' := s3.continues.trans htail3
  refine ready.silent s1 (s2.continues.trans htail2).grows hnew.size fun ready1 => ?_
  refine ready1.bindBranch s2 htail2 (fun ready => (hrun2 w m ready).within) (fun _ hf => hf.elim)
    (fun hn => by simp [armResult, hn]) (fun m1 ht hwithin => ?_) fun m1 ht _ ready2 => ?_
  · refine ⟨none, by simp [armResult, ht], hplace _ ready.settled, fun r hr => ?_⟩
    exact hwithin.2.registers r (fun hs => hr (hs.imp_left fun hf => ⟨s1.free r hf.1, hf.2⟩)) id
  · refine ready2.bind s3 htail3 (hrun3 w havoid m1) (fun r hr => ⟨havoid r hr, .inl hr⟩)
      (fun hn => by simp [armResult, ht, hn]) (fun _ _ _ _ hg => by cases hg)
      fun v m2 hv _ hholds ready3 => ?_
    have hjump : RunsFrom w T c3 c4 (armResult d1 d2) (fun o => o.map fun _ => done)
        (fun o m' => o.elim (∀ r, ¬ w.Scratch c r → m'.register r = m.register r) fun v => holds v m') m2 :=
      (ready3.first s4 hcontinues.grows hcontinues.guarded).emitGoto e4 (a := some v)
        (by simp [armResult, ht, hv]) rfl hholds
    exact ready3.beforeFrom s4.good hcontinues.grows hsize hjump

theorem Gen.caseArm_spec {d2 : Reading} (htest : Jumps σ K ids1 test d1) (hstore : Loads σ K ids2 store d2)
    (hmakes : (caseArm test (store reg) done).Makes c () c') (hc : c.Good σ) (hreg : c.Open reg) (hdone : c.Made done)
    (hids : Unused (ids1 ++ ids2) c) : Step σ (ids1 ++ ids2) c c' ∧ ∀ w : World σ, w.Avoids K reg →
      Runs w K (· = reg) c c' (armResult d1 d2) (fun o => o.map fun _ => done)
        fun o m => ∀ v ∈ o, m.register reg = v := by
  obtain ⟨s, hrun⟩ := caseArm_runs (T := (· = reg)) hmakes hc hdone hids htest fun c1 c2 hstores s1 hids1 => by
      obtain ⟨s2, hrun⟩ := hstore hstores s1.good (hreg.step s1) hids1
      exact ⟨s2, fun w havoid => hrun w (havoid reg rfl)⟩
  refine ⟨s, fun w havoid m ready => (hrun w (fun r hr => hr ▸ havoid) m ready).weaken ?_⟩
  rintro _ m' - hholds v ⟨⟩
  exact hholds

/-- The step loads a value into a register and goes on behind its end, or at a label that leads
there. -/
def LoadsVia (σ : Scope) (K : Known) (ids : List Identity) (g : Int → Label → Gen Unit)
    (d : Reading) : Prop :=
  ∀ ⦃c c' reg done⦄, (g reg done).Makes c () c' → c.Good σ → c.Open reg →
    c.Made done → Unused ids c →
    Step σ ids c c' ∧ ∀ w : World σ, w.Avoids K reg → (w.addr done.index).toNat = c'.size →
      Yields w K (· = reg) c c' d reg

namespace LoadsVia

variable {d d2 d3 : Reading}

theorem of_loads {g : Int → Gen Unit} (h : Loads σ K ids g d) : LoadsVia σ K ids (fun reg _ => g reg) d := by
  intro c c' reg done hmakes hc hreg _ hids
  obtain ⟨s, hrun⟩ := h hmakes hc hreg hids
  exact ⟨s, fun w havoid _ => hrun w havoid⟩

theorem arm {test : Label → Gen Unit} {store : Int → Gen Unit} {rest : Int → Label → Gen Unit}
    {d1 : Env → Option Bool} {ids3 : List Identity} (htest : Jumps σ K ids1 test d1)
    (hstore : Loads σ K ids2 store d2) (hrest : LoadsVia σ K ids3 rest d3) :
    LoadsVia σ K (ids1 ++ ids2 ++ ids3) (fun reg done => do
        caseArm test (store reg) done
        rest reg done)
      (fun env => do if ← d1 env then d3 env else d2 env) := by
  intro c c' reg done hmakes hc hreg hdone hids
  simp only [makes_bind] at hmakes
  obtain ⟨⟨⟩, c1, harm, hmakes⟩ := hmakes
  obtain ⟨s1, hrun1⟩ := caseArm_spec htest hstore harm hc hreg hdone hids.left
  obtain ⟨s2, hrun2⟩ := hrest hmakes s1.good (hreg.step s1) (s1.made hdone) (hids.right s1)
  refine ⟨s1.trans s2, fun w havoid hplace m ready => ?_⟩
  refine ready.bind s1 s2.continues (hrun1 w havoid m) havoid.only (fun hnone => ?_) ?_ ?_
  · rw [bind_armResult, hnone]
    rfl
  · intro o l m1 ho hgoes hvalue
    cases o with
    | none => cases hgoes
    | some v =>
      cases hgoes
      refine ⟨v, ?_, hplace, hvalue v rfl⟩
      rw [bind_armResult, ho]
      rfl
  · intro o m1 ho hgoes _ ready1
    cases o with
    | some v => cases hgoes
    | none =>
      refine (hrun2 w havoid hplace m1 ready1).congr ?_
      rw [bind_armResult, ho]
      rfl

theorem row {r : Gen (Int × Option Int)} {g : Int → Int → Label → Gen Unit}
    {dRow : Env → Option (List Value)} {dThen : List Value → Reading} {n : Nat}
    (hrow : Rows σ K ids1 r dRow) (hlen : ∀ env values, dRow env = some values → values.length = n)
    (h : ∀ p values, values.length = n → LoadsVia σ (rowEntries p values ++ K) ids2 (g p) (dThen values)) :
    LoadsVia σ K (ids1 ++ ids2) (fun reg done => do
        let p ← r
        g p.1 reg done)
      (fun env => do dThen (← dRow env) env) := by
  intro c c' reg done hmakes hc hreg hdone hids
  simp only [makes_bind] at hmakes
  obtain ⟨p, c1, hr, hg⟩ := hmakes
  obtain ⟨s1, -, hrun1⟩ := hrow hr hc hids.left
  have hthen (values : List Value) (hvalues : values.length = n) :=
    h p.1 values hvalues hg s1.good (hreg.step s1) (s1.made hdone) (hids.right s1)
  obtain ⟨s2, -⟩ := hthen (List.replicate n .null) List.length_replicate
  refine ⟨s1.trans s2, fun w havoid hplace m ready => ?_⟩
  have hstays (values : List Value) (hvalues : dRow w.env = some values) :=
    (hrun1 w).2 c' m values ready s2.grows.weaken hvalues
  refine ready.bindRow s1 s2.continues (hrun1 w).1 hstays (fun hnone => by simp [hnone])
    fun values hvalues m1 ready1 => ?_
  have hbody := (hthen values (hlen w.env values hvalues)).2 w
    (havoid.row hreg.taken (hstays values hvalues)) hplace m1 ready1
  exact hbody.congr (by simp [hvalues])

theorem loads {g : Int → Label → Gen Unit} (h : LoadsVia σ K ids g d) : Loads σ K ids (fun reg => do
      let done ← label
      g reg done
      resolve done) d := by
  intro c c' reg hmakes hc hreg hids
  simp only [makes_bind] at hmakes
  obtain ⟨done, c1, hlabel, ⟨⟩, c2, hg, hresolve⟩ := hmakes
  obtain ⟨s1, hnew⟩ := label_spec hlabel hc
  obtain ⟨s2, hrun⟩ := h hg s1.good (hreg.step s1) hnew.made (hids.step s1)
  obtain ⟨s3, hcontinues, hsize, hplace⟩ := hnew.resolve hresolve s1 s2
  refine ⟨s3, fun w havoid m ready => ?_⟩
  refine ready.silent s1 (s2.continues.trans hcontinues).grows hnew.size fun ready1 => ?_
  exact ready1.before s2 hcontinues.grows hcontinues.guarded hsize
    (hrun w havoid ((hplace _ ready.settled).trans hsize))

end LoadsVia

def Coded.armTest (subject : Option Coded) (condition : Coded) : Coded :=
  match subject with
  | some x => compared .eq x condition
  | none => condition

theorem Coded.caseArms_cons (subject : Option Coded) (reg : Int) (done : Label)
    (condition result : Coded) (rest : List (Coded × Coded)) :
    caseArms subject reg done ((condition, result) :: rest) = (do
      caseArm (fun next => (armTest subject condition).branch false next true) (result.exact reg) done
      caseArms subject reg done rest) := by
  cases subject <;> simp [caseArms, caseArm, armTest]

def Coded.armIds (arms : List (Coded × Coded)) : List Identity :=
  arms.flatMap fun arm => arm.1.expr.identities ++ arm.2.expr.identities

/-- The arms of CASE, one after the other, and what follows them. -/
theorem LoadsVia.arms (subject : Option Coded) (values : Option (Expr × List Value)) {arms : List (Coded × Coded)}
    {otherwise : Option Meaning}
    (htest : ∀ condition ν, condition.Realizes σ K ν → Jumps σ K condition.expr.identities
      (fun l => (Coded.armTest subject condition).branch false l true)
      ((Meaning.armTest values ν).branch false true))
    (harms : List.Forall₂ (fun arm μ => arm.1.Realizes σ K μ.1 ∧ arm.2.Realizes σ K μ.2) arms meanings)
    (hstore : Loads σ K ids store fun env => otherwise.elim (some .null) (·.value env)) :
    LoadsVia σ K (Coded.armIds arms ++ ids) (fun reg done => do
        Coded.caseArms subject reg done arms
        store reg)
      fun env => Meaning.caseArms values otherwise env meanings := by
  induction harms with
  | nil => simpa [Coded.caseArms, Coded.armIds, Meaning.caseArms] using LoadsVia.of_loads hstore
  | @cons arm μ arms meanings harm _ ih =>
    obtain ⟨condition, result⟩ := arm
    have hboth := LoadsVia.arm (htest condition μ.1 harm.1) harm.2.value.exact ih
    simpa only [Coded.caseArms_cons, bind_assoc, Coded.armIds, List.flatMap_cons, List.append_assoc,
      Meaning.caseArms] using hboth

theorem Loads.otherwise {otherwise : Option Coded} {meaning : Option Meaning}
    (h : Option.Rel (Realizes σ K) otherwise meaning) :
    Loads σ K (otherwise.elim [] (·.expr.identities)) (fun reg => otherwise.elim (emit (.of .null 0 reg)) (·.exact reg))
      fun env => meaning.elim (some .null) (·.value env) := by
  cases h with
  | none => exact .null
  | some h => exact h.value.exact

theorem Coded.realizes_caseOf {base otherwise : Option Coded} {μBase μElse : Option Meaning}
    {arms : List (Coded × Coded)} (he : e.Stands σ x (base.elim [] (·.expr.identities) ++ armIds arms ++
      otherwise.elim [] (·.expr.identities)) (Meaning.caseOf x μBase meanings μElse).value)
    (hbase : Option.Rel (Realizes σ K) base μBase)
    (harms : List.Forall₂ (fun arm μ => arm.1.Realizes σ K μ.1 ∧ arm.2.Realizes σ K μ.2) arms meanings)
    (helse : Option.Rel (Realizes σ K) otherwise μElse) :
    (caseOf e base arms otherwise).Realizes σ K (Meaning.caseOf x μBase meanings μElse) := by
  refine realizes_load he ?_
  cases hbase with
  | none =>
    have hloads := (LoadsVia.arms none none (fun _ _ h => h.branch false true) harms (.otherwise helse)).loads
    cases helse <;> simpa only [bind_assoc, Option.elim, List.nil_append] using hloads
  | @some b μ hb =>
    have hmore (p : Int) (values : List Value) : ∀ q ∈ K, q ∈ rowEntries p values ++ K :=
      fun _ => List.mem_append_right _
    have hloads := (LoadsVia.row hb.row (fun _ _ => hb.row_length) fun p values hlen =>
      LoadsVia.arms (some (b.held p)) (some (μ.expr, values))
        (fun condition ν h => (realizes_compared (computes_row hb hlen p) h.computes (.inl rfl)
          (isConstant_register _ _)).branch false true)
        (harms.imp fun _ _ h => ⟨h.1.hold (hmore p values), h.2.hold (hmore p values)⟩)
        ((Loads.otherwise helse).hold (hmore p values))).loads
    cases helse <;> simpa only [bind_assoc, Option.elim, List.append_assoc] using hloads

end ScalarSql
