import ScalarSql.Proofs.Code.Settled

/-!
# IN over a list

The test goes on if the left side is a member, and it goes to one of two labels if it is not or if that
is unknown. Both ways of testing come down to the same outcome, and the value and the branches of IN are
made from the test.
-/

namespace ScalarSql

open Compiler Gen Meaning

variable {σ : Scope} {K : Known} {ids : List Identity} {c c' : Compiler} {items : List (Item Code)}
  {μs : List Meaning}

/-- The code tests for membership: it goes on if the outcome is true, and to one of the two labels if it
is false or unknown. -/
def Tested (σ : Scope) (K : Known) (ids : List Identity) (c c' : Compiler) (ifFalse ifNull : Label)
    (d : Env → Option (Option Bool)) : Prop :=
  Step σ ids c c' ∧ Closes c c' ∧ ∀ w : World σ, Runs w K nowhere c c' d (verdict ifFalse ifNull) fun _ _ => True

def Tests (σ : Scope) (K : Known) (ids : List Identity) (g : (ifFalse ifNull : Label) → Gen Unit)
    (d : Env → Option (Option Bool)) : Prop :=
  ∀ ⦃c c' ifFalse ifNull⦄, (g ifFalse ifNull).Makes c () c' → c.Good σ →
    c.Made ifFalse → c.Made ifNull → Unused ids c → Tested σ K ids c c' ifFalse ifNull d

/-! ## The value and the branches -/

section

variable {test : (ifFalse ifNull : Label) → Gen Unit} {d : Env → Option (Option Bool)}

/-- The value of a test: NULL is loaded before it, and a zero is added to NULL if the outcome is false. -/
theorem Loads.ofTested (h : Tests σ K ids test d) : Loads σ K ids (fun reg => do
      let ifFalse ← label
      let ifNull ← label
      emit (.of .null 0 reg)
      test ifFalse ifNull
      emit (.of .integer 1 reg)
      resolve ifFalse
      emit (.of .addImm reg 0)
      resolve ifNull) fun env => (d env).map Value.ofTruth := by
  intro c c' reg hmakes hc hreg hids
  simp only [makes_bind] at hmakes
  obtain ⟨ifFalse, c1, hlabel1, ifNull, c2, hlabel2, ⟨⟩, c3, hload, ⟨⟩, c4, htest, ⟨⟩, c5, hone, ⟨⟩, c6,
    hresolve1, ⟨⟩, c7, hadd, hresolve2⟩ := hmakes
  obtain ⟨s1, hfalse⟩ := label_spec hlabel1 hc
  obtain ⟨s2, hnull⟩ := label_spec hlabel2 s1.good
  obtain ⟨s3, e3⟩ := emit_spec hload s2.good (by simp)
  have s23 : Step σ [] c1 c3 := s2.trans s3
  obtain ⟨s4, hcloses, hrun4⟩ := h htest s3.good (s23.made hfalse.made) (s3.made hnull.made) ((hids.step s1).step s23)
  obtain ⟨s5, e5⟩ := emit_spec hone s4.good (by simp)
  have s15 : Step σ ids c1 c5 := (s23.trans (s4.trans s5)).mono (by simp)
  have s25 : Step σ ids c2 c5 := (s3.trans (s4.trans s5)).mono (by simp)
  obtain ⟨s6, hk5, hsize6, hplace6⟩ := hfalse.resolve hresolve1 s1 s15
  obtain ⟨s7, e7⟩ := emit_spec hadd s6.good (by simp)
  have hmade6 := Nat.lt_of_lt_of_le (s25.made hnull.made) hk5.grows.labels_le
  have hnone7 : c7.builder.address? ifNull = none := by
    have hne : ifNull ≠ ifFalse := by
      rintro rfl
      exact absurd hfalse.made (Nat.not_lt.2 hnull.new)
    rw [s7.labels ifNull hmade6, makes_resolve.1 hresolve1, Builder.resolve_address?_ne hne,
      s25.labels ifNull hnull.made, hnull.unresolved]
  obtain ⟨s8, hk7, hsize8, haddress8⟩ := resolve_spec hresolve2 (s6.trans s7)
    (Nat.le_trans s1.grows.labels_le hnull.new) (s7.made hmade6) hnone7
  refine ⟨s8.mono (by simp), fun w havoid m ready => ?_⟩
  have hk6 := s7.continues.trans hk7
  have hk4 := s5.continues.trans hk5
  have hk3 := s4.continues.trans hk4
  have hk2 := s3.continues.trans hk3
  have hk1 := s2.continues.trans hk2
  have hpos : 0 ≤ reg := hreg.nonneg
  have ready0 : Ready w K c c6 m := ready.first s6 hk6.grows hk6.guarded
  have hfalseAt : (w.addr ifFalse.index).toNat = c6.size := hplace6 _ ready0.settled
  have hnullAt : (w.addr ifNull.index).toNat = c'.size := by
    rw [ready.settled ifNull _ haddress8]
    rfl
  let place (o : Option Bool) : Nat := if o.isSome then c6.size else c'.size
  let loaded (o : Option Bool) : Value := if o = some true then .integer 1 else .null
  have hfirst : RunsTo w (· = reg) c c6 d place (fun o m' => m'.register reg = loaded o) m := by
    refine ready0.silentTo s1 hk1.grows hfalse.size fun ready1 => ?_
    refine ready1.silentTo s2 hk2.grows hnull.size fun ready2 => ?_
    have hset := runsFrom_iff.1 ((ready2.first s3 hk3.grows hk3.guarded).emitSet (d := fun _ => some .null) e3
      (by simp) hpos (Instr.step_null hpos) rfl)
    refine ready2.bindTo s3.passes hk3.grows.weaken hset havoid.only (by simp)
      fun v m1 hv hvalue => .inl ⟨rfl, fun ready3 => ?_⟩
    cases Option.some.inj hv
    have htested := runsFrom_iff.1 (RunsFrom.frame (r := reg)
      (hrun4 w m1 (ready3.first s4 hk4.grows hk4.guarded)) ?_ id)
    · refine ready3.bindTo s4.passes hk4.grows.weaken htested (fun _ hf => hf.elim) id fun o m2 ho hholds => ?_
      have hkept : m2.register reg = .null := hholds.2.trans hvalue
      rcases o with _ | _ | _
      · exact .inr ⟨none, ho, hnullAt, hkept⟩
      · exact .inr ⟨some false, ho, hfalseAt, hkept⟩
      · refine .inl ⟨rfl, fun ready4 => ?_⟩
        have hop := ready4.emitted e5 (Nat.le_refl _) hk5.grows (by simp)
        have hsize5 := e5.size
        refine Leads.next hop (Instr.step_integer 1 hpos) (k := 0) (by omega) (.done ⟨⟨some true, ho, ?_,
          Machine.register_setRegister_self _ hpos _⟩, .of_writes (.setRegister m2 hpos _) fun _ => .inl⟩)
        exact hsize5.symm.trans hsize6.symm
    · rintro (hf | hl)
      · exact s3.not_free (s2.not_free (s1.not_free hreg.taken)) hf.1
      · exact havoid.lent hl
  rw [runsFrom_iff]
  refine ready.bindTo s6.passes hk6.grows.weaken hfirst havoid.only
    (fun hnone => by rw [hnone]; rfl) fun o m1 ho hvalue => ?_
  cases o with
  | none => exact .inr ⟨.null, by rw [ho]; rfl, rfl, hvalue⟩
  | some b =>
    refine .inl ⟨rfl, fun ready6 => ?_⟩
    have hadded : RunsFrom w (· = reg) c6 c7 (fun env => (d env).map Value.ofTruth) (fun _ => none)
        (fun v m' => m'.register reg = v) m1 := by
      refine (ready6.first s7 hk7.grows hk7.guarded).emitSet e7 (by simp) hpos (Instr.step_addImm 0 hpos) ?_
      rw [ho, hvalue]
      cases b <;> rfl
    exact runsFrom_iff.1 (ready6.beforeFrom s7.good hk7.grows hsize8 hadded)

theorem Jumps.ofTested (h : Tests σ K ids test d) (wanted jumpIfNull : Bool) : Jumps σ K ids (fun dest => do
      if wanted then
        let ifFalse ← label
        test ifFalse (if jumpIfNull then dest else ifFalse)
        goto dest
        resolve ifFalse
      else if jumpIfNull then test dest dest
      else
        let ifNull ← label
        test dest ifNull
        resolve ifNull) fun env => (d env).map (takes wanted jumpIfNull) := by
  intro c c' dest hmakes hc hdest hids
  cases wanted with
  | true =>
    simp only [if_true, makes_bind] at hmakes
    obtain ⟨ifFalse, c1, hlabel, ⟨⟩, c2, htest, ⟨⟩, c3, hgoto, hresolve⟩ := hmakes
    obtain ⟨s1, hfalse⟩ := label_spec hlabel hc
    have hdest1 := s1.made hdest
    obtain ⟨s2, hcloses, hrun2⟩ := h htest s1.good hfalse.made
      (by cases jumpIfNull; exacts [hfalse.made, hdest1]) (hids.step s1)
    obtain ⟨s3, e3⟩ := emitJump_spec hgoto s2.good (by simp) (s2.made hdest1)
    obtain ⟨s4, hk3, hsize4, hplace⟩ := hfalse.resolve hresolve s1 (s2.trans s3)
    refine ⟨s4.mono (by simp), fun w m ready => ?_⟩
    have hk2 := s3.continues.trans hk3
    have hk1 := s2.continues.trans hk2
    have hfalseAt : (w.addr ifFalse.index).toNat = c'.size := hplace _ ready.settled
    refine ready.silent s1 hk1.grows hfalse.size fun ready1 => ?_
    refine ready1.bind s2 hk2 (hrun2 w m) (fun _ hf => hf.elim) (fun hnone => by rw [hnone]; rfl)
      (fun o l m1 ho hgoes _ => ?_) fun o m1 ho hgoes _ ready2 => ?_
    · refine ⟨takes true jumpIfNull o, by rw [ho]; rfl, ?_, trivial⟩
      rcases o with _ | _ | _ <;> cases hgoes
      · cases jumpIfNull
        exacts [hfalseAt, rfl]
      · exact hfalseAt
    · obtain rfl : o = some true := by
        rcases o with _ | _ | _ <;> cases hgoes
        rfl
      refine ready2.before s3 hk3.grows hk3.guarded hsize4 fun m2 ready3 => ?_
      exact ready3.emitGoto e3 (a := true) (by rw [ho]; rfl) rfl trivial
  | false =>
    cases jumpIfNull with
    | true =>
      obtain ⟨s, -, hrun⟩ := h hmakes hc hdest hdest hids
      refine ⟨s, fun w m ready => (hrun w m ready).map (f := takes false true) rfl (fun o => ?_) fun _ _ _ => trivial⟩
      rcases o with _ | _ | _ <;> rfl
    | false =>
      simp only [Bool.false_eq_true, if_false, makes_bind] at hmakes
      obtain ⟨ifNull, c1, hlabel, ⟨⟩, c2, htest, hresolve⟩ := hmakes
      obtain ⟨s1, hnull⟩ := label_spec hlabel hc
      obtain ⟨s2, hcloses, hrun2⟩ := h htest s1.good (s1.made hdest) hnull.made (hids.step s1)
      obtain ⟨s3, hk2, hsize3, hplace⟩ := hnull.resolve hresolve s1 s2
      refine ⟨s3, fun w m ready => ?_⟩
      refine ready.silent s1 (s2.continues.trans hk2).grows hnull.size fun ready1 => ?_
      refine ready1.bind s2 hk2 (hrun2 w m) (fun _ hf => hf.elim) (fun hnone => by rw [hnone]; rfl)
        (fun o l m1 ho hgoes _ => ?_) fun o m1 ho hgoes _ ready2 => ?_
      · refine ⟨takes false false o, by rw [ho]; rfl, ?_, trivial⟩
        rcases o with _ | _ | _ <;> cases hgoes
        · exact hplace _ ready.settled
        · rfl
      · obtain rfl : o = some true := by
          rcases o with _ | _ | _ <;> cases hgoes
          rfl
        exact .done (a := false) hsize3 (by rw [ho]; rfl) rfl trivial

end

/-! ## The two ways of testing -/

theorem Arguments.hold {K' : Known} (h : Arguments σ K items μs) (hK : ∀ p ∈ K, p ∈ K') : Arguments σ K' items μs :=
  h.imp fun _ _ hitem => ⟨hitem.1.hold hK, hitem.2⟩

theorem Arguments.notNull (h : Arguments σ K items μs) :
    (items.all fun item => !item.expr.expr.canBeNull) = μs.all fun μ => !μ.expr.canBeNull := by
  induction h with
  | nil => rfl
  | cons hitem _ ih => rw [List.all_cons, List.all_cons, hitem.2, ih]

theorem Gen.testLookup_spec {operand : Expr} {plan : Plan} {left : Int} {ifFalse ifNull : Label}
    (hsingle : operand.vectorSize = 1) (hplan : plan.Probes operand items (ifFalse ≠ ifNull))
    (h : (testLookup operand plan left (Affinity.codes [operand.affinity]) ifFalse ifNull).Makes c () c')
    (hc : c.Good σ) (hfalse : c.Made ifFalse) (hnull : c.Made ifNull)
    (hleft : 0 ≤ left) (htaken : ¬ c.Free left) : LooksUp σ K c c' operand plan left ifFalse ifNull := by
  by_cases hsame : ifFalse = ifNull
  · subst hsame
    exact testLookup_same hsingle hplan h hc hfalse hleft
  · rw [show decide (ifFalse ≠ ifNull) from decide_eq_true hsame] at hplan
    exact testLookup_distinct hsingle hplan hsame h hc hfalse hnull hleft htaken

section

variable {e : Expr} {node : Identity} {operand : Coded} {μ : Meaning} {items : List (Item Code)}
  {μs : List Meaning}

/-- The value of the left side is as its affinity wants it, unless it is in a register that is to be
released. -/
def Coded.Settles (σ : Scope) (operand : Coded) (d : Reading) : Prop :=
  ∀ ⦃c c' p⦄, operand.temp.Makes c p c' → c.Good σ → p.2 = none → ∀ env : Env,
    env.functions = σ.functions → ∀ v, d env = some v → v.applyAffinity operand.expr.affinity = v

section

variable {c1 c2 c3 : Compiler} {p : Int × Option Int} {ifFalse ifNull : Label} {env : Env}

theorem Meaning.listOutcome_of_chain {x : Value} (hne : μs ≠ []) (hlooks : looksUp μs env = false)
    (hx : μ.value env = some x) : listOutcome μ μs env = chainOutcome μ.expr x env x.isNull μs := by
  rw [listOutcome, List.isEmpty_eq_false_iff.2 hne, hlooks, hx]
  rfl

theorem Meaning.listOutcome_of_lookup {values : List Value} (hne : μs ≠ []) (hlooks : looksUp μs env)
    (hvalues : μs.mapM (·.value env) = some values) : listOutcome μ μs env = (μ.value env).map fun x =>
      lookupOutcome μ.expr (μs.all fun μ => !μ.expr.canBeNull) x values env := by
  rw [listOutcome, List.isEmpty_eq_false_iff.2 hne, hlooks, hvalues]
  cases μ.value env <;> rfl

variable (htemp : Temps σ [] operand.expr.identities operand.temp μ.value) (hexpr : operand.expr = μ.expr)
  (h : Arguments σ K items μs) (hne : items ≠ []) (hrow : operand.temp.Makes c1 p c2)
  (hrelease : (release p.2).Makes c3 () c') (hfalse : c.Made ifFalse) (hnull : c.Made ifNull)

include htemp hexpr h hne hrow hrelease hfalse hnull

theorem Gen.member_chain (s1 : Step σ [] c c1) (hsize1 : c1.size = c.size)
    (hlooks : ∀ (w : World σ) m, Ready w K c c1 m → looksUp μs w.env = false)
    (htest : (testChain operand.expr items p.1 (Affinity.codes [operand.expr.affinity]) ifFalse ifNull).Makes c2 () c3)
    (hids : Unused (operand.expr.identities ++ itemIds items) c) :
    Tested σ K (operand.expr.identities ++ itemIds items) c c' ifFalse ifNull (listOutcome μ μs) := by
  have hids1 := hids.step s1
  obtain ⟨s2, hp, hrun2⟩ := (htemp.hold (List.forall_mem_nil _) : Temps σ K _ _ _) hrow s1.good hids1.left
  have hfalse2 := (s1.trans s2).made hfalse
  have hnull2 := (s1.trans s2).made hnull
  have hspec (K' : Known) (hK : ∀ p ∈ K, p ∈ K') := testChain_spec (h.hold hK) hne rfl
    htest s2.good hfalse2 hnull2 (hids1.right s2)
  obtain ⟨s3, hcloses, -⟩ := hspec K fun _ => id
  have s := s1.trans (release_step (s2.trans s3) (hp.lends.trans s3) hrelease)
  have hk2 : Continues c2 c' := s3.continues.extend hcloses.lt fun _ => release_extends hrelease
  have hk1 := s2.continues.trans hk2
  have hb := release_builder hrelease
  refine ⟨s, (hcloses.after (s1.trans s2).size_le).of_builder hb, fun w m ready => ?_⟩
  have hchain := hlooks w m (ready.first s1 hk1.grows hk1.guarded)
  have hμs : μs ≠ [] := fun he => hne (List.forall₂_nil_right_iff.1 (he ▸ h))
  refine ready.silent s1 hk1.grows hsize1 fun ready1 => ?_
  refine ready1.bindTemp s2 hk2 hp (hrun2 w) (fun hnone => ?_) fun x hx m1 ready2 => ?_
  · rw [listOutcome, List.isEmpty_eq_false_iff.2 hμs, hchain, hnone]
    rfl
  · obtain ⟨-, -, hrun3⟩ := hspec ((p.1, x) :: K) fun _ => List.mem_cons_of_mem _
    have htested := ready2.before s3 (release_extends hrelease) (.inr (.inl hcloses.isSealed))
      (by rw [size, hb, size]) (hrun3 w x List.mem_cons_self)
    refine htested.congr ?_
    rw [listOutcome_of_chain hμs hchain hx, hexpr]

theorem Gen.member_lookup {plan : Plan} (hsettles : operand.Settles σ μ.value) (hsingle : operand.expr.vectorSize = 1)
    (hplan : plan.Probes operand.expr items (ifFalse ≠ ifNull))
    (hfills : plan.Fills σ K (node :: itemIds items) operand.expr μs c c1)
    (htest : (testLookup operand.expr plan p.1 (Affinity.codes [operand.expr.affinity]) ifFalse ifNull).Makes c2 () c3)
    (hids : Unused ((node :: itemIds items) ++ operand.expr.identities) c) :
    Tested σ K ((node :: itemIds items) ++ operand.expr.identities) c c' ifFalse ifNull (listOutcome μ μs) := by
  obtain ⟨s1, hcursor, htaken, hrun1⟩ := hfills
  obtain ⟨s2, hp, hrun2⟩ := htemp hrow s1.good (hids.right s1)
  obtain ⟨hpos, hfree⟩ : 1 ≤ p.1 ∧ ¬ c2.Free p.1 := by
    rcases hp with ⟨ht, -⟩ | ⟨-, ⟨x, hx, -, hreg⟩ | ⟨v, hv⟩⟩
    · exact ⟨ht.pos, ht.taken⟩
    · exact hreg ▸ s2.good.taken x hx
    · cases hv
  have hspec (K' : Known) := testLookup_spec (K := K') hsingle hplan htest s2.good
    ((s1.trans s2).made hfalse) ((s1.trans s2).made hnull) (Int.le_trans (by decide) hpos) hfree
  obtain ⟨s3, hcloses, -⟩ := hspec K
  have s2' := release_step (s2.trans s3) (hp.lends.trans s3) hrelease
  have hk2 : Continues c2 c' := s3.continues.extend hcloses.lt fun _ => release_extends hrelease
  have hk1 := s2.continues.trans hk2
  have hb := release_builder hrelease
  refine ⟨(s1.trans s2').mono (by simp), (hcloses.after (s1.trans s2).size_le).of_builder hb, fun w m ready => ?_⟩
  obtain ⟨hlooks, hfilled⟩ := hrun1 w m (ready.first s1 hk1.grows hk1.guarded)
  have hμs : μs ≠ [] := fun he => hne (List.forall₂_nil_right_iff.1 (he ▸ h))
  -- the look-up may convert the left side in its own register
  have hwhole : RunsFrom w (Taken c1 c2) c c' (listOutcome μ μs) (verdict ifFalse ifNull) (fun _ _ => True) m := by
    refine ready.bindFrom s1.passes hk1.grows.weaken hfilled (fun _ hf => hf.elim) (fun hnone => ?_)
      fun values m1 hvalues hholds ready1 => ?_
    · rw [listOutcome, List.isEmpty_eq_false_iff.2 hμs, hlooks, hnone]
      rfl
    obtain ⟨table, t, htable, htabled, hhasNull⟩ := hholds
    obtain ⟨K', hK, hnulls, ready1⟩ : ∃ K', (∀ p ∈ K, p ∈ K') ∧
        (∀ reg ∈ plan.hasNull, (reg, firstField table.2) ∈ K') ∧ Ready w K' c1 c' m1 := by
      cases hreg : plan.hasNull with
      | none => exact ⟨K, fun _ => id, (by simp), ready1⟩
      | some reg =>
        have ht := htaken reg hreg
        have hheld := ready1.hold ht.taken fun hl => (ready.lent reg hl).1 ht.free
        rw [hhasNull reg hreg] at hheld
        refine ⟨_, fun _ => List.mem_cons_of_mem _, ?_, hheld⟩
        rintro _ ⟨⟩
        exact List.mem_cons_self
    obtain ⟨values', col, hvalues', hcol, hcs, hkeys⟩ := keyTable_eq_some htable
    cases hvalues.symm.trans hvalues'
    refine ready1.bind s2 hk2 (fun ready => ((hrun2 w).hold (List.forall_mem_nil (· ∈ K')) m1 ready).within)
      (fun _ hf => hf.elim) (fun hnone => ?_) (by simp) fun x m2 hx _ hholds ready2 => ?_
    · rw [listOutcome_of_lookup hμs hlooks hvalues, hnone]
      rfl
    obtain ⟨hvalue, hw2⟩ := hholds
    have hprobing : Probing w K' c2 operand.expr plan p.1 x values table.2 m2 := by
      refine ⟨?_, Int.lt_of_lt_of_le hcursor s2.grows.cursors, hkeys, keyTable_ne_nil htable hμs, hnulls,
        fun hconverted => ?_, hvalue⟩
      · refine ⟨t, col, hcs ▸ htabled.frame ?_ (hw2.tables t), hcol⟩
        exact hw2.cursors _ (.inl hcursor)
      · rcases hp with ⟨ht, -⟩ | ⟨hnone, -⟩
        · exact ready1.avoids ht hk2.grows
        · exact absurd (hsettles hrow s1.good hnone w.env w.functions x hx) hconverted
    obtain ⟨-, -, hrun3⟩ := hspec K'
    have htested := hrun3 w m2 x values table.2 hprobing
      (ready2.first s3 (release_extends hrelease) (.inr (.inl hcloses.isSealed)))
    have hend : Extends nowhere nowhere c3 c' := release_extends hrelease
    refine ((ready2.beforeFrom s3.good hend (by rw [size, hb, size]) htested).congr ?_).mono fun r hr => ?_
    · rw [listOutcome_of_lookup hμs hlooks hvalues, hx, hplan.notNull, h.notNull, hexpr]
      rfl
    · rcases hp with ⟨ht, -⟩ | ⟨hnone, -⟩
      · exact .inl (hr.1 ▸ ht)
      · exact absurd (hsettles hrow s1.good hnone w.env w.functions x hx) hr.2
  refine hwhole.mono fun r ht => .inr ?_
  exact ready.scratch { ht with free := s1.free r ht.free } hk2.grows

end

variable (htemp : Temps σ [] operand.expr.identities operand.temp μ.value) (hexpr : operand.expr = μ.expr)
  (hsettles : operand.Settles σ μ.value) (h : Arguments σ K items μs)
  (hcodes : operand.expr.vectorSize = 1 → e.membershipAffinity = Affinity.codes [operand.expr.affinity])
  (hnode : σ.HasTable node operand.expr items μs)

include htemp hexpr hsettles h hcodes hnode

theorem Gen.member_tests : Tests σ K (node :: (operand.expr.identities ++ itemIds items))
      (member e node operand (.list items)) (listOutcome μ μs) := by
  intro c c' ifFalse ifNull hmakes hc hfalse hnull hids
  by_cases hsingle : operand.expr.vectorSize = 1
  · by_cases hne : items = []
    · subst hne
      cases h
      simp only [member, checkWidths, hsingle, ne_eq, not_true_eq_false, if_false, pure_bind,
        List.isEmpty_nil, if_true] at hmakes
      obtain ⟨s, e⟩ := emitJump_spec hmakes hc (by simp) hfalse
      exact ⟨s.mono (by simp), emitJump_closes hmakes (by simp), fun w m ready =>
        ready.emitGoto e rfl rfl trivial⟩
    · simp only [member, checkWidths, hsingle, ne_eq, not_true_eq_false, if_false, pure_bind,
        List.isEmpty_eq_false_iff.2 hne, Bool.false_eq_true, makes_bind, Coded.row, if_true,
        hcodes hsingle] at hmakes
      obtain ⟨plan, c1, hplan, p, c2, hrow, hmakes⟩ := hmakes
      have hperm : (node :: (operand.expr.identities ++ itemIds items)).Perm
          ((node :: itemIds items) ++ operand.expr.identities) :=
        List.perm_append_comm.cons node
      rcases planRight_spec h hne hplan hc (hids.perm hperm).left hnode with
        ⟨hstrategy, hmap, s1, hsize1, hlooks⟩ | ⟨hprobes, hfills⟩
      · rw [if_pos (by rw [hmap, List.length_range])] at hmakes
        simp only [testPlanned, hstrategy, makes_bind] at hmakes
        obtain ⟨⟨⟩, c3, htest, hrelease⟩ := hmakes
        obtain ⟨s, hrest⟩ := member_chain htemp hexpr h hne hrow hrelease hfalse hnull s1 hsize1 hlooks htest hids.tail
        exact ⟨s.mono fun _ => List.mem_cons_of_mem _, hrest⟩
      · rw [if_pos (by rw [hprobes.map, List.length_range])] at hmakes
        simp only [testPlanned, hprobes.strategy, makes_bind] at hmakes
        obtain ⟨⟨⟩, c3, htest, hrelease⟩ := hmakes
        obtain ⟨s, hrest⟩ := member_lookup htemp hexpr h hne hrow hrelease hfalse hnull hsettles hsingle hprobes
          hfills htest (hids.perm hperm)
        exact ⟨s.mono fun i hi => hperm.mem_iff.2 hi, hrest⟩
  · -- a row value is refused
    simp only [member, checkWidths, ne_eq, hsingle, not_false_eq_true, if_true, makes_bind] at hmakes
    obtain ⟨⟨⟩, _, hthrow, -⟩ := hmakes
    split at hthrow <;> exact (makes_throw.1 hthrow).elim

theorem Coded.realizes_membership {x : Expr} (he : e.Stands σ x (node :: (operand.expr.identities ++ itemIds items))
      (inList x μ μs).value) : (Coded.membership e node operand (.list items)).Realizes σ K (inList x μ μs) := by
  have htests := member_tests (e := e) htemp hexpr hsettles h hcodes hnode
  have hload := Targets.of_loads (Loads.ofTested htests)
  simp only [bind_assoc] at hload
  have hjump := Coded.realizes_ofJump he (Code.realizes_of he hload) fun wanted jumpIfNull =>
    Jumps.ofTested htests wanted jumpIfNull
  exact ⟨hjump.alike, hjump.literal, hjump.value, hjump.nonempty, hjump.vector, hjump.fields, hjump.jump, hjump.branch⟩

end

end ScalarSql
