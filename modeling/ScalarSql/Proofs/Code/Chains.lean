import ScalarSql.Proofs.Code.Calls

/-!
# IN by comparison with each item

The items of a list that is short or not constant are compared one after the other. If NULL needs a
place of its own, a register becomes NULL as soon as a NULL is seen, and is looked at behind the last
item; else the last comparison jumps itself.
-/

namespace ScalarSql

open Compiler Gen Instr Meaning

variable {σ : Scope} {K : Known} {ids : List Identity} {c c' : Compiler} {nullSeen : Option Int}

/-- Where a test with a truth value as outcome goes on: behind its end if it is true. -/
def verdict (ifFalse ifNull : Label) : Option Bool → Option Label
  | some true => none
  | some false => some ifFalse
  | none => some ifNull

/-! ## Comparing one item -/

/-- Makes a register NULL if the value in another one is NULL, which may be known not to happen. -/
def Gen.markNull (nullSeen : Option Int) (canBeNull : Bool) (reg : Int) : Gen Unit :=
  match nullSeen with
  | some seen => if canBeNull then emit (.of .bitAnd seen reg seen) else pure ()
  | none => pure ()

/-- Computes an item, marks NULL, and jumps by an instruction on its register. -/
def Gen.compareItem (nullSeen : Option Int) (ins : Int → Instr) (dest : Label) (item : Code) :
    Gen Unit := do
  let p ← item.temp
  markNull nullSeen item.expr.canBeNull p.1
  emitJump (ins p.1) dest
  release p.2

theorem Gen.compareItems_cons (left : Int) (collation : Operand) (affinity : Affinity)
    (nullSeen : Option Int) (matched ifFalse : Label) (item : Item Code) (rest : List (Item Code)) :
    compareItems left collation affinity nullSeen matched ifFalse (item :: rest) = (do
      if !rest.isEmpty || nullSeen.isSome then
        compareItem nullSeen (fun reg => .of .eq left 0 reg collation
          ({ affinity } : CompareMode).toBits) matched item.expr
      else
        compareItem nullSeen (fun reg => .of .ne left 0 reg collation
          ({ affinity, jumpIfNull := true } : CompareMode).toBits) ifFalse item.expr
      compareItems left collation affinity nullSeen matched ifFalse rest) := by
  cases nullSeen with
  | none =>
    by_cases hlast : rest.isEmpty <;>
      simp [compareItems, compareItem, markNull, hlast]
  | some seen =>
    by_cases hnull : item.expr.expr.canBeNull <;>
      simp [compareItems, compareItem, markNull, hnull]

theorem Value.isNull_bitAnd (a b : Value) : (Value.bitAnd a b).isNull = (a.isNull || b.isNull) := by
  cases a <;> cases b <;> rfl

theorem Gen.markNull_spec {canBeNull : Bool} {reg : Int} (h : (markNull nullSeen canBeNull reg).Makes c () c')
    (hc : c.Good σ) (hseen : ∀ seen ∈ nullSeen, 0 ≤ seen) : Step σ [] c c' ∧ ∀ (w : World σ) m, Ready w K c c' m →
      RunsFrom w (fun r => nullSeen = some r) c c' (fun _ => some ()) (fun _ => none)
        (fun _ m' => ∀ seen ∈ nullSeen, (m'.register seen).isNull =
          ((m.register seen).isNull || canBeNull && (m.register reg).isNull)) m := by
  cases nullSeen with
  | none =>
    obtain ⟨-, rfl⟩ := makes_pure.1 h
    exact ⟨.refl hc, fun w m _ => .done rfl rfl rfl (by simp)⟩
  | some seen =>
    cases canBeNull with
    | false =>
      obtain ⟨-, rfl⟩ := makes_pure.1 h
      refine ⟨.refl hc, fun w m _ => .done rfl rfl rfl ?_⟩
      rintro _ ⟨⟩
      simp
    | true =>
      obtain ⟨s, e⟩ := emit_spec h hc (by simp)
      have hpos := hseen seen rfl
      refine ⟨s, fun w m ready => ?_⟩
      refine ready.emit e (by simp) (step_bitAnd hpos) rfl rfl ?_
        (.of_writes (.setRegister m hpos _) fun r hr => .inl (by rw [hr]))
      rintro _ ⟨⟩
      rw [Machine.register_setRegister_self m hpos, Value.isNull_bitAnd, Bool.true_and]

section

variable {operand : Expr} {left : Int} {found : Option Collation} {matched ifFalse : Label}
  {items : List (Item Code)} {μs : List Meaning} {opcode : Opcode} {jumpIfNull : Bool}

theorem Instr.step_compareItem {opcode : Opcode} {affinity : Affinity} {jumpIfNull : Bool}
    (hop : opcode = .eq ∧ jumpIfNull = false ∨ opcode = .ne ∧ jumpIfNull) (r p : Int) (a : Nat) (m : Machine) :
    ∃ o, (({ of opcode left 0 r (Operand.ofOption .collation found)
        ({ affinity, jumpIfNull } : CompareMode).toBits with p2 := p } : Instr).step a).outcome m =
      (.ok (.jumpIf ((CompareMode.order? { affinity } found (m.register left) (m.register r) ==
        some .eq) != jumpIfNull)), { m with lastCompare := o }) := by
  let i : Instr := { of opcode left 0 r (Operand.ofOption .collation found)
    ({ affinity, jumpIfNull } : CompareMode).toBits with p2 := p }
  have hmode : i.mode = { affinity, jumpIfNull } := CompareMode.ofBits_toBits _
  have horder : i.order? m = CompareMode.order? { affinity } found (m.register left) (m.register r) := by
    rw [order?, hmode, show i.collation? = found from collation?_ofOption _ _ _ _ _ _]
    rfl
  have hcomparing : i.opcode ∈ comparing := by
    rcases hop with ⟨rfl, -⟩ | ⟨rfl, -⟩ <;> simp [i, comparing]
  have hstep := outcome_compare_jump (a := a) (m := m) hcomparing (by rw [hmode])
  rw [horder, hmode] at hstep
  have htaken : (CompareMode.order? { affinity } found (m.register left) (m.register r)).elim
      jumpIfNull i.opcode.accepts =
        ((CompareMode.order? { affinity } found (m.register left) (m.register r) == some .eq) != jumpIfNull) := by
    cases CompareMode.order? { affinity } found (m.register left) (m.register r) with
    | none => rcases hop with ⟨-, rfl⟩ | ⟨-, rfl⟩ <;> rfl
    | some o => rcases hop with ⟨rfl, rfl⟩ | ⟨rfl, rfl⟩ <;> cases o <;> rfl
  rw [htaken] at hstep
  exact ⟨_, hstep⟩

/-- The order of a value and an item under IN. -/
def Meaning.itemOrder (operand : Expr) (env : Env) (x k : Value) : Option Ordering :=
  CompareMode.order? { affinity := operand.affinity } (operand.collationName?.bind env.collation) x k

/-- An item is compared with the value `x` of the left side. -/
theorem Gen.compareItem_spec {dest : Label} {item : Code} {d : Reading}
    (hop : opcode = .eq ∧ jumpIfNull = false ∨ opcode = .ne ∧ jumpIfNull) (h : item.Realizes σ K d)
    (hmakes : (compareItem nullSeen (fun r => .of opcode left 0 r (Operand.ofOption .collation found)
      ({ affinity := operand.affinity, jumpIfNull } : CompareMode).toBits) dest item).Makes c () c') (hc : c.Good σ)
    (hseen : ∀ seen ∈ nullSeen, c.Open seen) (hdest : c.Made dest) (hids : Unused item.expr.identities c) :
    Step σ item.expr.identities c c' ∧ Closes c c' ∧ ∀ (w : World σ) m x,
      (∀ seen ∈ nullSeen, w.Avoids K seen) → (left, x) ∈ K → operand.collationName?.bind w.env.collation = found →
      Ready w K c c' m → RunsFrom w (fun r => nullSeen = some r) c c' d
        (fun k => if (itemOrder operand w.env x k == some .eq) != jumpIfNull then some dest else none)
        (fun k m' => ∀ seen ∈ nullSeen, (m'.register seen).isNull =
          ((m.register seen).isNull || item.expr.canBeNull && k.isNull)) m := by
  have hcopy : opcode ≠ .copy := by rcases hop with ⟨rfl, -⟩ | ⟨rfl, -⟩ <;> simp
  simp only [compareItem, makes_bind] at hmakes
  obtain ⟨p, c1, htemp, ⟨⟩, c2, hmark, ⟨⟩, c3, hemit, hrelease⟩ := hmakes
  obtain ⟨s1, hp, hrun1⟩ := h.temp htemp hc hids
  obtain ⟨s2, hrun2⟩ := markNull_spec hmark s1.good (K := K) fun seen hs => (hseen seen hs).nonneg
  obtain ⟨s3, e3⟩ := emitJump_spec hemit s2.good hcopy ((s1.trans s2).made hdest)
  have hcloses : Closes c c' := ((emitJump_closes hemit hcopy).after
    (s1.trans s2).size_le).of_builder (release_builder hrelease)
  have hcontinues2 : Continues c2 c' := s3.continues.extend (by rw [e3.size]; omega) fun _ =>
    release_extends hrelease
  have hcontinues1 : Continues c1 c' := s2.continues.trans hcontinues2
  refine ⟨release_step (s1.trans (s2.trans s3) |>.mono (by simp))
    (hp.lends.trans (s2.trans s3)) hrelease, hcloses, fun w m x havoid hleft hfound ready => ?_⟩
  subst hfound
  have hsteady := ready.steady s1 hcontinues1.grows hp
  refine ready.bind s1 hcontinues1 (fun ready => (hrun1 w m ready).within) (fun _ hf => hf.elim) id
    (fun _ _ _ _ hg => by cases hg) fun k m1 hk _ hvalue ready1 => ?_
  obtain ⟨hreg, hwithin⟩ := hvalue
  have hsame : ∀ seen ∈ nullSeen, m1.register seen = m.register seen := fun seen hs =>
    hwithin.registers seen (fun hf => hf.elim (fun hf => (hseen seen hs).taken hf.1) (havoid seen hs).lent) id
  have hne : ∀ seen ∈ nullSeen, p.1 ≠ seen := fun seen hs =>
    ready.apart hcontinues1.grows hp (hseen seen hs).taken (havoid seen hs)
  have ready1' : Ready w ((p.1, k) :: K) c1 c' m1 := by
    have hheld := ready1.hold hsteady.1 hsteady.2
    rwa [hreg] at hheld
  have hmarked := hrun2 w m1 (ready1.first s2 hcontinues2.grows hcontinues2.guarded)
  refine ready1'.bind s2 hcontinues2 (fun _ => hmarked) (fun r hr => ?_) (by simp)
    (fun _ _ _ _ hg => by cases hg) fun _ m2 _ _ hmark ready2 => ?_
  · exact ⟨(havoid r hr).cons (hne r hr), .inl hr⟩
  · have hx : m2.register left = x := (ready2.held _ (List.mem_cons_of_mem _ hleft)).2.2
    have hk' : m2.register p.1 = k := (ready2.held _ List.mem_cons_self).2.2
    obtain ⟨o, hstep⟩ := step_compareItem hop p.1 (w.addr dest.index) c2.size m2
    rw [hx, hk'] at hstep
    refine ready2.emitBranch (e3.of_builder (release_builder hrelease)) hcopy hstep rfl hk rfl
      (fun seen hs => ?_) (.of_writes (.lastCompare m2 o) fun _ => False.elim)
    rw [← hsame seen hs, ← hreg]
    exact hmark seen hs

/-! ## Comparing all items -/

theorem Meaning.chainOutcome_cons (operand : Expr) (x : Value) (env : Env) (unknown : Bool)
    (μ : Meaning) (rest : List Meaning) :
    chainOutcome operand x env unknown (μ :: rest) = (do
      let k ← μ.value env
      if itemOrder operand env x k = some .eq then return some true
      else chainOutcome operand x env (unknown || μ.expr.canBeNull && k.isNull) rest) := rfl

section

variable (h : Arguments σ K items μs)

include h

/-- The items are compared, and a register is NULL behind the last one if the outcome is unknown. -/
theorem Gen.compareItems_marked {seen : Int}
    (hmakes : (compareItems left (Operand.ofOption .collation found) operand.affinity (some seen)
      matched ifFalse items).Makes c () c') (hc : c.Good σ) (hseen : c.Open seen) (hmatched : c.Made matched)
    (hids : Unused (itemIds items) c) : Step σ (itemIds items) c c' ∧ ∀ (w : World σ) m x, w.Avoids K seen →
      (left, x) ∈ K → operand.collationName?.bind w.env.collation = found → Ready w K c c' m →
      RunsFrom w (· = seen) c c' (fun env => chainOutcome operand x env (m.register seen).isNull μs)
        (fun o => if o = some true then some matched else none)
        (fun o m' => o ≠ some true → (m'.register seen).isNull = o.isNone) m := by
  induction h generalizing c with
  | nil =>
    obtain ⟨-, rfl⟩ := makes_pure.1 hmakes
    refine ⟨.refl hc, fun w m x _ _ _ _ => .done rfl rfl ?_ fun _ => ?_⟩
    · split <;> simp_all
    · cases (m.register seen).isNull <;> rfl
  | @cons item μ items μs hitem _ ih =>
    simp only [compareItems_cons, Option.isSome_some, Bool.or_true, if_true, makes_bind] at hmakes
    obtain ⟨⟨⟩, c1, hone, hrest⟩ := hmakes
    obtain ⟨s1, -, hrun1⟩ := compareItem_spec (.inl ⟨rfl, rfl⟩) hitem.1 hone hc (by rintro _ ⟨⟩; exact hseen) hmatched
      hids.left
    obtain ⟨s2, hrun2⟩ := ih hrest s1.good (hseen.step s1) (s1.made hmatched) (hids.right s1)
    refine ⟨s1.trans s2, fun w m x havoid hleft hfound ready => ?_⟩
    have hk := s2.continues
    have hfirst := hrun1 w m x (by rintro _ ⟨⟩; exact havoid) hleft hfound
    refine ready.bind s1 hk hfirst (by rintro _ ⟨⟩; exact ⟨havoid, .inl rfl⟩) (fun hnone => ?_) ?_ ?_
    · rw [chainOutcome_cons, hnone]
      rfl
    · intro k l m1 hk' hgoes _
      split at hgoes
      · rename_i heq
        cases hgoes
        refine ⟨some true, ?_, rfl, by simp⟩
        rw [chainOutcome_cons, hk']
        simp_all
      · cases hgoes
    · intro k m1 hk' hgoes hmark ready1
      split at hgoes
      · cases hgoes
      · rename_i hne
        refine (hrun2 w m1 x havoid hleft hfound ready1).congr ?_
        rw [chainOutcome_cons, hk', hmark seen rfl, hitem.2]
        simp_all

/-- The items are compared, and what differs from all of them goes on at a label. -/
theorem Gen.compareItems_unmarked (hne : items ≠ [])
    (hmakes : (compareItems left (Operand.ofOption .collation found) operand.affinity none
      matched ifFalse items).Makes c () c') (hc : c.Good σ) (hmatched : c.Made matched) (hfalse : c.Made ifFalse)
    (hids : Unused (itemIds items) c) : Step σ (itemIds items) c c' ∧ Closes c c' ∧
      ∀ (w : World σ) m x unknown, (w.addr matched.index).toNat = c'.size → (left, x) ∈ K →
      operand.collationName?.bind w.env.collation = found → Ready w K c c' m →
      RunsFrom w nowhere c c' (fun env => chainOutcome operand x env unknown μs)
        (verdict ifFalse ifFalse) (fun _ _ => True) m := by
  induction h generalizing c with
  | nil => exact absurd rfl hne
  | @cons item μ items μs hitem hitems ih =>
    cases hitems with
    | nil =>
      simp only [compareItems_cons, List.isEmpty_nil, Bool.not_true, Option.isSome_none,
        Bool.or_self, Bool.false_eq_true, if_false, makes_bind] at hmakes
      obtain ⟨⟨⟩, c1, hone, hrest⟩ := hmakes
      obtain ⟨-, rfl⟩ := makes_pure.1 hrest
      obtain ⟨s1, hcloses, hrun1⟩ := compareItem_spec (.inr ⟨rfl, rfl⟩) hitem.1 hone hc (by simp) hfalse hids.left
      refine ⟨s1.mono (by simp), hcloses, fun w m x unknown _ hleft hfound ready => ?_⟩
      have hrun := (hrun1 w m x (by simp) hleft hfound ready).mono (T := nowhere) (by simp)
      refine hrun.map (f := fun k => if itemOrder operand w.env x k = some .eq then some true
        else if unknown || μ.expr.canBeNull && k.isNull then none else some false) ?_ (fun k => ?_)
        fun _ _ _ => trivial
      · rw [chainOutcome_cons]
        cases μ.value w.env with
        | none => rfl
        | some k =>
          simp only [Option.bind_eq_bind, Option.bind_some, Option.map_some, chainOutcome]
          split <;> rfl
      · by_cases heq : itemOrder operand w.env x k = some .eq
        · simp [heq, verdict]
        · simp only [heq, if_false]
          split <;> simp_all [verdict]
    | @cons item2 μ2 items μs hitem2 hitems =>
      simp only [compareItems_cons _ _ _ _ _ _ item, List.isEmpty_cons, Bool.not_false,
        Option.isSome_none, Bool.or_false, if_true, makes_bind] at hmakes
      obtain ⟨⟨⟩, c1, hone, hrest⟩ := hmakes
      obtain ⟨s1, -, hrun1⟩ := compareItem_spec (.inl ⟨rfl, rfl⟩) hitem.1 hone hc (by simp) hmatched hids.left
      obtain ⟨s2, hcloses, hrun2⟩ := ih (by simp) hrest s1.good (s1.made hmatched) (s1.made hfalse) (hids.right s1)
      refine ⟨s1.trans s2, hcloses.after s1.size_le, fun w m x unknown haddr hleft hfound ready => ?_⟩
      have hk := s2.continues
      refine ready.bind s1 hk (hrun1 w m x (by simp) hleft hfound) (by simp) (fun hnone => ?_) ?_ ?_
      · rw [chainOutcome_cons, hnone]
        rfl
      · intro k l m1 hk' hgoes _
        split at hgoes
        · rename_i heq
          cases hgoes
          refine ⟨some true, ?_, haddr, trivial⟩
          rw [chainOutcome_cons, hk']
          simp_all
        · cases hgoes
      · intro k m1 hk' hgoes _ ready1
        split at hgoes
        · cases hgoes
        · rename_i hdiffers
          refine (hrun2 w m1 x (unknown || μ.expr.canBeNull && k.isNull) haddr hleft hfound ready1).congr ?_
          rw [chainOutcome_cons, hk']
          simp_all

/-! ## The test -/

/-- The test by comparison with each item has the outcome of the chain. -/
theorem Gen.testChain_spec {ifNull : Label} {codes : String} (hne : items ≠ [])
    (hcodes : codes = Affinity.codes [operand.affinity])
    (hmakes : (testChain operand items left codes ifFalse ifNull).Makes c () c') (hc : c.Good σ)
    (hfalse : c.Made ifFalse) (hnull : c.Made ifNull) (hids : Unused (itemIds items) c) :
    Step σ (itemIds items) c c' ∧ Closes c c' ∧ ∀ (w : World σ) x, (left, x) ∈ K →
      Runs w K nowhere c c' (fun env => chainOutcome operand x env x.isNull μs)
        (verdict ifFalse ifNull) (fun _ _ => True) := by
  have haffinity : (codes.toList.head?.bind Affinity.ofCode?).getD .blob = operand.affinity := by
    simp [hcodes, Affinity.codes]
  simp only [testChain, haffinity, makes_bind] at hmakes
  obtain ⟨found, c1, hlookup, matched, c2, hlabel, hmakes⟩ := hmakes
  obtain ⟨s1, hb1, hfinds⟩ := lookup_collation?_spec hc hlookup
  obtain ⟨s2, hnew⟩ := label_spec hlabel s1.good
  have hfalse2 := (s1.trans s2).made hfalse
  have hnull2 := (s1.trans s2).made hnull
  have hids2 := (hids.step s1).step s2
  have hsize1 : c1.size = c.size := by rw [size, hb1, size]
  by_cases hsame : ifFalse = ifNull
  · -- NULL needs no place of its own
    subst hsame
    simp only [if_true, pure_bind, makes_bind] at hmakes
    obtain ⟨⟨⟩, c4, hcompare, hresolve⟩ := hmakes
    obtain ⟨s4, hcloses, hrun⟩ := compareItems_unmarked h hne hcompare s2.good hnew.made hfalse2 hids2
    obtain ⟨s5, hcontinues, hsize, hplace⟩ := hnew.resolve hresolve s2 s4
    refine ⟨(s1.trans s5).mono (by simp), resolve_closes hresolve
      (hcloses.after (s1.trans s2).size_le), fun w x hleft m ready => ?_⟩
    have hfound := w.finds hfinds
    have haddr : (w.addr matched.index).toNat = c4.size := (hplace _ ready.settled).trans hsize
    refine ready.silent s1 s5.grows hsize1 fun ready1 => ?_
    refine ready1.silent s2 (s4.continues.trans hcontinues).grows hnew.size fun ready2 => ?_
    exact ready2.before s4 hcontinues.grows hcontinues.guarded hsize fun m2 ready3 =>
      hrun w m2 x x.isNull haddr hleft hfound ready3
  · simp only [if_neg hsame, pure_bind, makes_bind] at hmakes
    obtain ⟨seen, c3, htemp, ⟨⟩, c4, hbits, ⟨⟩, c5, hcompare, ⟨⟩, c6, hisNull, ⟨⟩, c7, hgoto, ⟨⟩, c8,
      hrelease, hresolve⟩ := hmakes
    obtain ⟨s3, htaken⟩ := getTemp_spec htemp s2.good
    obtain ⟨s4, e4⟩ := emit_spec hbits s3.good (by simp)
    obtain ⟨s5, hrun⟩ := compareItems_marked h hcompare s4.good (htaken.isOpen.step s4)
      ((s3.trans s4).made hnew.made) ((hids2.step s3).step s4)
    have s25 := s3.trans (s4.trans s5)
    obtain ⟨s6, e6⟩ := emitJump_spec hisNull s5.good (by simp) (s25.made hnull2)
    obtain ⟨s7, e7⟩ := emitJump_spec hgoto s6.good (by simp) ((s25.trans s6).made hfalse2)
    have htaken7 : Taken c2 c7 seen := htaken.trans (s4.trans (s5.trans (s6.trans s7)))
    have s8 := releaseTemp_step (s25.trans (s6.trans s7)) htaken7 hrelease
    obtain ⟨s9, hcontinues, hsize, hplace⟩ := hnew.resolve hresolve s2 s8
    have hcloses : Closes c6 c' := resolve_closes hresolve
      ((emitJump_closes hgoto (by simp)).of_builder (releaseTemp_builder hrelease))
    have hbefore := s1.trans (s2.trans (s25.trans s6))
    refine ⟨(s1.trans s9).mono (by simp), hcloses.after hbefore.size_le, fun w x hleft m ready => ?_⟩
    have hfound := w.finds hfinds
    have haddr : (w.addr matched.index).toNat = c'.size := hplace _ ready.settled
    have hk6 : Continues c6 c' := by
      refine (s7.continues.extend (by rw [e7.size]; omega) fun _ => releaseTemp_extends hrelease).trans hcontinues
    have hk5 := s6.continues.trans hk6
    have hk4 := s5.continues.trans hk5
    have hk3 := s4.continues.trans hk4
    have hk2 := s3.continues.trans hk3
    refine ready.silent s1 s9.grows hsize1 fun ready1 => ?_
    refine ready1.silent s2 hk2.grows hnew.size fun ready2 => ?_
    have havoid := ready2.avoids htaken hk3.grows
    have hscratch := ready2.scratch htaken hk3.grows
    have hsize3 : c3.size = c2.size := by rw [size, getTemp_builder htemp, size]
    suffices hinto : RunsFrom w (· = seen) c2 c'
        (fun env => chainOutcome operand x env x.isNull μs) (verdict ifFalse ifNull)
        (fun _ _ => True) m from
      hinto.mono fun r hr => .inr (by rw [hr]; exact hscratch)
    refine ready2.silent s3 hk3.grows hsize3 fun ready3 => ?_
    have hx : m.register left = x := (ready3.held _ hleft).2.2
    have hpos : 0 ≤ seen := htaken.isOpen.nonneg
    refine ready3.bind s4 hk4 (fun ready => ready.emitSet (d := fun _ => some (Value.bitAnd x x)) e4 (by simp) hpos
        ((step_bitAnd hpos).trans (by rw [hx])) rfl) havoid.only
      (by simp) (fun _ _ _ _ hg => by cases hg) fun v m1 hv _ hset ready4 => ?_
    · have hunknown : (m1.register seen).isNull = x.isNull := by
        rw [hset, ← Option.some.inj hv, Value.isNull_bitAnd, Bool.or_self]
      refine ready4.bind s5 hk5 (fun ready => (hrun w m1 x havoid hleft hfound ready).congr (d := fun env =>
          chainOutcome operand x env x.isNull μs) (by rw [hunknown])) (by rintro _ ⟨⟩; exact ⟨havoid, .inl rfl⟩) id
          ?_ ?_
      · intro o l m2 ho hgoes _
        split at hgoes
        · rename_i htrue
          cases hgoes
          exact ⟨o, ho, by rw [htrue, haddr]; rfl, trivial⟩
        · cases hgoes
      · intro o m2 ho hgoes hmark ready5
        have hopen : o ≠ some true := by
          rintro rfl
          cases hgoes
        have hextends : Extends nowhere c7.Free c7 c' :=
          (releaseTemp_extends hrelease).trans (resolve_extends hresolve s8.good (s8.made hnew.made)
            ((s8.labels matched hnew.made).trans hnew.unresolved)) fun _ _ hf => hf
        have hsize8 : c'.size = c7.size := by
          rw [hsize, size, releaseTemp_builder hrelease, size]
        have hsealed : c7.Sealed := (emitJump_closes hgoto (by simp)).isSealed
        have htest (ready : Ready w K c5 c6 m2) : RunsFrom w nowhere c5 c6 (fun _ => some o.isNone)
            (fun t => if t then some ifNull else none) (fun _ _ => True) m2 := by
          refine ready.emitBranch e6 (by simp) (step_isNull rfl) rfl rfl ?_ trivial (.refl w _ _ _ m2)
          rw [← hmark hopen]
          rfl
        refine ready5.bindBranch s6 hk6 htest (fun _ hf => hf.elim) (by simp) (fun m3 ht _ => ?_)
          fun m3 ht _ ready6 => ?_
        · cases o with
          | some b => cases ht
          | none => exact ⟨none, ho, rfl, trivial⟩
        · refine ready6.before s7 hextends (.inr (.inl hsealed)) hsize8 fun m3 ready7 => ?_
          rcases o with _ | _ | _
          · cases ht
          · exact ready7.emitGoto e7 ho rfl trivial
          · exact absurd rfl hopen

end

end

end ScalarSql
