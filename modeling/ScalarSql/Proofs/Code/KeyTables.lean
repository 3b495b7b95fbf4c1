import ScalarSql.Proofs.Code.Chains

/-!
# Filling the ephemeral table of IN

A long constant list becomes an ephemeral table. The code that fills it changes a table that was there
when each of its pieces started, so it does not stay within a frame; what it does is said in two steps
instead: the machine behind it differs as a frame allows from the machine before it *with the table
filled* (`Machine.withTable`, `Machine.setTable`).
-/

namespace ScalarSql

open Compiler Gen Machine Meaning

variable {σ : Scope} {w : World σ} {K : Known} {T : Int → Prop} {ids : List Identity}
  {c c1 c2 c' : Compiler} {m m1 : Machine} {n : Int} {t : Nat} {cs : List (Option Collation)}
  {keys : List Key}

/-! ## Other machines -/

/-- Code is ready in a machine that differs in nothing that it relies on. -/
theorem Ready.of_same (h : Ready w K c c' m) (hregisters : ∀ r, m1.register r = m.register r)
    (hparams : m1.params = m.params) (hpending : m1.pending = m.pending)
    (hcursors : ∀ k, σ.cursors k → m1.cursor? k = m.cursor? k) (hkept : w.KeptIn c.size c'.size m1)
    (hseparate : m1.Separate) : Ready w K c c' m1 where
  toPlaced := h.toPlaced
  held p hp := by
    rw [hregisters]
    exact h.held p hp
  params := hparams.trans h.params
  rows k hk := by
    rw [hcursors k hk]
    exact h.rows k hk
  stored k cur hk hcur := by
    rw [hcursors k hk] at hcur
    exact h.stored k cur hk hcur
  pending := hpending.trans h.pending
  constants x hx := by
    rw [hregisters]
    exact h.constants x hx
  kept := hkept
  separate := hseparate
  copied x y k hx hcopy hy hlt hle := by
    rw [hregisters, hregisters]
    exact h.copied x y k hx hcopy hy hlt hle

/-- The routines between two states have results on cursors that were not taken before. -/
def World.Fresh (w : World σ) (c c' : Compiler) : Prop :=
  ∀ p ∈ w.routines, c.size ≤ p.2.entry → p.2.entry < c'.size → c.cursors ≤ p.2.result

theorem Ready.fresh (h : Ready w K c c' m) {pins extra : Int → Prop} (e : Extends pins extra c c') : w.Fresh c c' :=
  fun p hp => (h.divided h.start e p hp).2

theorem World.KeptIn.withTable (h : w.KeptIn c.size c'.size m) (hfresh : w.Fresh c c') (hn : n < c.cursors)
    (cs : List (Option Collation)) (keys : List Key) : w.KeptIn c.size c'.size (m.withTable n cs keys) := by
  intro p hp hlo hhi
  have hresult := hfresh p hp hlo hhi
  refine (h p hp hlo hhi).frame id ?_ fun t ht => ?_
  · rw [anchor?_withTable, if_neg (by omega)]
  · rw [withTable_ephemeral, Array.getElem?_push, if_neg (by omega)]

theorem Ready.withTable (h : Ready w K c c' m) (hfresh : w.Fresh c c') (hn : n < c.cursors) (hscope : ¬ σ.cursors n)
    (cs : List (Option Collation)) (keys : List Key) : Ready w K c c' (m.withTable n cs keys) := by
  refine h.of_same (fun _ => rfl) rfl rfl (fun k hk => ?_) (h.kept.withTable hfresh hn cs keys)
    (h.separate.withTable n cs keys)
  have hne : k ≠ n := fun he => hscope (he ▸ hk)
  rw [Machine.withTable, Machine.cursor?_setCursor, if_neg hne]
  rfl

theorem World.KeptIn.setTable (h : w.KeptIn c.size c'.size m) (hfresh : w.Fresh c c') (hs : m.Separate)
    (hon : m.On n t cs) (hn : n < c.cursors) (keys : List Key) : w.KeptIn c.size c'.size (m.setTable t keys) := by
  intro p hp hlo hhi hv
  have hresult := hfresh p hp hlo hhi
  obtain ⟨t', cs', keys', htabled, hkeys⟩ := h p hp hlo hhi hv
  have hne : t' ≠ t := by
    rintro rfl
    have heq := hs.single _ _ _ _ _ htabled.on hon
    omega
  exact ⟨t', cs', keys', htabled.frame rfl fun _ => setTable_ne hne keys, hkeys⟩

theorem Ready.setTable (h : Ready w K c c' m) (hfresh : w.Fresh c c') (hon : m.On n t cs)
    (hn : n < c.cursors) (keys : List Key) : Ready w K c c' (m.setTable t keys) :=
  h.of_same (fun _ => rfl) rfl rfl (fun _ _ => rfl) (h.kept.setTable hfresh h.separate hon hn keys)
    (h.separate.setTable t keys)

/-- What code may change does not depend on the keys of a table that it does not touch. -/
theorem Within.setTable (h : Within w T c c1 m m1) (hfresh : w.Fresh c c1) (hs : m.Separate) (hon : m.On n t cs)
    (hn : n < c.cursors) (keys : List Key) : Within w T c c1 (m.setTable t keys) (m1.setTable t keys) :=
  { h with
    tables_le := by
      rw [setTable_size, setTable_size]
      exact h.tables_le
    tables t' ht' := by
      rw [setTable_size] at ht'
      by_cases hne : t' = t
      · subst hne
        have hlt : t' < m1.ephemeral.size := Nat.lt_of_lt_of_le ht' h.tables_le
        simp [setTable, ht', hlt]
      · rw [setTable_ne hne, setTable_ne hne, h.tables t' ht']
    separate _ := (h.separate hs).setTable t keys
    kept hkept := by
      have hold : w.KeptIn c.size c1.size m := by
        have hlt := hs.made n t cs hon
        have hback := hkept.setTable hfresh (hs.setTable t keys) hon hn m.ephemeral[t]
        rwa [setTable_setTable, setTable_self (Array.getElem?_eq_getElem hlt)] at hback
      have hon1 : m1.On n t cs := (h.cursors n (.inl hn)).trans hon
      exact (h.kept hold).setTable hfresh (h.separate hs) hon1 hn keys }

/-! ## Inserting the items -/

def Meaning.inserted (col : Collation) (affinity : Affinity) (keys : List Key) (values : List Value) :
    List Key :=
  values.foldl (fun keys v => Key.insert [some col] keys [v.applyAffinity affinity]) keys

section

variable {items : List (Item Code)} {μs : List Meaning} {once once' : Option Int} {value record : Int}
  {affinity : Affinity} {col : Collation}

theorem Gen.insertItems_cons {codes : String} {item : Item Code} (rest : List (Item Code))
    (h : once = none ∨ item.expr.expr.isConstant .plain) :
    insertItems n value record codes once (item :: rest) = (do
      let reg ← item.expr.target value
      emit (.of .makeRecord reg 1 record (.affinity codes))
      emit (.of .idxInsert n record)
      insertItems n value record codes once rest) := by
  cases once with
  | none => simp [insertItems]
  | some address =>
    have hconst := h.resolve_left (by simp)
    simp [insertItems, hconst]

theorem Gen.recordItem_spec {item : Code} {d : Reading} {reg : Int} (h : item.Realizes σ K d)
    (htarget : (item.target value).Makes c reg c1)
    (hemit : (emit (.of .makeRecord reg 1 record (.affinity (Affinity.codes [affinity])))).Makes c1 () c2)
    (hc : c.Good σ) (hvalue : c.Open value) (hrecord : 0 ≤ record) (hids : Unused item.expr.identities c) :
    Step σ item.expr.identities c c2 ∧ ∀ (w : World σ), w.Avoids K value →
      Runs w K (fun r => r = value ∨ r = record) c c2 d (fun _ => none)
        (fun v m => m.records.lookup record = some [v.applyAffinity affinity]) := by
  obtain ⟨s1, hfound, hrun⟩ := h.target htarget hc hvalue hids
  obtain ⟨s2, e2⟩ := emit_spec hemit s1.good (by simp)
  refine ⟨(s1.trans s2).mono (by simp), fun w havoid m ready => ?_⟩
  refine ready.bind s1 s2.continues (hrun w havoid m) (fun r hr => ?_) id (fun _ _ _ _ hg => by cases hg) fun v m1 hv _
    hreg ready1 => ?_
  · cases hr
    exact ⟨havoid, .inl (.inl rfl)⟩
  · obtain ⟨m2, hstep, hwrites, hlookup⟩ := Instr.step_makeRecord (a := c1.size) (m := m1) (s := reg) affinity hrecord
    rw [hreg] at hlookup
    exact ready1.emit e2 (by simp) hstep hv rfl hlookup (.of_writes hwrites fun r hr => .inl (.inr hr))

theorem Gen.insertItems_spec (h : Arguments σ K items μs)
    (hconst : once = none ∨ ∀ item ∈ items, item.expr.expr.isConstant .plain)
    (hmakes : (insertItems n value record (Affinity.codes [affinity]) once items).Makes c once' c') (hc : c.Good σ)
    (hvalue : c.Open value) (hrecord : c.Open record) (hids : Unused (itemIds items) c) :
    once' = once ∧ Step σ (itemIds items) c c' ∧
      (items ≠ [] → Closes c c') ∧ ∀ (w : World σ) m t col keys, w.Avoids K value →
      w.Avoids K record → n < c.cursors → m.Tabled n t [some col] keys → Ready w K c c' m →
      Leads w.ops (fun b m' => ∃ values, μs.mapM (·.value w.env) = some values ∧ b = c'.size ∧
          Within w (fun r => r = value ∨ r = record) c c' (m.setTable t (inserted col affinity keys values)) m')
        (μs.mapM (·.value w.env) = none) (c'.size - c.size) c.size m := by
  induction h generalizing c with
  | nil =>
    obtain ⟨rfl, rfl⟩ := makes_pure.1 hmakes
    refine ⟨rfl, .refl hc, fun hne => absurd rfl hne, fun w m t col keys _ _ _ htabled _ => ?_⟩
    refine .done ⟨[], rfl, rfl, ?_⟩
    rw [inserted, List.foldl_nil, setTable_self htabled.keys]
    exact .refl w _ _ _ m
  | @cons item μ items μs hitem hitems ih =>
    rw [insertItems_cons items (hconst.imp_right fun hall => hall item List.mem_cons_self)] at hmakes
    simp only [makes_bind] at hmakes
    obtain ⟨reg, c1, htarget, ⟨⟩, c2, hrecords, ⟨⟩, c3, hinsert, hrest⟩ := hmakes
    obtain ⟨s2, hrun2⟩ := recordItem_spec hitem.1 htarget hrecords hc hvalue hrecord.nonneg hids.left
    obtain ⟨s3, e3⟩ := emit_spec hinsert s2.good (by simp)
    have s23 : Step σ item.expr.expr.identities c c3 := (s2.trans s3).mono (by simp)
    obtain ⟨hsame, s4, hcloses, hrun4⟩ := ih
      (hconst.imp_right fun hall i hi => hall i (List.mem_cons_of_mem _ hi)) hrest s3.good
      (hvalue.step s23) (hrecord.step s23) (hids.right s23)
    refine ⟨hsame, s23.trans s4, fun _ => ?_, fun w m t col keys havoid1 havoid2 hn htabled ready => ?_⟩
    · by_cases hlast : items = []
      · subst hlast
        obtain ⟨-, rfl⟩ := makes_pure.1 hrest
        exact (emit_closes hinsert (by simp)).after s2.size_le
      · exact (hcloses hlast).after s23.size_le
    · have hk := s3.continues.trans s4.continues
      have hfresh3 : w.Fresh c3 c' := fun p hp => (ready.divided s3.good s4.grows p hp).2
      refine ready.andThen s2.passes hk.grows.weaken
        (hrun2 w havoid1 m (ready.first s2 hk.grows hk.guarded)) ?_ (fun hnone => ?_)
        fun v m2 hv hlookup hw2 hready2 => ?_
      · rintro r (rfl | rfl)
        · exact havoid1
        · exact havoid2
      · rw [List.mapM_cons, hnone]
        rfl
      · -- the record is inserted; then the rest is, into the table with one more key
        have ready2 := hready2 rfl
        have hcursors2 := s2.grows.cursors
        have hcursors3 := s3.grows.cursors
        have htabled2 : m2.Tabled n t [some col] keys := htabled.frame (hw2.cursors n (.inl hn)) (hw2.tables t)
        have hop := ready2.emitted e3 (Nat.le_refl _) s4.grows (by simp)
        have hready3 : Ready w K c3 c' m2 := by
          refine ready2.next s3.passes s4.grows.weaken (.refl w nowhere _ _ m2)
            (fun _ hf => hf.elim) (fun _ a x ha hx hcopy => ?_) fun he => ?_
          · have hsize := e3.size
            obtain rfl : a = c2.size := by omega
            cases hop.symm.trans hx
            cases hcopy
          · have hsize := e3.size
            omega
        let keys1 := Key.insert [some col] keys [v.applyAffinity affinity]
        have hlater := hrun4 w (m2.setTable t keys1) t col keys1 havoid1 havoid2 (by omega)
          (htabled2.setTable keys1) (hready3.setTable hfresh3 htabled2.on (by omega) keys1)
        have hsize3 := e3.size
        have hsize4 := s4.size_le
        refine Leads.next hop (Instr.step_idxInsert hlookup htabled2) (k := c'.size - c3.size) (by omega) ?_
        rw [World.place, Option.elim_none, ← hsize3]
        refine hlater.weaken ?_ fun hnone => ?_
        · rintro b m' ⟨values, hvalues, rfl, hw4⟩
          refine ⟨v :: values, ?_, rfl, ?_⟩
          · rw [List.mapM_cons, hv, hvalues]
            rfl
          · rw [setTable_setTable] at hw4
            have hfresh : w.Fresh c c3 := fun p hp hlo hhi => ready.fresh (s23.trans s4).grows p hp hlo (by omega)
            have hw3 := hw2.extend hcursors3 s3.size_le ((ready.divided s2.good hk.grows).mono s4.size_le)
            exact ((hw3.setTable hfresh ready.separate htabled.on hn _).trans hw4 s23.follows
              s4.grows.cursors s4.size_le (ready.divided s3.good s4.grows))
        · rw [List.mapM_cons, hv, hnone]
          rfl

theorem Gen.fillTable_spec {e left : Expr} (h : Arguments σ K items μs) (hne : items ≠ [])
    (hconst : once = none ∨ ∀ item ∈ items, item.expr.expr.isConstant .plain)
    (hmakes : (fillTable e left (.list items) n once).Makes c once' c') (hc : c.Good σ)
    (hids : Unused (itemIds items) c) : once' = once ∧ Step σ (itemIds items) c c' ∧ c.size < c'.size ∧
      ∀ (w : World σ) m, n < c.cursors → ¬ σ.cursors n → Ready w K c c' m →
      Leads w.ops (fun b m' => ∃ table, keyTable left μs w.env = some table ∧ b = c'.size ∧
          Within w nowhere c c' (m.withTable n table.1 table.2) m')
        (μs.mapM (·.value w.env) = none) (c'.size - c.size) c.size m := by
  simp only [fillTable, makes_bind, makes_pure] at hmakes
  obtain ⟨given, c1, hlookup, col, c2, hbinary, ⟨⟩, c3, hopen, value, c4, hvalue, record, c5, hrecord,
    _, c6, hinsert, ⟨⟩, c7, hrelease1, ⟨⟩, c8, hrelease2, rfl, rfl⟩ := hmakes
  obtain ⟨s1, hb1, hfinds⟩ := lookup_collation?_spec hc hlookup
  obtain ⟨s2, hb2, hcol⟩ := orBinary_spec s1.good hbinary
  obtain ⟨s3, e3⟩ := emit_spec hopen s2.good (by simp)
  obtain ⟨s4, htaken4⟩ := getTemp_spec hvalue s3.good
  obtain ⟨s5, htaken5⟩ := getTemp_spec hrecord s4.good
  obtain ⟨hsame, s6, hcloses, hrun⟩ := insertItems_spec h hconst hinsert s5.good (htaken4.isOpen.step s5) htaken5.isOpen
    (((((hids.step s1).step s2).step s3).step s4).step s5)
  have s02 : Step σ [] c c2 := (s1.trans s2).mono (by simp)
  have s03 : Step σ [] c c3 := (s02.trans s3).mono (by simp)
  have s05 : Step σ [] c c5 := (s03.trans (s4.trans s5)).mono (by simp)
  have hvalue0 : Taken c c4 value := { htaken4 with free := s03.free _ htaken4.free }
  have hrecord0 : Taken c c5 record := { htaken5 with free := s03.free _ (s4.free _ htaken5.free) }
  have hdistinct : some value ≠ some record := fun he => htaken4.taken (Option.some.inj he ▸ htaken5.free)
  have s7 := releaseTemp_step (s05.trans s6) (hvalue0.trans (s5.trans s6)) hrelease1
  have s8 := releaseTemp_step s7 (release_taken (hrecord0.trans s6) hdistinct
      (show (release (some value)).Makes c6 () c7 from hrelease1)) hrelease2
  have hend {extra : Int → Prop} : Extends nowhere extra c6 c8 :=
    (releaseTemp_extends hrelease1).trans (releaseTemp_extends hrelease2) fun _ _ hf => hf
  have hk5 : Continues c5 c8 := s6.continues.extend (hcloses hne).lt fun _ => hend
  have hk4 := s5.continues.trans hk5
  have hk3 := s4.continues.trans hk4
  have hsize2 : c2.size = c.size := by rw [size, hb2, hb1, size]
  have hsize3 := e3.size
  have hsize5 : c5.size = c3.size := by
    rw [size, getTemp_builder hrecord, getTemp_builder hvalue, size]
  have hsize8 : c8.size = c6.size := by
    rw [size, releaseTemp_builder hrelease2, releaseTemp_builder hrelease1, size]
  have hsize6 := s6.size_le
  refine ⟨hsame, s8.mono (by simp), by omega, fun w m hn hscope ready => ?_⟩
  have hcollation : w.env.callCollation [left] = some col := w.callCollation (by simpa using hfinds) hcol
  have hop := ready.emitted e3 (by omega) hk3.grows (by simp)
  have ready5 : Ready w K c5 c6 m := by
    refine (ready.next s05.passes hk5.grows.weaken (.refl w nowhere _ _ m)
      (fun _ hf => hf.elim) (fun _ a x ha hx hcopy => ?_) fun _ => rfl).first s6 hend
      (.inr (.inl (hcloses hne).isSealed))
    obtain rfl : a = c2.size := by omega
    cases hop.symm.trans hx
    cases hcopy
  have hcursors5 := s05.grows.cursors
  have hlater := hrun w (m.withTable n [some col] []) m.ephemeral.size col []
    (ready.avoids hvalue0 hk4.grows) (ready.avoids hrecord0 hk5.grows) (by omega)
    tabled_withTable (ready5.withTable (ready5.fresh s6.grows) (by omega) hscope _ _)
  refine Leads.next (hsize2 ▸ hop) (Instr.step_openEphemeral _ [col]) (k := c6.size - c5.size) (by omega) ?_
  rw [show c.size + 1 = c5.size by omega]
  have htable : keyTable left μs w.env = (μs.mapM fun μ : Meaning => μ.value w.env).map fun values =>
      ([some col], inserted col (if left.affinity = .none then .blob else left.affinity) [] values) := by
    have hcol' : w.env.collation (left.collationName?.getD "BINARY") = some col := by
      simpa [Env.callCollation] using hcollation
    simp only [keyTable, hcol']
    cases μs.mapM fun μ : Meaning => μ.value w.env <;> rfl
  refine hlater.weaken ?_ id
  rintro b m' ⟨values, hvalues, rfl, hw⟩
  refine ⟨_, by rw [htable, hvalues]; rfl, by omega, ?_⟩
  rw [setTable_withTable] at hw
  have hdivided := ready.divided s5.good hk5.grows
  have hend' : Extends nowhere nowhere c6 c8 := hend
  have hw' := ((Within.refl w _ c c5 _).trans hw s05.follows s6.grows.cursors s6.size_le
    (hdivided.mono (by omega))).extend hend'.cursors (by omega) (ready.divided s6.good hend')
  refine hw'.mono ?_
  rintro r (rfl | rfl)
  · exact .inr (ready.scratch hvalue0 hk4.grows)
  · exact .inr (ready.scratch hrecord0 hk5.grows)

end

end ScalarSql
