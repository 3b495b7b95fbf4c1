import ScalarSql.Proofs.Code.KeyTables

/-!
# Ephemeral tables that are filled once

The table of a list that depends on no row is filled by a routine: code behind an instruction that lets
it run a first time only. Later runs rely on the table that the first one left (`World.Kept`).

A routine is known to the compiler only behind its end, but its code stands in the program before. So
it is run in a world that does not know it (`World.without`), and what that world says is carried over
to the whole one.
-/

namespace ScalarSql

open Compiler Gen Instr Machine Meaning

variable {σ : Scope} {w : World σ} {K : Known} {T : Int → Prop} {ids : List Identity}
  {c c1 c2 c' : Compiler} {m m1 : Machine} {n : Int} {cs : List (Option Collation)} {keys : List Key} {ret : Int}

/-! ## Routines that are not known yet -/

def Compiler.enlist (c : Compiler) (own : Identity × Routine) : Compiler :=
  { c with routines := own :: c.routines }

/-- The world in which a routine is not known. -/
def World.without (w : World σ) (own : Identity × Routine) : World σ :=
  { w with routines := w.routines.filter (· ≠ own) }

section

variable {own : Identity × Routine}

theorem World.mem_without {p : Identity × Routine} : p ∈ (w.without own).routines ↔ p ∈ w.routines ∧ p ≠ own := by
  simp [World.without]

theorem Compiler.Step.enlist (s : Step σ ids c c1) (hnew : own.1 ∉ c1.used)
    (hentry : c.size ≤ own.2.entry ∧ own.2.entry < c1.size)
    (hresult : c.cursors ≤ own.2.result ∧ own.2.result < c1.cursors) : Step σ (own.1 :: ids) c (c1.enlist own) :=
  { s with
    good :=
      { s.good with
        identities := List.nodup_cons.2 ⟨hnew, s.good.identities⟩
        routines := List.forall_mem_cons.2 ⟨⟨by omega, hentry.2, hresult.2⟩, s.good.routines⟩ }
    grows :=
      { s.grows with
        routines := by
          obtain ⟨new, hnew, hplace⟩ := s.grows.routines
          exact ⟨own :: new, congrArg (own :: ·) hnew, List.forall_mem_cons.2 ⟨⟨hentry.1, hresult.1⟩, hplace⟩⟩ }
    used := List.forall_mem_cons.2 ⟨.inr List.mem_cons_self, fun i hi =>
      (s.used i hi).imp_right (List.mem_cons_of_mem _)⟩
    shared := s.shared.mono fun _ => List.mem_cons_of_mem _ }

/-- Code that ends with coming to know a routine, without the routine. -/
theorem Ready.without (h : Ready w K c (c1.enlist own) m) (hc1 : c1.Good σ) (hnew : own ∉ c1.routines) :
    Ready (w.without own) K c c1 m :=
  { h with
    good := hc1
    registered p hp := World.mem_without.2 ⟨h.registered p (List.mem_cons_of_mem _ hp), by
      rintro rfl
      exact hnew hp⟩
    routines p hp := by
      obtain ⟨hp, hne⟩ := World.mem_without.1 hp
      exact (h.routines p hp).imp_left fun hp => (List.mem_cons.1 hp).resolve_left hne
    kept p hp := h.kept p (World.mem_without.1 hp).1 }

/-- What the run of a routine may change, once the routine is known. -/
theorem Within.enlist (h : Within (w.without own) T c c1 m m1) (hkept : w.Kept own m1) :
    Within w T c (c1.enlist own) m m1 :=
  { h with
    kept hold p hp hlo hhi := by
      by_cases hown : p = own
      · exact hown ▸ hkept
      · exact h.kept (fun q hq => hold q (World.mem_without.1 hq).1) p (World.mem_without.2 ⟨hp, hown⟩) hlo hhi }

end

theorem Frame.withTable (h : Frame w T c c1 m m1) (hn : c.cursors ≤ n ∧ n < c1.cursors)
    (cs : List (Option Collation)) (keys : List Key) : Frame w T c c1 m (m1.withTable n cs keys) :=
  { h with
    cursors k hk := by
      rw [anchor?_withTable, if_neg (by omega)]
      exact h.cursors k hk
    tables_le := by
      rw [withTable_ephemeral, Array.size_push]
      exact Nat.le_succ_of_le h.tables_le
    tables t ht := by
      have hle := h.tables_le
      rw [withTable_ephemeral, Array.getElem?_push, if_neg (by omega)]
      exact h.tables t ht
    separate hs := (h.separate hs).withTable n cs keys }

/-! ## The code of a routine -/

/-- The code of a routine that runs once, with its instructions complete: the address behind it is
loaded, an instruction jumps to the end if it was run before, then the body stands, and the routine
returns to the address that was loaded. -/
structure RoutineCode (σ : Scope) (ids : List Identity) (ret : Int) (c c1 c2 c3 c' : Compiler) : Prop where
  load : Step σ [] c c1 ∧ Emits c c1 fun _ => .of .integer c3.size ret
  once : Step σ [] c1 c2 ∧ Emits c1 c2 fun _ => { of .once with p2 := c3.size }
  body : Step σ ids c2 c3
  ret : Step σ [] c3 c' ∧ Emits c3 c' fun _ => .of .ret ret
  routines : c2.routines = c.routines

theorem Gen.routine_code {load entry address : Int} {c3 c4 c5 c6 : Compiler}
    (hload : (emitAt (.of .integer 0 ret)).Makes c load c1) (honce : (emitAt (.of .once)).Makes c1 entry c2)
    (hc : c.Good σ) (hc2 : c2.Good σ → Step σ ids c2 c3) (hjump : (jumpHere entry).Makes c3 () c4)
    (hend : (emitAt (.of .ret ret)).Makes c4 address c5)
    (hmodify : (modifyAt load fun i => { i with p1 := address }).Makes c5 () c6) :
    entry = c.size + 1 ∧ ∃ d1 d2 d3, RoutineCode σ ids ret c d1 d2 d3 c6 ∧
      d2.size = c2.size ∧ d2.cursors = c2.cursors ∧ d3.size = c3.size ∧
      (∀ (w : World σ) K m, Ready w K d2 d3 m → Ready w K c2 c3 m) ∧
      ∀ (w : World σ) T m m', Within w T c2 c3 m m' → Within w T d2 d3 m m' := by
  obtain ⟨rfl, hinc1, hgood1, hsize1⟩ := emitAt_incomplete hload hc (by simp)
  obtain ⟨rfl, hinc2, hgood2, hsize2⟩ := emitAt_incomplete honce hgood1 (by simp)
  have s3 := hc2 hgood2
  let loaded (i : Instr) : Instr := { i with p1 := c3.size }
  let skipping (i : Instr) : Instr := { i with p2 := c3.size }
  have hc4 : c4 = c3.patch c1.size skipping := makes_jumpHere.1 hjump
  obtain ⟨haddress, rfl⟩ := makes_emitAt.1 hend
  have haddress : address = c3.size := by
    rw [haddress, hc4, Builder.here]
    exact congrArg _ (c3.patch_size _ _)
  obtain ⟨load1, emits1⟩ := emitAt_patch (f := loaded) hload hc (by simp) fun _ => rfl
  obtain ⟨once2, emits2⟩ := emitAt_patch (f := skipping) honce hgood1 (by simp) fun _ => rfl
  have hbody := s3.patch hinc2 (f := skipping) fun _ => rfl
  have hinc2' := hinc1.extends once2.grows
  have hinc3' := hinc2'.extends hbody.grows
  have hlt : c.size < (c3.patch c1.size skipping).size := hinc3'.lt
  have hret : (emit (.of .ret ret)).Makes ((c3.patch c1.size skipping).patch c.size loaded) () c6 := by
    rw [makes_emit, makes_modifyAt.1 hmodify, haddress, hc4]
    simp only [Compiler.patch]
    rw [Builder.modifyAt_emit (b := c3.builder.modifyAt c1.size skipping) hlt]
  have once2' := once2.patch (f := loaded) hinc1 fun _ => rfl
  have hbody' := hbody.patch (f := loaded) hinc2' fun _ => rfl
  have hsize3 : ((c3.patch c1.size skipping).patch c.size loaded).size = c3.size := by simp
  refine ⟨by rw [hsize1]; rfl, c1.patch c.size loaded, (c2.patch c1.size skipping).patch c.size loaded,
    (c3.patch c1.size skipping).patch c.size loaded, ⟨⟨load1, ?_⟩, ⟨once2', ?_⟩, hbody',
      emit_spec hret hbody'.good (by simp), ?_⟩, by simp, rfl, hsize3, fun w K m h => ?_,
    fun w T m m' h => h.patch.patch⟩
  · rw [hsize3]
    exact emits1
  · rw [hsize3]
    exact emits2.patch (f := loaded) hinc1.lt
  · obtain ⟨-, rfl⟩ := makes_emitAt.1 hload
    obtain ⟨-, rfl⟩ := makes_emitAt.1 honce
    rfl
  · exact (h.unpatch once2.good hbody.good hinc2').unpatch hgood2 s3.good hinc2

/-! ## The run of a routine -/

theorem Instr.step_ret_behind {a : Nat} (ha : a < 2147483648) (hret : m.register ret = .integer (Int64.ofInt a)) :
    ((of .ret ret).step a).outcome m = (.ok (.goto (a + 1)), m) := by
  have hint : (Int64.ofInt a).toInt = a := Int64.toInt_ofInt_of_le (by omega) (by omega)
  have hvalue : (m.register ret).asInteger.toInt = a := by
    rw [hret]
    exact hint
  rw [step_ret, hvalue]
  rfl

section

variable {c0 d1 d2 d3 : Compiler} {ret : Int} {own : Identity × Routine} {α : Type}
  {values : Env → Option α} {d : Env → Option (List (Option Collation) × List Key)}

/-- A routine that fills a table leaves the table of its node: by its first run, or by one before. -/
theorem RoutineCode.runsFrom (code : RoutineCode σ ids ret c d1 d2 d3 c1) (s0 : Step σ [] c0 c)
    (hsize0 : c.size = c0.size) (hroutines : c.routines = c0.routines) (hret : Taken c0 c ret)
    (hn : c0.cursors ≤ n ∧ n < c.cursors) (s2 : Step σ [] c1 c2) (hsize2 : c2.size = c1.size)
    (hentry : own.2.entry = c.size + 1) (hresult : own.2.result = n) (hnew : own ∉ c2.routines)
    (hfill : ∀ (w : World σ) m, n < d2.cursors → ¬ σ.cursors n → Ready w K d2 d3 m →
      Leads w.ops (fun b m' => ∃ table, d w.env = some table ∧ b = d3.size ∧
      Within w nowhere d2 d3 (m.withTable n table.1 table.2) m') (values w.env = none) (d3.size - d2.size) d2.size m)
    (hvalues : ∀ table, d w.env = some table → ∃ a, values w.env = some a)
    (hnode : (σ.node own.1).bind (·.keyTable w.env.bare) = d w.env) (ready : Ready w K c0 (c2.enlist own) m) :
    RunsFrom w nowhere c0 (c2.enlist own) values (fun _ => none)
      (fun _ m' => ∃ table t, d w.env = some table ∧ m'.Tabled n t table.1 table.2) m := by
  obtain ⟨⟨load, emits1⟩, ⟨once, emits2⟩, body, ⟨back, emits3⟩, hknown⟩ := code
  have hk3 := back.continues.trans s2.continues
  have hk2 := body.continues.trans hk3
  have hk1 := once.continues.trans hk2
  have s02 : Step σ [] c0 d2 := s0.trans (load.trans once)
  have s : Step σ ids c0 c2 := (s02.trans (body.trans (back.trans s2))).mono (by simp)
  have ready0 := ready.without s.good hnew
  have hsize1 := emits1.size
  have hsize12 := emits2.size
  have hsize23 := body.size_le
  have hsize3 := emits3.size
  have hend : (c2.enlist own).size = c2.size := rfl
  have hop1 := ready0.emitted emits1 (by omega) hk1.grows (by simp)
  have hop2 := ready0.emitted emits2 (by omega) hk2.grows (by simp)
  have hop3 := ready0.emitted emits3 (by omega) s2.grows (by simp)
  have haddress : d3.size < 2147483648 := Nat.lt_trans (Array.getElem?_eq_some_iff.1 hop3).1 w.addresses
  have hpos : 0 ≤ ret := hret.isOpen.nonneg
  have hscratch : w.Scratch c0 ret := ready0.scratch hret (load.continues.trans hk1).grows
  have hown : own ∈ w.routines := ready.registered own List.mem_cons_self
  have hscope : ¬ σ.cursors n := fun hc => by
    have hcursors := ready.cursors n hc
    have hle := ((load.continues.trans hk1).grows).cursors
    have hsame : (c2.enlist own).cursors = c2.cursors := rfl
    omega
  let m1 := m.setRegister ret.toNat (.integer (Int64.ofInt d3.size))
  have hwrites : m.Writes (· = ret) m1 := .setRegister m hpos _
  have hvalue : m1.register ret = .integer (Int64.ofInt d3.size) := register_setRegister_self m hpos _
  unfold RunsFrom
  rw [hend, ← hsize0]
  refine Leads.next hop1 (step_integer _ hpos) (k := c2.size - c.size - 1) (by omega) ?_
  rw [← hsize1]
  by_cases hvisited : d1.size ∈ m.visited
  · -- the routine ran before, and its table is there
    obtain ⟨t, cs, keys, htabled, hkeys⟩ := ready.kept own hown (by omega) (by omega)
      (by rw [hentry]; convert hvisited using 1; omega)
    rw [hresult] at htabled
    refine Leads.jump hop2 ((step_once rfl).trans (if_pos hvisited)) (k := 1) (by omega) ?_
    have htable : d w.env = some (cs, keys) := hnode.symm.trans hkeys
    obtain ⟨a, ha⟩ := hvalues _ htable
    refine .step hop3 (step_ret_behind haddress hvalue) rfl (.inl rfl)
      (.done ⟨⟨a, ha, ?_, (cs, keys), t, htable, ?_⟩, ?_⟩)
    · exact hsize3.symm.trans hsize2.symm
    · exact htabled.frame (anchor?_congr hwrites.cursors n) fun _ => by rw [hwrites.ephemeral]
    · exact .of_writes hwrites fun r hr => .inr (hr ▸ hscratch)
  · refine Leads.next hop2 ((step_once rfl).trans (if_neg hvisited)) (k := (d3.size - d2.size) + 1) (by omega) ?_
    let m2 : Machine := { m1 with visited := d1.size :: m1.visited }
    have hframe : Frame (w.without own) nowhere c0 d2 m m2 := by
      have hset : Frame (w.without own) nowhere c0 d2 m m1 :=
        .of_writes hwrites fun r hr => .inr (hr ▸ hscratch)
      refine { hset with visited := fun a ha => ?_, separate := fun hs =>
        (hset.separate hs).of_anchors (fun _ => rfl) (Nat.le_refl _) }
      rcases List.mem_cons.1 ha with rfl | ha
      · exact .inr (by omega)
      · exact hset.visited a ha
    have ready2 : Ready (w.without own) K d2 c2 m2 := by
      refine ready0.next s02.passes hk2.grows.weaken hframe (fun _ hf => hf.elim) (fun _ a x ha hx hcopy => ?_)
        fun he => ?_
      · obtain rfl : a = d1.size := by omega
        cases hop2.symm.trans hx
        cases hcopy
      · omega
    have hcursors := (load.trans once).grows.cursors
    have hrun := hfill (w.without own) m2 (by omega) hscope (ready2.first body hk3.grows hk3.guarded)
    rw [← hsize12]
    refine hrun.bind ?_ id
    rintro b m3 ⟨table, htable, rfl, hw3⟩
    have hvalue3 : m3.register ret = .integer (Int64.ofInt d3.size) := by
      refine (hw3.registers ret (fun hs => ?_) id).trans hvalue
      exact hs.elim (fun hf => (hret.trans (load.trans once)).taken hf.1) fun hl => (ready.lent ret hl).1 hret.free
    have htabled : m3.Tabled n m2.ephemeral.size table.1 table.2 :=
      tabled_withTable.frame (hw3.cursors n (.inl (by omega))) (hw3.tables _)
    have hwithin : Within (w.without own) nowhere c0 d2 m (m2.withTable n table.1 table.2) := by
      refine ⟨hframe.withTable (by omega) _ _, fun _ p hp hlo hhi => ?_⟩
      -- the code before the body knows no routine that was not there before
      obtain ⟨new, hrest, hlater⟩ := hk2.grows.routines
      have hp2 : p ∈ new ++ d2.routines := hrest ▸ (ready2.routines p hp).resolve_right (by omega)
      rcases List.mem_append.1 hp2 with hp2 | hp2
      · have hentry2 := (hlater p hp2).1
        omega
      · rw [hknown, hroutines] at hp2
        have hbefore := (ready.start.routines p hp2).2.1
        omega
    obtain ⟨a, ha⟩ := hvalues table htable
    refine .step hop3 (step_ret_behind haddress hvalue3) rfl (.inl rfl)
      (.done ⟨⟨a, ha, hsize3.symm.trans hsize2.symm, table, _, htable, htabled⟩, ?_⟩)
    have hwhole := (hwithin.trans hw3 s02.follows body.grows.cursors body.size_le
      ((ready2.divided ready2.start hk2.grows).mono hk3.size_le)).extend hk3.grows.cursors hk3.size_le
      (ready2.divided body.good hk3.grows)
    exact hwhole.enlist fun _ => ⟨_, _, _, hresult ▸ htabled, hnode.trans htable⟩

end

/-! ## The right side of IN -/

section

variable {c0 : Compiler} {items : List (Item Code)} {μs : List Meaning} {e left : Expr} {node : Identity}

theorem Meaning.values_of_keyTable {env : Env} {table : List (Option Collation) × List Key}
    (h : keyTable left μs env = some table) : ∃ values, μs.mapM (·.value env) = some values := by
  obtain ⟨values, hvalues, -⟩ := Option.bind_eq_some_iff.1 h
  exact ⟨values, hvalues⟩

/-- The table of a node is that of the items, if they are constant. -/
def Scope.HasTable (σ : Scope) (node : Identity) (left : Expr) (items : List (Item Code)) (μs : List Meaning) : Prop :=
  (∀ item ∈ items, item.expr.expr.isConstant .plain) → ∀ env : Env, env.CaseBlind →
    (σ.node node).bind (·.keyTable env.bare) = keyTable left μs env

/-- The code leaves the table of the items at a cursor. Registers that were taken before stay taken. -/
structure FillsTable (σ : Scope) (K : Known) (ids : List Identity) (left : Expr) (μs : List Meaning) (n : Int)
    (c0 c c' : Compiler) : Prop where
  step : Step σ ids c0 c'
  cursor : n < c'.cursors
  taken : ∀ r, Taken c0 c r → Taken c0 c' r
  run : ∀ (w : World σ) m, Ready w K c0 c' m →
    RunsFrom w nowhere c0 c' (fun env => μs.mapM (·.value env)) (fun _ => none)
      (fun _ m' => ∃ table t, keyTable left μs w.env = some table ∧ m'.Tabled n t table.1 table.2) m

theorem Gen.fillEach_spec (h : Arguments σ K items μs) (hne : items ≠ []) (s0 : Step σ [] c0 c)
    (hsize0 : c.size = c0.size) (hn : c0.cursors ≤ n ∧ n < c.cursors) {once : Option Int}
    (hmakes : (fillTable e left (.list items) n none).Makes c once c') (hids : Unused (itemIds items) c) :
    FillsTable σ K (itemIds items) left μs n c0 c c' := by
  obtain ⟨-, s, -, hrun⟩ := fillTable_spec h hne (.inl rfl) hmakes s0.good hids
  refine ⟨s0.trans s, Int.lt_of_lt_of_le hn.2 s.grows.cursors, fun r ht => ht.trans s, fun w m ready => ?_⟩
  have hscope : ¬ σ.cursors n := fun hc => by
    have hcursors := ready.cursors n hc
    have hle := s.grows.cursors
    omega
  have hframe : Frame w nowhere c0 c m m := .refl w _ c0 c m
  have ready1 : Ready w K c c' m := ready.next s0.passes s.grows.weaken hframe (fun _ hf => hf.elim)
    (fun hne => absurd hsize0.symm hne) fun _ => rfl
  unfold RunsFrom
  rw [← hsize0]
  refine (hrun w m hn.2 hscope ready1).weaken ?_ id
  rintro b m' ⟨table, htable, rfl, hw⟩
  obtain ⟨values, hvalues⟩ := values_of_keyTable htable
  refine ⟨⟨values, hvalues, rfl, table, _, htable,
    tabled_withTable.frame (hw.cursors n (.inl hn.2)) (hw.tables _)⟩, ?_⟩
  have hwith : Within w nowhere c0 c m (m.withTable n table.1 table.2) :=
    ⟨hframe.withTable hn _ _, fun _ p _ hlo hhi => by omega⟩
  exact hwith.trans hw s0.follows s.grows.cursors s.size_le (ready.divided s0.good s.grows)

/-- The right side becomes an ephemeral table; the table of a node that depends on no row is filled
once. -/
theorem Gen.fillRight_spec (h : Arguments σ K items μs) (hne : items ≠ [])
    (hconst : ∀ item ∈ items, item.expr.expr.isConstant .plain) (s0 : Step σ [] c0 c) (hsize0 : c.size = c0.size)
    (hroutines : c.routines = c0.routines) (hn : c0.cursors ≤ n ∧ n < c.cursors)
    (hmakes : (fillRight e node left (.list items) n).Makes c () c') (hids : Unused (node :: itemIds items) c)
    (hnode : σ.HasTable node left items μs) : FillsTable σ K (node :: itemIds items) left μs n c0 c c' := by
  have hitems : Unused (itemIds items) c := hids.tail
  have hunknown : c.routines.lookup node = none := by
    rw [List.lookup_eq_none_iff]
    intro p hp
    have hused : node ∉ c.used := hids.2 node List.mem_cons_self
    refine bne_iff_ne.2 fun heq => ?_
    rw [heq] at hused
    exact hused (List.mem_append_left _ (List.mem_map_of_mem hp))
  simp only [fillRight, makes_get_bind] at hmakes
  cases hshares : !e.flags.correlated && c.ownRow.isNone with
  | false =>
    simp only [hshares, Bool.false_eq_true, if_false, makes_discard] at hmakes
    obtain ⟨once, hmakes⟩ := hmakes
    have hfills := fillEach_spec h hne s0 hsize0 hn hmakes hitems
    exact { hfills with step := hfills.step.mono fun i hi => List.mem_cons_of_mem _ hi }
  | true =>
    simp only [hshares, hunknown, if_true,
      openRoutine, makes_bind, makes_pure] at hmakes
    obtain ⟨_, _, ⟨ret, c1, halloc, load, c2, hload, entry, c3, honce, rfl, rfl⟩, once, c4, hfill, hclose⟩ := hmakes
    obtain ⟨s1, -, htaken⟩ := allocReg_spec halloc s0.good
    obtain ⟨-, -, hgood2, -⟩ := emitAt_incomplete hload s1.good (by simp)
    obtain ⟨-, -, hgood3, -⟩ := emitAt_incomplete honce hgood2 (by simp)
    have hused3 : c3.used = c1.used := by
      rw [(makes_emitAt.1 honce).2, (makes_emitAt.1 hload).2]
      rfl
    have hitems3 : Unused (itemIds items) c3 := ⟨hitems.1, hused3 ▸ (hitems.step s1).2⟩
    obtain ⟨rfl, s4, hlt, hrun⟩ := fillTable_spec h hne (.inr hconst) hfill hgood3 hitems3
    simp only [closeRoutine, makes_bind, makes_modify] at hclose
    obtain ⟨⟨⟩, c5, hjump, address, c6, hend, ⟨⟩, c7, hmodify, ⟨⟩, c8, hclear, rfl⟩ := hclose
    obtain ⟨rfl, d1, d2, d3, code, hsize2, hcursors2, hsize3, hready, hwithin⟩ :=
      routine_code hload honce s1.good (fun _ => s4) hjump hend hmodify
    have s8 := clearTemps_step code.ret.1.good hclear
    have hsize8 : c8.size = c7.size := by
      rw [clearTemps, makes_modify] at hclear
      rw [hclear]
      rfl
    have hsize1 : c1.size = c.size := by
      rw [allocReg, makes_modifyGet] at halloc
      rw [halloc.2]
      rfl
    have hroutines1 : c1.routines = c.routines := by
      rw [allocReg, makes_modifyGet] at halloc
      rw [halloc.2]
    have s01 : Step σ [] c0 c1 := s0.trans s1
    have s18 : Step σ (itemIds items) c1 c8 :=
      (code.load.1.trans (code.once.1.trans (code.body.trans (code.ret.1.trans s8)))).mono (by simp)
    let own : Identity × Routine := (node, { ret, entry := c1.size + 1, result := n })
    have hnew : own.1 ∉ c8.used := fun hmem => by
      rcases (s1.trans s18).used node hmem with hmem | hmem
      · exact hids.2 node List.mem_cons_self hmem
      · exact (List.nodup_cons.1 hids.1).1 hmem
    have hsizes : c1.size + 1 < c8.size := by
      have h1 := code.load.2.size
      have h2 := code.once.2.size
      have h4 := code.ret.2.size
      omega
    have hcursors1 := s1.grows.cursors
    have hcursors8 := s18.grows.cursors
    refine ⟨((s01.trans s18).enlist hnew ⟨?_, ?_⟩ ⟨hn.1, ?_⟩), ?_, fun r ht => ?_, fun w m ready => ?_⟩
    · show (c0.size : Int) ≤ c1.size + 1
      omega
    · show (c1.size : Int) + 1 < c8.size
      omega
    · show n < c8.cursors
      omega
    · show n < c8.cursors
      omega
    · exact { ht.trans (s1.trans s18) with }
    · refine code.runsFrom s01 (hsize1.trans hsize0) (hroutines1.trans hroutines)
        { htaken with free := s0.free _ htaken.free } ⟨hn.1, by omega⟩ s8 hsize8 rfl rfl
        (fun hmem => hnew (List.mem_append_left _ (List.mem_map_of_mem hmem))) (fun w m hn2 hscope ready2 => ?_)
        (fun _ => values_of_keyTable) (hnode hconst w.env w.caseBlind) ready
      rw [hsize2, hsize3]
      refine (hrun w m (by omega) hscope (hready w K m ready2)).weaken ?_ id
      rintro b m' ⟨table, htable, hb, hw⟩
      exact ⟨table, htable, hb, hwithin w _ _ _ hw⟩

end

end ScalarSql
