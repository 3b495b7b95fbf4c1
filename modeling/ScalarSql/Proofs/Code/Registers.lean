import ScalarSql.Proofs.Code.Pool

/-!
# Taking and freeing registers

What each step that takes or frees registers, cursors or labels does to the state, and how constants
are set aside.
-/

namespace ScalarSql

open Builder

namespace Compiler

variable {σ : Scope} {c c1 c2 : Compiler} {ids : List Identity} {r : Int} {highest : Int} {pool : List Int}
  {poolRange : Int × Int} {pins : Int → Prop} {extra : Int → Prop} {x : Instr}

/-- The register was free in the first state, and is taken and holds no constant in the second. -/
structure Taken (c c' : Compiler) (r : Int) : Prop where
  free : c.Free r
  pos : 1 ≤ r
  taken : ¬ c'.Free r
  unhoisted : ¬ c'.HoldsConstant r

theorem Taken.trans (h : Taken c c1 r) (s : Step σ ids c1 c2) : Taken c c2 r :=
  { h with
    taken := s.not_free h.taken
    unhoisted := s.not_holdsConstant h.taken h.unhoisted }

theorem le_highest (h : ¬ c.Free r) : r ≤ c.highest := by
  simp only [Free, not_or, Int.not_lt] at h
  exact h.2

theorem Good.not_holdsConstant (hc : c.Good σ) (h : c.Free r) : ¬ c.HoldsConstant r := by
  rintro ⟨x, hx, rfl⟩
  exact (hc.taken x hx).2 h

/-- Registers may be taken and freed; no constant may be in a register that is free afterwards. -/
theorem Good.of_registers (hc : c.Good σ) (hle : c.highest ≤ highest)
    (hpooled : ∀ r, Pooled { c with highest, pool, poolRange } r → 1 ≤ r ∧ r ≤ highest) (hdistinct : pool.Nodup)
    (hapart : ∀ r ∈ pool, ¬ (poolRange.1 ≤ r ∧ r < poolRange.1 + poolRange.2))
    (htaken : ∀ h ∈ c.hoisted.toList, ¬ Pooled { c with highest, pool, poolRange } h.reg)
    (haside : ∀ r, σ.aside r → ¬ Pooled { c with highest, pool, poolRange } r) :
    Good σ { c with highest, pool, poolRange } :=
  { hc with
    highest := Int.le_trans hc.highest hle
    pooled := hpooled
    distinct := hdistinct
    apart := hapart
    taken h hh := by
      refine ⟨(hc.taken h hh).1, ?_⟩
      rintro (hp | hlt)
      · exact htaken h hh hp
      · exact absurd (Int.le_trans (le_highest (hc.taken h hh).2) hle) (Int.not_le.2 hlt)
    ends x hx hcopy k h1 h2 := by
      obtain ⟨hs, ht, hb⟩ := hc.ends x hx hcopy k h1 h2
      exact ⟨hs, ht, Int.le_trans hb hle⟩
    aside r hr := by
      rintro (hp | hlt)
      · exact haside r hr hp
      · exact absurd (Int.le_trans (le_highest (hc.aside r hr)) hle) (Int.not_le.2 hlt) }

theorem Extends.of_registers (hle : c.highest ≤ highest) : Extends pins extra c { c with highest, pool, poolRange } :=
  { (.refl c : Extends pins extra c c) with keeps := .refl _ _ _, highest := hle }

theorem Step.of_cursors (hc : c.Good σ) {cursors : Int} (hle : c.cursors ≤ cursors) : Step σ [] c { c with cursors } :=
  { Step.refl hc with
    good :=
      { hc with
        routines := fun p hp => by
          obtain ⟨h0, hlt, hcursor⟩ := hc.routines p hp
          exact ⟨h0, hlt, Int.lt_of_lt_of_le hcursor hle⟩ }
    grows := { (Step.refl hc).grows with cursors := hle } }

theorem Step.of_registers (hc : c.Good σ) (hle : c.highest ≤ highest) (hdistinct : pool.Nodup)
    (hapart : ∀ r ∈ pool, ¬ (poolRange.1 ≤ r ∧ r < poolRange.1 + poolRange.2))
    (hpooled : ∀ r, Pooled { c with highest, pool, poolRange } r → c.Pooled r) :
    Step σ [] c { c with highest, pool, poolRange } where
  good := by
    refine hc.of_registers hle (fun r hr => ?_) hdistinct hapart (fun h hh hp => ?_) fun r hr hp => ?_
    · have hbounds := hc.pooled r (hpooled r hr)
      omega
    · exact (hc.taken h hh).2 (.inl (hpooled _ hp))
    · exact hc.aside r hr (.inl (hpooled r hp))
  grows := .of_registers hle
  labels _ _ := rfl
  free r hr := by
    rcases hr with hp | hlt
    · exact .inl (hpooled r hp)
    · exact .inr (Int.lt_of_le_of_lt hle hlt)
  used _ h := .inl h
  shared := .of_eq rfl
  aside := hc.aside

/-- Registers that were taken may be put into the pool. -/
theorem Step.give (s : Step σ ids c c1) (hdistinct : pool.Nodup)
    (hapart : ∀ r ∈ pool, ¬ (poolRange.1 ≤ r ∧ r < poolRange.1 + poolRange.2))
    (hpooled : ∀ r, Pooled { c1 with pool, poolRange } r → c1.Pooled r ∨ Taken c c1 r) :
    Step σ ids c { c1 with pool, poolRange } := by
  have hfree (r : Int) (hr : Free { c1 with pool, poolRange } r) : c.Free r :=
    hr.elim (fun hp => (hpooled r hp).elim (fun hp => s.free r (.inl hp)) (·.free)) fun hlt => s.free r (.inr hlt)
  refine ⟨s.good.of_registers (Int.le_refl _) (fun r hr => ?_) hdistinct hapart (fun x hx hp => ?_) fun r hr hp =>
    s.aside r hr (hfree r (.inl hp)), s.grows.trans (.of_registers (Int.le_refl _)) fun _ _ hf => hf, s.labels, hfree,
    s.used, s.shared, s.aside⟩
  · exact (hpooled r hr).elim (s.good.pooled r) fun ht => ⟨ht.pos, le_highest ht.taken⟩
  · exact (hpooled _ hp).elim (fun hp => (s.good.taken x hx).2 (.inl hp)) fun ht => ht.unhoisted ⟨x, hx, rfl⟩

/-- A register that a value may be computed into: it is taken and holds no constant. -/
structure Open (c : Compiler) (r : Int) : Prop where
  pos : 1 ≤ r
  taken : ¬ c.Free r
  unhoisted : ¬ c.HoldsConstant r

theorem Open.nonneg (h : c.Open r) : 0 ≤ r := Int.le_trans (by decide) h.pos

theorem Taken.isOpen (h : Taken c c1 r) : c1.Open r := ⟨h.pos, h.taken, h.unhoisted⟩

theorem Open.step (h : c.Open r) (s : Step σ ids c c1) : c1.Open r :=
  ⟨h.pos, s.not_free h.taken, s.not_holdsConstant h.taken h.unhoisted⟩

theorem Open.fills (h : c.Open r) (s : Fills σ pins extra ids c c1) (hr : ¬ pins r) : c1.Open r := by
  refine ⟨h.pos, fun hf => h.taken (s.free r hf), fun hholds => ?_⟩
  rcases s.grows.holdsConstant_of_new hholds with hold | hlt | hpin
  · exact h.unhoisted hold
  · exact h.taken (.inr hlt)
  · exact hr hpin

/-- A shared constant, or a result that lists refer to, may be copied to a register that is open. -/
theorem Step.emitCopy (hc : c.Good σ) {s t : Int} (hs : c.HoldsShared s ∨ σ.aside s ∧ ¬ σ.aside t) (ht : c.Open t) :
    Step σ [] c { c with builder := c.builder.emit (.of .copy s t) } where
  good := by
    have hne : t ≠ s := by
      rintro rfl
      rcases hs with hshared | ⟨hresult, hnot⟩
      · exact ht.unhoisted hshared.holdsConstant
      · exact hnot hresult
    refine hc.of_builder (hc.builder.emit _) (by simp [size]) (fun i x hx hcopy => ?_) fun x hx _ k h0 hk => ?_
    · simp only [Builder.emit, Array.getElem?_push] at hx
      split at hx
      · cases hx
        refine ⟨Int.le_refl _, Int.le_trans (by decide) ht.pos, fun j k hj0 hj hk0 hk => ?_, fun _ => rfl⟩
        simp only [Instr.of] at hj hk ⊢
        omega
      · exact hc.copies i x hx hcopy
    · cases (last?_emit c.builder _).symm.trans hx
      obtain rfl : k = 0 := Int.le_antisymm hk h0
      simp only [Instr.of, Int.add_zero]
      exact ⟨hs, fun h => ht.unhoisted h.holdsConstant, le_highest ht.taken⟩
  grows := .of_builder fun _ => emit_keeps _
  labels _ _ := rfl
  free _ h := h
  used _ h := .inl h
  shared := .of_eq rfl
  aside := hc.aside

/-- The copy `x` at the end is made to copy one more register. -/
def widened (c : Compiler) (x : Instr) : Compiler :=
  { c with
    builder := c.builder.modifyAt (c.builder.here - 1) fun i => { i with p3 := x.p3 + 1 } }

theorem widened_last (hx : c.builder.last? = some x) :
    (c.widened x).builder.ops[c.size - 1]? = some { x with p3 := x.p3 + 1 } := by
  have hlast : c.builder.ops[c.size - 1]? = some x := hx
  have hpos := (Array.getElem?_eq_some_iff.1 hlast).1
  have hhere : c.builder.here - 1 = ((c.size - 1 : Nat) : Int) := by
    simp only [here, size] at hpos ⊢
    omega
  rw [widened, hhere, modifyAt_getElem?_self, hlast]
  rfl

/-- The copy at the end may be widened by one register, if the next source is that of a shared constant
or of a result that lists refer to, and the next target is open and no such result. -/
theorem Fills.widen (hc : c.Good σ) (hx : c.builder.last? = some x) (hcopy : x.opcode = .copy)
    (hs : c.HoldsShared (x.p1 + x.p3 + 1) ∨ σ.aside (x.p1 + x.p3 + 1)) (ht : c.Open (x.p2 + x.p3 + 1))
    (haside : ¬ σ.aside (x.p2 + x.p3 + 1)) (hmerged : ¬ σ.Unmerged) :
    Fills σ pins (· = x.p2 + x.p3 + 1) [] c (c.widened x) where
  good := by
    have hlast : c.builder.ops[c.size - 1]? = some x := hx
    have hwide : CopiesShared σ c { x with p3 := x.p3 + 1 } := by
      intro k h0 hk
      by_cases hlt : k ≤ x.p3
      · exact hc.ends x hx hcopy k h0 hlt
      · obtain rfl : k = x.p3 + 1 := by simp only at hk; omega
        simp only [← Int.add_assoc]
        exact ⟨hs.imp_right fun h => ⟨h, haside⟩, fun h => ht.unhoisted h.holdsConstant, le_highest ht.taken⟩
    refine hc.of_builder (hc.builder.modifyAt fun _ h => h) (by simp [size]) (fun i y hy hcopy' => ?_) fun y hy _ => ?_
    · by_cases hi : (i : Int) = c.builder.here - 1
      · have hpos := (Array.getElem?_eq_some_iff.1 hlast).1
        obtain rfl : i = c.size - 1 := by
          simp only [here, size] at hi hpos ⊢
          omega
        cases hy.symm.trans (widened_last hx)
        have hnarrow := hc.copies _ x hlast hcopy
        refine ⟨Int.le_trans hnarrow.nonempty (Int.le_add_one (Int.le_refl _)), hnarrow.target,
          fun j k hj0 hj hk0 hk he => ?_, fun hfree => absurd hfree hmerged⟩
        rcases (hwide k hk0 hk).1 with hshared | ⟨hresult, -⟩
        · exact (hwide j hj0 hj).2.1 (he ▸ hshared)
        rcases (hwide j hj0 hj).1 with hshared | ⟨-, hnot⟩
        · -- constants are copied to results only before results are copied
          have hbelow := hc.below _ _ hresult hshared
          have hold : j ≠ x.p3 + 1 := by
            rintro rfl
            exact haside (Int.add_assoc _ _ _ ▸ he ▸ hresult)
          simp only at hj hbelow
          exact hnarrow.apart j k hj0 (by omega) hk0 (by omega) he
        · exact hnot (he ▸ hresult)
      · rw [modifyAt_getElem?_ne hi] at hy
        exact hc.copies i y hy hcopy'
    · have hsize : (c.widened x).builder.ops.size = c.size := by simp [widened, size]
      have hy : (c.widened x).builder.last? = some y := hy
      rw [last?_eq_getElem?, hsize, widened_last hx] at hy
      cases hy
      exact hwide
  grows :=
    { (.refl c : Extends _ c.Free c c) with
      keeps := widen_keeps hc.builder hx hcopy ⟨.inr (Int.add_assoc _ _ _).symm, by
        rw [← Int.add_assoc]
        exact le_highest ht.taken, by
        rw [← Int.add_assoc]
        exact ht.unhoisted⟩ }
  labels l _ := by simp [address?, widened]
  free _ h := h
  used _ h := .inl h
  shared := .of_eq rfl

end Compiler

namespace Gen

open Compiler

variable {σ : Scope} {c c1 c2 : Compiler} {r : Int} {n first : Int} {pins extra : Int → Prop} {ids : List Identity}
  {free : Option Int} {h : Hoisted} {e : Expr}

theorem listCopy_cases {mode : ListMode} {s t : Int} (h : (listCopy mode s t).Makes c () c1) :
    (emit (.of mode.copyOpcode s t)).Makes c () c1 ∨
      mode.full ∧ ∃ x, c.builder.last? = some x ∧ x.opcode = .copy ∧ x.p1 + x.p3 + 1 = s ∧
        x.p2 + x.p3 + 1 = t ∧ c1 = c.widened x := by
  simp only [listCopy, makes_get_bind] at h
  split at h
  · rename_i p1 p2 p3 _ _ hlast
    split at h
    · rename_i hnext
      simp only [Bool.and_eq_true, beq_iff_eq] at hnext
      obtain ⟨_, _, ⟨rfl, rfl⟩, rfl⟩ := h
      exact .inr ⟨hnext.1.1, _, hlast, rfl, hnext.1.2, hnext.2, rfl⟩
    · exact .inl h
  · exact .inl h

/-- Copying a register, by either instruction; a full copy is of a shared constant or of a result. -/
theorem emitCopy_spec {op : Opcode} {s t : Int} {u : Unit} (hop : op = .copyOne ∨ op = .copy)
    (h : (emit (.of op s t)).Makes c u c1) (hc : c.Good σ) (hs : op = .copy → c.HoldsShared s ∨ σ.aside s ∧ ¬ σ.aside t)
    (ht : c.Open t) : Step σ [] c c1 ∧ Emits c c1 fun _ => .of op s t := by
  obtain rfl := makes_emit.1 h
  refine ⟨?_, by simp [size], fun addr _ => emit_patched_size hc.builder _⟩
  rcases hop with rfl | rfl
  · exact .emit hc _ (by simp)
  · exact .emitCopy hc (hs rfl) ht

/-! ## Taking registers -/

theorem makes_allocRegs : (allocRegs n).Makes c r c1 ↔ r = c.highest + 1 ∧ c1 = { c with highest := c.highest + n } :=
  makes_modifyGet

theorem allocRegs_spec (h : (allocRegs n).Makes c r c1) (hc : c.Good σ) (hn : 0 ≤ n) :
    Step σ [] c c1 ∧ ∀ k, 0 ≤ k → k < n → c.highest < r + k ∧ Taken c c1 (r + k) := by
  obtain ⟨rfl, rfl⟩ := makes_allocRegs.1 h
  have hstep : Step σ [] c { c with highest := c.highest + n } :=
    .of_registers hc (by omega) hc.distinct hc.apart fun _ h => h
  refine ⟨hstep, fun k h1 h2 => ⟨by omega, .inr (by omega), ?_, ?_, ?_⟩⟩
  · have := hc.highest
    omega
  · rintro (hp | hlt)
    · have hbound := (hc.pooled _ hp).2
      omega
    · simp only at hlt
      omega
  · exact hc.not_holdsConstant (.inr (by omega))

theorem allocReg_spec (h : allocReg.Makes c r c1) (hc : c.Good σ) : Step σ [] c c1 ∧ c.highest < r ∧ Taken c c1 r := by
  obtain ⟨hstep, hk⟩ := allocRegs_spec (n := 1) h hc (by decide)
  have htaken := hk 0 (by decide) (by decide)
  rw [Int.add_zero] at htaken
  exact ⟨hstep, htaken⟩

theorem getTemp_spec (h : getTemp.Makes c r c1) (hc : c.Good σ) : Step σ [] c c1 ∧ Taken c c1 r := by
  simp only [getTemp, makes_get_bind] at h
  split at h
  · rename_i reg pool hpool
    simp only [makes_bind, makes_set, makes_pure] at h
    obtain ⟨_, _, rfl, rfl, rfl⟩ := h
    have hnodup := hc.distinct
    rw [hpool, List.nodup_cons] at hnodup
    have hmem : reg ∈ c.pool := by simp [hpool]
    have hin : c.Pooled reg := .inl hmem
    refine ⟨.of_registers hc (Int.le_refl _) hnodup.2 (fun r hr => hc.apart r ?_) ?_, ?_⟩
    · rw [hpool]
      exact List.mem_cons_of_mem _ hr
    · rintro r (hr | hr)
      · exact .inl (by rw [hpool]; exact List.mem_cons_of_mem _ hr)
      · exact .inr hr
    · refine ⟨.inl hin, (hc.pooled _ hin).1, ?_, hc.not_holdsConstant (.inl hin)⟩
      rintro ((hr | hr) | hlt)
      · exact hnodup.1 hr
      · exact hc.apart reg hmem hr
      · exact absurd (hc.pooled _ hin).2 (Int.not_le.2 hlt)
  · obtain ⟨hstep, -, htaken⟩ := allocReg_spec h hc
    exact ⟨hstep, htaken⟩

theorem getTemp_builder (h : getTemp.Makes c r c1) : c1.builder = c.builder := by
  rw [(getTemp_draws h).1.same]

/-! ## Freeing registers -/

theorem releaseTemp_cases (h : (releaseTemp r).Makes c () c1) : c1 = { c with pool := r :: c.pool } ∨ c1 = c := by
  rw [releaseTemp, makes_modify] at h
  rw [h]
  split
  · exact .inl rfl
  · exact .inr rfl

theorem releaseTemp_builder (h : (releaseTemp r).Makes c () c1) : c1.builder = c.builder := by
  rcases releaseTemp_cases h with rfl | rfl <;> rfl

theorem releaseTemp_extends (h : (releaseTemp r).Makes c () c1) : Extends pins extra c c1 := by
  rcases releaseTemp_cases h with rfl | rfl
  · exact .of_registers (Int.le_refl _)
  · exact .refl _

theorem releaseTemp_step (s : Step σ ids c c1) (ht : Taken c c1 r) (h : (releaseTemp r).Makes c1 () c2) :
    Step σ ids c c2 := by
  rcases releaseTemp_cases h with rfl | rfl
  · have hnot : ¬ c1.Pooled r := fun hp => ht.taken (.inl hp)
    refine s.give (List.nodup_cons.2 ⟨fun hq => hnot (.inl hq), s.good.distinct⟩) (List.forall_mem_cons.2
      ⟨fun hrange => hnot (.inr hrange), s.good.apart⟩) fun q hq => ?_
    rcases hq with hq | hq
    · exact (List.mem_cons.1 hq).elim (fun heq => .inr (heq ▸ ht)) fun hq => .inl (.inl hq)
    · exact .inl (.inr hq)
  · exact s

/-- The register to release was taken by the code, if there is one. -/
def Lends (c c' : Compiler) (free : Option Int) : Prop := ∀ r, free = some r → Taken c c' r

theorem Lends.trans (h : Lends c c1 free) (s : Step σ ids c1 c2) : Lends c c2 free := fun r hr => (h r hr).trans s

theorem release_extends (h : (release free).Makes c () c1) : Extends pins extra c c1 := by
  cases free with
  | some r => exact releaseTemp_extends h
  | none =>
    obtain ⟨-, rfl⟩ := h
    exact .refl _

theorem release_builder (h : (release free).Makes c () c1) : c1.builder = c.builder := by
  cases free with
  | some r => exact releaseTemp_builder h
  | none =>
    simp only [release, makes_pure] at h
    rw [h.2]

theorem release_step (s : Step σ ids c c1) (ht : Lends c c1 free) (h : (release free).Makes c1 () c2) :
    Step σ ids c c2 := by
  cases free with
  | some r => exact releaseTemp_step s (ht r rfl) h
  | none =>
    obtain ⟨-, rfl⟩ := h
    exact s

theorem release_taken (t : Taken c c1 r) (hne : free ≠ some r) (h : (release free).Makes c1 () c2) : Taken c c2 r := by
  refine ⟨t.free, t.pos, ?_, ?_⟩
  · cases free with
    | none =>
      simp only [Gen.release, makes_pure] at h
      rw [← h.2]
      exact t.taken
    | some q =>
      rcases releaseTemp_cases h with rfl | rfl
      · rintro ((hr | hr) | hr)
        · rcases List.mem_cons.1 hr with rfl | hr
          · exact hne rfl
          · exact t.taken (.inl (.inl hr))
        · exact t.taken (.inl (.inr hr))
        · exact t.taken (.inr hr)
      · exact t.taken
  · intro hholds
    have hextends : Extends nowhere nowhere c1 c2 := release_extends h
    rcases hextends.holdsConstant_of_new hholds with hold | hlt | hpin
    · exact t.unhoisted hold
    · exact t.taken (.inr hlt)
    · exact hpin

/-! ## Ranges -/

theorem getTempRange_eq (n : Int) : getTempRange n = (if n = 1 then getTemp else do
        let c ← get
        if n ≤ c.poolRange.2 then
          set { c with poolRange := (c.poolRange.1 + n, c.poolRange.2 - n) }
          return c.poolRange.1
        else allocRegs n) :=
  rfl

theorem getTempRange_spec (h : (getTempRange n).Makes c r c1) (hc : c.Good σ) (hn : 0 ≤ n) :
    Step σ [] c c1 ∧ ∀ k, 0 ≤ k → k < n → Taken c c1 (r + k) := by
  rw [getTempRange_eq] at h
  split at h
  · rename_i hone
    obtain ⟨hstep, htaken⟩ := getTemp_spec h hc
    refine ⟨hstep, fun k h1 h2 => ?_⟩
    have hk : r + k = r := by omega
    rw [hk]
    exact htaken
  · rw [makes_get_bind] at h
    split at h
    · rename_i hle
      obtain ⟨_, _, rfl, rfl, rfl⟩ := h
      have hin (k : Int) (h1 : 0 ≤ k) (h2 : k < n) : c.Pooled (c.poolRange.1 + k) := .inr (by omega)
      refine ⟨.of_registers hc (Int.le_refl _) hc.distinct (fun q hq hrange => ?_) ?_, ?_⟩
      · simp only at hrange
        exact hc.apart q hq (by omega)
      · rintro q (hq | hq)
        · exact .inl hq
        · simp only at hq
          exact .inr (by omega)
      · intro k h1 h2
        have hp := hin k h1 h2
        refine ⟨.inl hp, (hc.pooled _ hp).1, ?_, hc.not_holdsConstant (.inl hp)⟩
        rintro ((hq | hq) | hlt)
        · exact hc.apart _ hq (by omega)
        · simp only at hq
          omega
        · exact absurd (hc.pooled _ hp).2 (Int.not_le.2 hlt)
    · obtain ⟨hstep, hk⟩ := allocRegs_spec h hc hn
      exact ⟨hstep, fun k h1 h2 => (hk k h1 h2).2⟩

theorem getTempRange_registers (h : (getTempRange n).Makes c r c1) (hn : 0 ≤ n) :
    ∃ highest pool poolRange, c.highest ≤ highest ∧ c1 = { c with highest, pool, poolRange } := by
  obtain ⟨n, rfl⟩ := Int.eq_ofNat_of_zero_le hn
  obtain ⟨hdraws, -⟩ := getTempRange_draws h
  exact ⟨_, _, _, hdraws.highest, hdraws.same⟩

theorem releaseTempRange_cases (h : (releaseTempRange first n).Makes c () c1) :
    (n = 1 ∧ c1 = { c with pool := first :: c.pool }) ∨ c1 = { c with poolRange := (first, n) } ∨ c1 = c := by
  unfold releaseTempRange at h
  split at h
  · rename_i hone
    rcases releaseTemp_cases h with rfl | rfl
    · exact .inl ⟨hone, rfl⟩
    · exact .inr (.inr rfl)
  · rw [makes_modify] at h
    rw [h]
    split
    · exact .inr (.inl rfl)
    · exact .inr (.inr rfl)

theorem releaseTempRange_extends (h : (releaseTempRange first n).Makes c () c1) : Extends pins extra c c1 := by
  rcases releaseTempRange_cases h with ⟨-, rfl⟩ | rfl | rfl <;> exact .of_registers (Int.le_refl _)

theorem releaseTempRange_step (s : Step σ ids c c1) (ht : ∀ k, 0 ≤ k → k < n → Taken c c1 (first + k))
    (h : (releaseTempRange first n).Makes c1 () c2) : Step σ ids c c2 := by
  by_cases hone : n = 1
  · subst hone
    have htaken := ht 0 (by decide) (by decide)
    rw [Int.add_zero] at htaken
    exact releaseTemp_step s htaken h
  · rcases releaseTempRange_cases h with ⟨h1, -⟩ | rfl | rfl
    · exact absurd h1 hone
    · have hin (q : Int) (h1 : first ≤ q) (h2 : q < first + n) : Taken c c1 q := by
        have hq := ht (q - first) (by omega) (by omega)
        rwa [show first + (q - first) = q by omega] at hq
      exact s.give s.good.distinct (fun q hq hrange => (hin q hrange.1 hrange.2).taken (.inl (.inl hq)))
        fun q hq => hq.imp .inl fun hq => hin q hq.1 hq.2
    · exact s

theorem clearTemps_step (hc : c.Good σ) (h : clearTemps.Makes c () c1) : Step σ [] c c1 := by
  rw [clearTemps, makes_modify] at h
  rw [h]
  refine .of_registers hc (Int.le_refl _) List.nodup_nil (by simp) fun r hr => ?_
  rcases hr with hr | hr
  · simp at hr
  · simp only [Int.add_zero] at hr
    omega

/-! ## Constants -/

/-- The identities are distinct and have no code yet. -/
def Unused (ids : List Identity) (c : Compiler) : Prop := ids.Nodup ∧ ∀ i ∈ ids, i ∉ c.used

namespace Unused

variable {ids ids1 ids2 : List Identity}

theorem nil (c : Compiler) : Unused [] c := ⟨List.nodup_nil, by simp⟩

theorem left (h : Unused (ids1 ++ ids2) c) : Unused ids1 c :=
  ⟨(List.nodup_append.1 h.1).1, fun i hi => h.2 i (List.mem_append_left _ hi)⟩

theorem second (h : Unused (ids1 ++ ids2) c) : Unused ids2 c :=
  ⟨(List.nodup_append.1 h.1).2.1, fun i hi => h.2 i (List.mem_append_right _ hi)⟩

theorem tail {i : Identity} (h : Unused (i :: ids) c) : Unused ids c :=
  ⟨(List.nodup_cons.1 h.1).2, fun j hj => h.2 j (List.mem_cons_of_mem _ hj)⟩

theorem rest (h : Unused (ids1 ++ ids2) c) (hused : ∀ i ∈ c1.used, i ∈ c.used ∨ i ∈ ids1) : Unused ids2 c1 := by
  obtain ⟨-, hnodup, hapart⟩ := List.nodup_append.1 h.1
  refine ⟨hnodup, fun i hi hi1 => ?_⟩
  rcases hused i hi1 with hold | hnew
  · exact h.2 i (List.mem_append_right _ hi) hold
  · exact hapart i hnew i hi rfl

theorem right (h : Unused (ids1 ++ ids2) c) (s : Step σ ids1 c c1) : Unused ids2 c1 := h.rest s.used

theorem perm (h : Unused ids1 c) (hperm : ids1.Perm ids2) : Unused ids2 c :=
  ⟨hperm.nodup_iff.1 h.1, fun i hi => h.2 i (hperm.mem_iff.2 hi)⟩

theorem step (h : Unused ids c) (s : Step σ [] c c1) : Unused ids c1 :=
  ⟨h.1, fun i hi hused => (s.used i hused).elim (h.2 i hi) (List.not_mem_nil)⟩

end Unused

theorem pushHoisted_good (hc : c.Good σ) (hhoisting : c.hoisting) (hpos : 1 ≤ h.reg) (hfree : ¬ c.Free h.reg)
    (hnot : ¬ c.HoldsConstant h.reg) (hconst : h.expr.isConstant .notJoin) (hplain : h.expr.Plain σ)
    (hunused : Unused h.expr.identities c) (hends : h.shared → ∀ x, c.builder.last? = some x → x.opcode = .copy →
      ∀ k, 0 ≤ k → k ≤ x.p3 → x.p2 + k ≠ h.reg) (hbelow : h.shared → ∀ r, σ.aside r → r < h.reg) :
    Good σ { c with hoisted := c.hoisted.push h } :=
  { hc with
    taken x hx := by
      simp only [Array.toList_push, List.mem_append, List.mem_singleton] at hx
      rcases hx with hx | rfl
      · exact hc.taken x hx
      · exact ⟨hpos, hfree⟩
    constant x hx := by
      simp only [Array.toList_push, List.mem_append, List.mem_singleton] at hx
      rcases hx with hx | rfl
      · exact hc.constant x hx
      · exact ⟨hconst, hplain⟩
    oneEach := by
      simp only [Array.toList_push, List.map_append, List.nodup_append]
      refine ⟨hc.oneEach, by simp, fun a ha b hb hab => ?_⟩
      simp only [List.map_cons, List.map_nil, List.mem_singleton] at hb
      obtain ⟨x, hx, hxa⟩ := List.mem_map.1 ha
      exact hnot ⟨x, hx, by rw [hxa, hab, hb]⟩
    hoisting hnot := by
      rw [hhoisting] at hnot
      cases hnot
    identities := by
      simp only [used, Array.toList_push, List.flatMap_append, ← List.append_assoc]
      rw [List.nodup_append]
      refine ⟨hc.identities, by simpa using hunused.1, fun a ha b hb hab => ?_⟩
      simp only [List.flatMap_cons, List.flatMap_nil, List.append_nil] at hb
      exact hunused.2 b hb (hab ▸ ha)
    ends x hx hcopy k h1 h2 := by
      obtain ⟨hs, hnot', hle⟩ := hc.ends x hx hcopy k h1 h2
      refine ⟨hs.imp_left ?_, ?_, hle⟩
      · rintro ⟨y, hy, hys, hyr⟩
        exact ⟨y, by simp [hy], hys, hyr⟩
      · rintro ⟨z, hz, hzs, hzr⟩
        simp only [Array.toList_push, List.mem_append, List.mem_singleton] at hz
        rcases hz with hz | rfl
        · exact hnot' ⟨z, hz, hzs, hzr⟩
        · exact hends hzs x hx hcopy k h1 h2 hzr.symm
    below r s hr := by
      rintro ⟨x, hx, hxs, rfl⟩
      simp only [Array.toList_push, List.mem_append, List.mem_singleton] at hx
      rcases hx with hx | rfl
      · exact hc.below r _ hr ⟨x, hx, hxs, rfl⟩
      · exact hbelow hxs r hr }

theorem used_pushHoisted (c : Compiler) (h : Hoisted) :
    Compiler.used { c with hoisted := c.hoisted.push h } = c.used ++ h.expr.identities := by
  simp [Compiler.used, List.flatMap_append]

theorem pushHoisted_extends (hreg : c.highest < h.reg ∨ pins h.reg ∧ h.shared = false) :
    Extends pins extra c { c with hoisted := c.hoisted.push h } :=
  { (.refl c : Extends pins extra c c) with keeps := .refl _ _ _, hoisted := ⟨[h], by simp, by simpa using hreg⟩ }

/-- Setting a constant aside without a wanted register: the register is that of an expression that
matches, or a new one. -/
theorem hoist_none_spec (h : (hoist e none).Makes c r c1) (hc : c.Good σ) (hhoisting : c.hoisting)
    (hconst : e.isConstant .notJoin) (hplain : e.Plain σ) (hunused : Unused e.identities c) :
    Step σ e.identities c c1 ∧ c1.builder = c.builder ∧ ∃ x ∈ c1.hoisted.toList, x.shared ∧ x.reg = r ∧
        (x.expr = e ∨ Expr.compare none x.expr e = .equal) := by
  rcases hoist_makes h with ⟨rfl, x, hx, hshared, hreg, hmatch⟩ | ⟨-, rfl, rfl⟩
  · exact ⟨(Step.refl hc).mono (by simp), rfl, x, hx, hshared, hreg, .inr hmatch⟩
  · obtain ⟨hstep, hlt, htaken⟩ := allocReg_spec
      (rfl : allocReg.Makes c (c.highest + 1) { c with highest := c.highest + 1 }) hc
    have hunused' : Unused e.identities { c with highest := c.highest + 1 } := hunused
    have hgood := pushHoisted_good (h := ⟨e, _, true⟩) hstep.good hhoisting htaken.pos
      htaken.taken htaken.unhoisted hconst hplain hunused' (by
        intro _ x hx hcopy k h1 h2 he
        have hle := (hc.ends x hx hcopy k h1 h2).2.2
        simp only at he
        omega)
      fun _ r hr => Int.lt_of_le_of_lt (le_highest (hc.aside r hr)) hlt
    refine ⟨⟨hgood, ?_, hstep.labels, hstep.free, fun i hi => ?_, .of_eq rfl, hstep.aside⟩, rfl,
      ⟨e, c.highest + 1, true⟩, by simp, rfl, rfl, .inl rfl⟩
    · exact { hstep.grows with
        keeps := .refl _ _ _
        hoisted := ⟨[⟨e, c.highest + 1, true⟩], by simp, by simpa using hlt⟩ }
    · exact List.mem_append.1 ((used_pushHoisted c ⟨e, c.highest + 1, true⟩) ▸ hi)

theorem hoist_some_spec {reg : Int} (h : (hoist e (some reg)).Makes c r c1) (hc : c.Good σ) (hhoisting : c.hoisting)
    (hreg : c.Open reg) (hconst : e.isConstant .notJoin) (hplain : e.Plain σ) (hunused : Unused e.identities c) :
    Fills σ (· = reg) extra e.identities c c1 ∧ c1.builder = c.builder ∧
      { expr := e, reg, shared := false } ∈ c1.hoisted.toList := by
  simp only [hoist, makes_bind, makes_modify, makes_pure] at h
  obtain ⟨⟨⟩, _, rfl, -, rfl⟩ := h
  refine ⟨⟨?_, ?_, fun _ _ => rfl, fun _ h => h, fun i hi => ?_, .of_eq rfl⟩, rfl, by simp⟩
  · exact pushHoisted_good (h := { expr := e, reg, shared := false }) hc hhoisting hreg.pos hreg.taken
      hreg.unhoisted hconst hplain hunused (by simp) (by simp)
  · exact pushHoisted_extends (.inr ⟨rfl, rfl⟩)
  · rw [used_pushHoisted, List.mem_append] at hi
    exact hi

end Gen

end ScalarSql
