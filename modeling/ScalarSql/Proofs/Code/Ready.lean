import ScalarSql.Proofs.Code.Lookups
import ScalarSql.Proofs.Meaning.Rowless

/-!
# Running a piece of code

A piece of code is what a step of a compilation wrote between two states. It runs as part of a
finished program, so its run is described in a `World`: the instructions of the program with the
addresses of all labels, the environment, and the constants that the whole program sets aside.

`Ready` is what must hold when the code starts, and `Within` says what a run of it may change. A run
of two pieces, one after the other, is put together by `Ready.seq`. The one difficulty is a copy at the
end of the first piece that the second piece widened: the second piece counts on registers that this
copy filled, so the machine must have come through the copy. `World.unskipped` says that it does.
-/

namespace ScalarSql

open Builder Compiler Machine

/-- A finished program and what its runs depend on. -/
structure World (σ : Scope) where
  ops : Array Instr
  addr : Nat → Int
  env : Env
  hoisted : List Hoisted
  routines : List (Identity × Routine)
  /-- Registers that are taken, but filled only by code that comes later. -/
  lent : Int → Prop
  /-- No jump leads behind a copy of several registers. -/
  unskipped : ∀ (a : Nat) (x : Instr), ops[a]? = some x → x.opcode = .copy → 0 < x.p3 →
    Leads.EnteredFromBefore ops (a + 1)
  /-- A copy reads no register that it writes. -/
  apart : ∀ (a : Nat) (x : Instr), ops[a]? = some x → x.opcode = .copy →
    ∀ j k, 0 ≤ j → j ≤ x.p3 → 0 ≤ k → k ≤ x.p3 → x.p2 + j ≠ x.p1 + k
  targets : ∀ (a : Nat) (x : Instr), ops[a]? = some x → x.opcode = .copy → 0 ≤ x.p2
  addresses : ops.size < 2147483648
  functions : env.functions = σ.functions
  collation : env.collation = σ.collation
  own : env.own = σ.own
  caseBlind : env.CaseBlind

namespace World

variable {σ : Scope}

def Holds (w : World σ) (r : Int) : Prop := ∃ h ∈ w.hoisted, h.reg = r

/-- The registers that code which starts in the given state may overwrite. -/
def Scratch (w : World σ) (c : Compiler) (r : Int) : Prop := c.Free r ∧ ¬ w.Holds r ∨ w.lent r

/-- The copy that ends before an address has filled its registers. -/
def Copied (w : World σ) (hi : Nat) (m : Machine) : Prop :=
  ∀ a x, a + 1 = hi → w.ops[a]? = some x → x.opcode = .copy → 0 < x.p3 →
    ∀ k, 0 ≤ k → k ≤ x.p3 → m.register (x.p2 + k) = m.register (x.p1 + k)

/-- Further registers may be lent, unless they hold constants. -/
def lend (w : World σ) (S : Int → Prop) : World σ :=
  { w with lent := fun r => w.lent r ∨ S r ∧ ¬ w.Holds r }

theorem lend_nothing (w : World σ) : w.lend nowhere = w := by
  simp [lend]

variable {w : World σ} {Q : Nat → Machine → Prop} {X : Prop} {n a hi : Nat} {m m1 : Machine}

theorem copied_of_step {x : Instr} {flow : Flow} (hx : w.ops[a]? = some x)
    (hc : x.opcode = .copy) (hstep : (x.step a).outcome m = (.ok flow, m1)) (k : Int)
    (h0 : 0 ≤ k) (hk : k ≤ x.p3) : m1.register (x.p2 + k) = m1.register (x.p1 + k) := by
  obtain ⟨m', hrun, hwrites, -, hall⟩ := Instr.outcome_copy (x.p3.toNat + 1) m x.p1 x.p2 (w.targets a x hx hc)
  have hcopy : (x.step a).outcome m = (.ok .next, m') := by
    cases x
    cases hc
    simp only [Instr.step, Exec.outcome_bind, hrun]
    rfl
  rw [hstep] at hcopy
  cases hcopy
  have hapart : ∀ j k : Nat, j < x.p3.toNat + 1 → k < x.p3.toNat + 1 →
      x.p2 + (j : Int) ≠ x.p1 + (k : Int) := fun j k hj hk =>
    w.apart a x hx hc j k (by omega) (by omega) (by omega) (by omega)
  have htarget := hall hapart k.toNat (by omega)
  have hkept := hwrites.registers (x.p1 + k) (by
    rintro ⟨h1, h2⟩
    refine w.apart a x hx hc (x.p1 + k - x.p2) k ?_ ?_ h0 hk ?_ <;> omega)
  rw [Int.toNat_of_nonneg h0] at htarget
  rw [htarget, hkept]

/-! ### Tables that are filled once -/

/-- The ephemeral table of a routine, if the routine has run: a cursor is on the table of the IN node. The
node reads no row, so the table is the same for all rows. -/
def Kept (w : World σ) (p : Identity × Routine) (m : Machine) : Prop :=
  p.2.entry.toNat ∈ m.visited → ∃ t cs keys, m.Tabled p.2.result t cs keys ∧
    (σ.node p.1).bind (·.keyTable w.env.bare) = some (cs, keys)

def KeptIn (w : World σ) (lo hi : Nat) (m : Machine) : Prop :=
  ∀ p ∈ w.routines, lo ≤ p.2.entry → p.2.entry < hi → w.Kept p m

/-- The cursors of the routines before a state were taken before it, and those of the routines between
the two states after it. -/
def Divided (w : World σ) (c c' : Compiler) : Prop :=
  ∀ p ∈ w.routines, (p.2.entry < c.size → p.2.result < c.cursors) ∧
    (c.size ≤ p.2.entry → p.2.entry < c'.size → c.cursors ≤ p.2.result)

theorem Divided.mono {c c1 c2 : Compiler} (h : w.Divided c c2) (hsize : c1.size ≤ c2.size) : w.Divided c c1 :=
  fun p hp => ⟨(h p hp).1, fun hlo hhi => (h p hp).2 hlo (by omega)⟩

theorem KeptIn.mono {lo' hi' : Nat} (h : w.KeptIn a hi m) (hlo : a ≤ lo') (hhi : hi' ≤ hi) : w.KeptIn lo' hi' m :=
  fun p hp h1 h2 => h p hp (by omega) (by omega)

/-- A table stays if its routine was not run and neither its cursor nor its entries were touched. -/
theorem Kept.frame {p : Identity × Routine} (h : w.Kept p m)
    (hvisited : p.2.entry.toNat ∈ m1.visited → p.2.entry.toNat ∈ m.visited)
    (hcursor : m1.anchor? p.2.result = m.anchor? p.2.result)
    (htables : ∀ t, t < m.ephemeral.size → m1.ephemeral[t]? = m.ephemeral[t]?) : w.Kept p m1 := by
  intro hv
  obtain ⟨t, cs, keys, htabled, hkeys⟩ := h (hvisited hv)
  exact ⟨t, cs, keys, htabled.frame hcursor (htables t), hkeys⟩

/-- A run that comes to an address has come through the copy before it. -/
theorem leads_copied (h : Leads w.ops Q X n a m) (hne : a ≠ hi) :
    Leads w.ops (fun b m1 => Q b m1 ∧ (b = hi → w.Copied hi m1)) X n a m := by
  by_cases hwide : ∃ b x, b + 1 = hi ∧ w.ops[b]? = some x ∧ x.opcode = .copy ∧ 0 < x.p3
  · obtain ⟨b, x, rfl, hx, hc, hp⟩ := hwide
    refine h.entered (w.unskipped b x hx hc hp) ?_ fun he => absurd he hne
    intro b' i m flow m1 hb hop hstep b'' x' hb' hx' hc' hp' k h0 hk
    have hbb : b' = b'' := by omega
    subst hbb
    rw [hx'] at hop
    cases hop
    exact copied_of_step hx' hc' hstep k h0 hk
  · refine h.weaken (fun b m1 hq => ⟨hq, fun _ b' x hb hx hc hp => ?_⟩) id
    exact absurd ⟨b', x, hb, hx, hc, hp⟩ hwide

end World

/-! ## What a run may change -/

/-- A run of the code between two states changed scratch registers and those of `T` only, and nothing
else that was there before. -/
structure Frame {σ : Scope} (w : World σ) (T : Int → Prop) (c c' : Compiler) (m m' : Machine) : Prop where
  registers : ∀ r, ¬ w.Scratch c r → ¬ T r → m'.register r = m.register r
  params : m'.params = m.params
  store : m'.store = m.store
  rows : m'.rows = m.rows
  pending : m'.pending = m.pending
  /-- The cursors that the code did not take are the same, but for places in ephemeral tables. -/
  cursors : ∀ n, n < c.cursors ∨ c'.cursors ≤ n → m'.anchor? n = m.anchor? n
  tables_le : m.ephemeral.size ≤ m'.ephemeral.size
  tables : ∀ t, t < m.ephemeral.size → m'.ephemeral[t]? = m.ephemeral[t]?
  visited : ∀ a ∈ m'.visited, a ∈ m.visited ∨ c.size ≤ a ∧ a < c'.size
  separate : m.Separate → m'.Separate

/-- As `Frame`, and the tables of the code's routines that have run are there. -/
structure Within {σ : Scope} (w : World σ) (T : Int → Prop) (c c' : Compiler) (m m' : Machine) : Prop
    extends Frame w T c c' m m' where
  kept : w.KeptIn c.size c'.size m → w.KeptIn c.size c'.size m'

namespace Frame

variable {σ : Scope} {w : World σ} {T T1 : Int → Prop} {c c1 c2 : Compiler} {m m1 m2 : Machine}
  {p : Identity × Routine}

theorem refl (w : World σ) (T : Int → Prop) (c c' : Compiler) (m : Machine) : Frame w T c c' m m :=
  ⟨fun _ _ _ => rfl, rfl, rfl, rfl, rfl, fun _ _ => rfl, Nat.le_refl _, fun _ _ => rfl, fun _ h => .inl h, id⟩

theorem of_writes {W : Int → Prop} (h : m.Writes W m1) (hW : ∀ r, W r → T r ∨ w.Scratch c r) : Frame w T c c1 m m1 :=
  { h with
    registers r hs hT := h.registers r fun hr => (hW r hr).elim hT hs
    cursors n _ := anchor?_congr h.cursors n
    tables_le := Nat.le_of_eq (congrArg Array.size h.ephemeral.symm)
    tables t _ := by rw [h.ephemeral]
    visited a ha := .inl (h.visited ▸ ha)
    separate hs := hs.of_anchors (anchor?_congr h.cursors) (Nat.le_of_eq (congrArg Array.size h.ephemeral.symm)) }

theorem of_moves (h : m.Moves m1) : Frame w T c c1 m m1 := by
  obtain ⟨hanchors, cursors, rfl⟩ := h
  exact ⟨fun _ _ _ => rfl, rfl, rfl, rfl, rfl, fun n _ => hanchors n, Nat.le_refl _, fun _ _ => rfl,
    fun _ h => .inl h, fun hs => hs.of_anchors hanchors (Nat.le_refl _)⟩

theorem mono (h : Frame w T1 c c1 m m1) (hT : ∀ r, T1 r → T r ∨ w.Scratch c r) : Frame w T c c1 m m1 :=
  { h with registers := fun r hs hr => h.registers r hs fun h1 => (hT r h1).elim hr hs }

theorem trans (h1 : Frame w T c c1 m m1) (h2 : Frame w T c1 c2 m1 m2) (s1 : Follows c c1)
    (hcursors : c1.cursors ≤ c2.cursors) (hsize : c1.size ≤ c2.size) : Frame w T c c2 m m2 where
  registers r hs hT := by
    have hs1 : ¬ w.Scratch c1 r := fun hf => hs (hf.imp_left (fun h => ⟨s1.free r h.1, h.2⟩))
    rw [h2.registers r hs1 hT, h1.registers r hs hT]
  params := h2.params.trans h1.params
  store := h2.store.trans h1.store
  rows := h2.rows.trans h1.rows
  pending := h2.pending.trans h1.pending
  cursors n hn := by
    have hle := s1.cursors
    rw [h2.cursors n (by omega), h1.cursors n (by omega)]
  tables_le := Nat.le_trans h1.tables_le h2.tables_le
  tables t ht := by
    rw [h2.tables t (Nat.lt_of_lt_of_le ht h1.tables_le), h1.tables t ht]
  visited a ha := by
    have hle := s1.size_le
    rcases h2.visited a ha with ha | ha
    · rcases h1.visited a ha with ha | ha
      · exact .inl ha
      · exact .inr (by omega)
    · exact .inr (by omega)
  separate hs := h2.separate (h1.separate hs)

theorem extend (h : Frame w T c c1 m m1) (hcursors : c1.cursors ≤ c2.cursors)
    (hsize : c1.size ≤ c2.size) : Frame w T c c2 m m1 :=
  { h with
    cursors := fun n hn => h.cursors n (by omega)
    visited := fun a ha => (h.visited a ha).imp_right (by omega) }

theorem keeps (h : Frame w T c c1 m m1) (hkept : w.Kept p m) (hp : p ∈ w.routines) (hdivided : w.Divided c1 c2)
    (hlo : c1.size ≤ p.2.entry) (hhi : p.2.entry < c2.size) : w.Kept p m1 := by
  refine hkept.frame (fun hv => (h.visited _ hv).resolve_right (by omega)) ?_ h.tables
  exact h.cursors _ (.inr ((hdivided p hp).2 hlo hhi))

theorem kept_before (h : Frame w T c1 c2 m m1) (hkept : w.Kept p m) (hp : p ∈ w.routines) (hdivided : w.Divided c1 c2)
    (h0 : 0 ≤ p.2.entry) (hlt : p.2.entry < c1.size) : w.Kept p m1 := by
  refine hkept.frame (fun hv => (h.visited _ hv).resolve_right (by omega)) ?_ h.tables
  exact h.cursors _ (.inl ((hdivided p hp).1 hlt))

end Frame

namespace Within

variable {σ : Scope} {w : World σ} {T T1 T2 : Int → Prop} {c c1 c2 : Compiler} {m m1 m2 : Machine}
  {ids : List Identity}

theorem refl (w : World σ) (T : Int → Prop) (c c' : Compiler) (m : Machine) : Within w T c c' m m :=
  ⟨.refl w T c c' m, id⟩

theorem of_writes {W : Int → Prop} (h : m.Writes W m1) (hW : ∀ r, W r → T r ∨ w.Scratch c r) :
    Within w T c c1 m m1 where
  toFrame := .of_writes h hW
  kept hkept p hp hlo hhi := (hkept p hp hlo hhi).frame (fun hv => h.visited ▸ hv)
    (anchor?_congr h.cursors _) fun t _ => by rw [h.ephemeral]

theorem of_moves (h : m.Moves m1) : Within w T c c1 m m1 where
  toFrame := .of_moves h
  kept hkept p hp hlo hhi := by
    obtain ⟨hanchors, cursors, rfl⟩ := h
    exact (hkept p hp hlo hhi).frame id (hanchors _) fun _ _ => rfl

theorem mono (h : Within w T1 c c1 m m1) (hT : ∀ r, T1 r → T r ∨ w.Scratch c r) : Within w T c c1 m m1 :=
  ⟨h.toFrame.mono hT, h.kept⟩

theorem trans (h1 : Within w T c c1 m m1) (h2 : Within w T c1 c2 m1 m2)
    (s1 : Follows c c1) (hcursors : c1.cursors ≤ c2.cursors) (hsize : c1.size ≤ c2.size)
    (hdivided : w.Divided c1 c2) : Within w T c c2 m m2 where
  toFrame := h1.toFrame.trans h2.toFrame s1 hcursors hsize
  kept hkept p hp hlo hhi := by
    have hle := s1.size_le
    by_cases hentry : p.2.entry < c1.size
    · have hfirst := h1.kept (hkept.mono (Nat.le_refl _) hsize) p hp hlo hentry
      exact h2.kept_before hfirst hp hdivided (by omega) hentry
    · refine h2.kept (fun q hq hqlo hqhi => ?_) p hp (by omega) hhi
      exact h1.keeps (hkept q hq (by omega) hqhi) hq hdivided hqlo hqhi

theorem extend (h : Within w T c c1 m m1) (hcursors : c1.cursors ≤ c2.cursors)
    (hsize : c1.size ≤ c2.size) (hdivided : w.Divided c1 c2) : Within w T c c2 m m1 where
  toFrame := h.toFrame.extend hcursors hsize
  kept hkept p hp hlo hhi := by
    by_cases hentry : p.2.entry < c1.size
    · exact h.kept (hkept.mono (Nat.le_refl _) hsize) p hp hlo hentry
    · exact h.keeps (hkept p hp hlo hhi) hp hdivided (by omega) hhi

end Within

/-! ## Where code stands -/

/-- The code between two states is part of the program of the world. -/
structure Placed {σ : Scope} (w : World σ) (c c' : Compiler) : Prop where
  start : c.Good σ
  good : c'.Good σ
  settled : c'.builder.Settled w.addr
  /-- The instructions are those of the program; a copy at the end may be widened later. -/
  code : ∀ i, c.size ≤ i → i < c'.size → ∃ x y, c'.builder.patched w.addr i = some x ∧
    w.ops[i]? = some y ∧ x.Widens (w.Scratch c') y ∧ (i + 1 < c'.size → y = x)
  known : ∀ h ∈ c'.hoisted.toList, h ∈ w.hoisted
  /-- No register that the code took is the register of a constant. -/
  later : ∀ r, w.Holds r → c'.HoldsConstant r ∨ c'.highest < r ∨ ¬ c.Free r
  /-- The environment knows how long a list may be whose items are compared in turn. -/
  chained : c'.config.chainedItems = w.env.chained
  /-- The code opens none of the cursors on the rows around it. -/
  cursors : ∀ n, σ.cursors n → n < c.cursors ∨ c'.cursors ≤ n
  lent : ∀ r, w.lent r → ¬ c.Free r ∧ ¬ w.Holds r
  registered : ∀ p ∈ c'.routines, p ∈ w.routines
  routines : ∀ p ∈ w.routines, p ∈ c'.routines ∨ c'.size ≤ p.2.entry

namespace Placed

variable {σ : Scope} {w : World σ} {c c1 c2 : Compiler} {r : Int} {pins extra : Int → Prop} {S : Int → Prop}
  {c0 : Compiler} {ins : (Nat → Int) → Instr}

variable (p : Placed w c c2)

include p

theorem part (hc1 : c1.Good σ) (e : Extends pins extra c1 c2) (hpins : ∀ r, pins r → ¬ c.Free r)
    (hfree : ∀ r, S r → ¬ c.Free r)
    (hcode : ∀ i, c.size ≤ i → i < c1.size → ∃ x y, c1.builder.patched w.addr i = some x ∧
      w.ops[i]? = some y ∧ x.Widens ((w.lend S).Scratch c1) y ∧ (i + 1 < c1.size → y = x)) :
    Placed (w.lend S) c c1 where
  start := p.start
  good := hc1
  settled := p.settled.of_keeps e.keeps
  code := hcode
  known h hh := p.known h (e.mem_hoisted hh)
  later r hr := by
    rcases p.later r hr with hc | hlt | hfree
    · rcases e.holdsConstant_of_new hc with hc | hlt | hpin
      · exact .inl hc
      · exact .inr (.inl hlt)
      · exact .inr (.inr (hpins r hpin))
    · exact .inr (.inl (Int.lt_of_le_of_lt e.highest hlt))
    · exact .inr (.inr hfree)
  chained := by rw [← e.config]; exact p.chained
  cursors n hn := (p.cursors n hn).imp_right (Int.le_trans e.cursors)
  lent r hr := hr.elim (p.lent r) fun h => ⟨hfree r h.1, h.2⟩
  registered q hq := by
    obtain ⟨new, hnew, -⟩ := e.routines
    exact p.registered q (by rw [hnew]; exact List.mem_append_right _ hq)
  routines q hq := by
    obtain ⟨new, hnew, hplace⟩ := e.routines
    have hsize := e.size_le
    rcases p.routines q hq with hq | hq
    · rw [hnew, List.mem_append] at hq
      exact hq.symm.imp_right fun hq => (hplace q hq).1
    · exact .inr (by omega)

/-- The first part of code, if what comes after it guards its end. Registers of `S` that are filled
later are lent to it. -/
theorem firstLent (f1 : Follows c c1) (hc1 : c1.Good σ)
    (e : Extends pins (fun r => c1.Free r ∨ S r) c1 c2) (hguarded : Guarded c c1 c2) (hpins : ∀ r, pins r → ¬ c.Free r)
    (hfree : ∀ r, S r → ¬ c.Free r) (hS : ∀ r, S r → w.Holds r → c2.HoldsConstant r) : Placed (w.lend S) c c1 := by
  refine p.part hc1 e hpins hfree fun i hlo hi => ?_
  obtain ⟨x, y, hx, hy, hxy⟩ := e.keeps.code w.addr p.settled i (Nat.zero_le _) hi
  obtain ⟨y', z, hy', hz, hyz, hlast⟩ := p.code i hlo (Nat.lt_of_lt_of_le hi e.size_le)
  cases hy.symm.trans hy'
  have hscratch : x.Widens ((w.lend S).Scratch c1) y := hxy.mono fun t ht => by
    rcases ht.1 with hf | hs
    · refine .inl ⟨hf, fun hholds => ?_⟩
      rcases p.later t hholds with hc | hlt | hfree
      · exact ht.2.2 hc
      · exact absurd ht.2.1 (Int.not_le.2 hlt)
      · exact hfree (f1.free t hf)
    · exact .inr (.inr ⟨hs, fun hholds => ht.2.2 (hS t hs hholds)⟩)
  refine ⟨x, z, hx, hz, ?_, fun hin => ?_⟩
  · -- what comes after `c2` can only widen the last instruction before `c2`
    rcases hguarded with hnone | hsealed | hlt | hfree
    · omega
    · by_cases hin : i + 1 < c2.size
      · rw [hlast hin]
        exact hscratch
      · obtain ⟨x', hx', hop⟩ := getElem?_of_patched hx
        have hback : c1.builder.last? = some x' := by
          have hsize := e.size_le
          rwa [show i = c1.size - 1 by omega] at hx'
        have hplain : x.opcode ≠ .copy := hop ▸ hsealed x' hback
        obtain rfl := hxy.eq_of_ne hplain
        rw [hyz.eq_of_ne hplain]
        exact hscratch
    · rw [hlast (by omega)]
      exact hscratch
    · refine hscratch.trans (hyz.mono fun t ht => ?_)
      exact ht.imp (fun h => ⟨hfree t h.1, h.2⟩) .inl
  · have hsize := e.size_le
    have hsame := e.keeps.inner w.addr p.settled i (Nat.zero_le _) hin
    rw [hy, hx] at hsame
    rw [hlast (by omega)]
    exact Option.some.inj hsame

theorem rest (f1 : Follows c c1) (hc1 : c1.Good σ) : Placed w c1 c2 :=
  { p with
    start := hc1
    code i hlo hi := p.code i (Nat.le_trans f1.size_le hlo) hi
    later r hr := (p.later r hr).imp_right (.imp_right fun h hf => h (f1.free r hf))
    cursors n hn := (p.cursors n hn).imp_left fun h => Int.lt_of_lt_of_le h f1.cursors
    lent r hr := ⟨fun hf => (p.lent r hr).1 (f1.free r hf), (p.lent r hr).2⟩ }

theorem divided (hc1 : c1.Good σ) (e : Extends pins extra c1 c2) : w.Divided c1 c2 := by
  obtain ⟨new, hnew, hplace⟩ := e.routines
  have hsize := e.size_le
  intro q hq
  rcases p.routines q hq with hq | hq
  · rw [hnew, List.mem_append] at hq
    rcases hq with hq | hq
    · have hq := hplace q hq
      exact ⟨fun h => by omega, fun _ _ => hq.2⟩
    · have hq := hc1.routines q hq
      exact ⟨fun _ => hq.2.2, fun h => by omega⟩
  · exact ⟨fun h => by omega, fun _ h => by omega⟩

theorem not_holds (t : Taken c c1 r) (e : Extends nowhere extra c1 c2) : ¬ w.Holds r := by
  intro hr
  rcases p.later r hr with hc | hlt | hfree
  · rcases e.holdsConstant_of_new hc with hc | hlt | hpin
    · exact t.unhoisted hc
    · exact absurd (le_highest t.taken) (Int.not_le.2 hlt)
    · exact hpin
  · exact absurd (Int.le_trans (le_highest t.taken) e.highest) (Int.not_le.2 hlt)
  · exact hfree t.free

theorem op (h : Extends pins extra c1 c2) {i : Nat} {ins : Instr} (hlo : c.size ≤ i) (hi : i < c1.size)
    (hins : c1.builder.patched w.addr i = some ins) (hop : ins.opcode ≠ .copy) : w.ops[i]? = some ins := by
  obtain ⟨x, y, hx, hy, hxy⟩ := h.keeps.code w.addr p.settled i (Nat.zero_le _) hi
  obtain ⟨y', z, hy', hz, hyz, -⟩ := p.code i hlo (Nat.lt_of_lt_of_le hi h.size_le)
  cases hx.symm.trans hins
  cases hxy.eq_of_ne hop
  cases hy.symm.trans hy'
  rw [hz, hyz.eq_of_ne hop]

theorem emitted (e : Emits c0 c1 ins) (hle : c.size ≤ c0.size) (h : Extends pins extra c1 c2)
    (hop : (ins w.addr).opcode ≠ .copy) : w.ops[c0.size]? = some (ins w.addr) :=
  p.op h hle (by rw [e.size]; omega) (e.code w.addr (p.settled.of_keeps h.keeps)) hop

theorem emitted_last (e : Emits c0 c2 ins) (hle : c.size ≤ c0.size)
    (hop : (ins w.addr).opcode ≠ .copy) : w.ops[c0.size]? = some (ins w.addr) :=
  p.emitted e hle (.refl c2 : Extends nowhere nowhere c2 c2) hop

end Placed

/-! ## When code starts -/

/-- Registers with the values that they hold. -/
abbrev Known := List (Int × Value)

/-- What holds when the machine comes to the code between two states. The registers of `K` hold values
that the code may use. -/
structure Ready {σ : Scope} (w : World σ) (K : Known) (c c' : Compiler) (m : Machine) :
    Prop extends Placed w c c' where
  /-- The registers of `K` are taken and hold their values. -/
  held : ∀ p ∈ K, ¬ c.Free p.1 ∧ ¬ w.lent p.1 ∧ m.register p.1 = p.2
  params : m.params = w.env.params
  rows : ∀ n, σ.cursors n → (m.cursor? n).map Cursor.view = w.env.row n
  stored : ∀ n cur, σ.cursors n → m.cursor? n = some cur → cur.isStored = true
  pending : m.pending = none
  constants : ∀ h ∈ w.hoisted, h.expr.meaning.value w.env = some (m.register h.reg)
  kept : w.KeptIn c.size c'.size m
  separate : m.Separate
  /-- If the code widened the copy before it, that copy has filled the further registers. -/
  copied : ∀ x y k, c.builder.last? = some x → x.opcode = .copy →
    c'.builder.ops[c.size - 1]? = some y → x.p3 < k → k ≤ y.p3 → m.register (x.p2 + k) = m.register (x.p1 + k)

namespace World

variable {σ : Scope} {w : World σ} {K : Known} {r : Int}

/-- The register holds no constant and no value that is still used. -/
structure Avoids (w : World σ) (K : Known) (r : Int) : Prop where
  constant : ¬ w.Holds r
  lent : ¬ w.lent r
  held : ∀ p ∈ K, p.1 ≠ r

theorem Avoids.cons (h : w.Avoids K r) {s : Int} {v : Value} (hs : s ≠ r) : w.Avoids ((s, v) :: K) r :=
  ⟨h.constant, h.lent, List.forall_mem_cons.2 ⟨hs, h.held⟩⟩

theorem Avoids.only (h : w.Avoids K r) : ∀ s, s = r → w.Avoids K s ∧ (s = r ∨ w.Scratch c s) := by
  rintro _ rfl
  exact ⟨h, .inl rfl⟩

end World

namespace Ready

variable {σ : Scope} {w : World σ} {K : Known} {T : Int → Prop} {c c1 c2 : Compiler} {m m1 : Machine}
  {r : Int} {ids : List Identity} {extra pins : Int → Prop} {S : Int → Prop}

section

variable (h : Ready w K c c2 m) (t : Taken c c1 r) (e : Extends nowhere extra c1 c2)

include h t e

theorem avoids : w.Avoids K r where
  constant := h.not_holds t e
  lent hl := (h.lent r hl).1 t.free
  held p hp he := (h.held p hp).1 (he ▸ t.free)

theorem scratch : w.Scratch c r :=
  .inl ⟨t.free, h.not_holds t e⟩

end

theorem hold (h : Ready w K c c1 m) (hr : ¬ c.Free r) (hl : ¬ w.lent r) : Ready w ((r, m.register r) :: K) c c1 m :=
  { h with held := List.forall_mem_cons.2 ⟨⟨hr, hl, rfl⟩, h.held⟩ }

theorem forget {K1 : Known} (h : Ready w K1 c c1 m) (hK : ∀ p ∈ K, p ∈ K1) : Ready w K c c1 m :=
  { h with held := fun p hp => h.held p (hK p hp) }

variable (h : Ready w K c c2 m)

include h

theorem part (s1 : Passes σ c c1) (e : Extends pins extra c1 c2)
    (hplaced : Placed (w.lend S) c c1) (hK : ∀ p ∈ K, ¬ S p.1) : Ready (w.lend S) K c c1 m :=
  { h with
    toPlaced := hplaced
    held p hp := by
      obtain ⟨hf, hl, hv⟩ := h.held p hp
      exact ⟨hf, fun hr => hr.elim hl fun hs => hK p hp hs.1, hv⟩
    kept := h.kept.mono (Nat.le_refl _) e.size_le
    copied x y n hx hcopy hy hlt hle := by
      have hlast : c.builder.ops[c.size - 1]? = some x := hx
      have hs1 := h.settled.of_keeps e.keeps
      obtain ⟨y', hy', hxy⟩ := s1.grows.keeps.copy h.start.builder s1.good.builder hs1 (Nat.zero_le _) hlast hcopy
      cases hy.symm.trans hy'
      obtain ⟨z, hz, hyz⟩ := e.keeps.copy s1.good.builder h.good.builder h.settled
        (Nat.zero_le _) hy (hxy.opcode_eq.trans hcopy)
      exact h.copied x z n hx hcopy hz hlt (Int.le_trans hle hyz.p3_le) }

theorem firstLent (s1 : Passes σ c c1) (e : Extends pins (fun r => c1.Free r ∨ S r) c1 c2)
    (hguarded : Guarded c c1 c2) (hpins : ∀ r, pins r → ¬ c.Free r) (hfree : ∀ r, S r → ¬ c.Free r)
    (hS : ∀ r, S r → w.Holds r → c2.HoldsConstant r) (hK : ∀ p ∈ K, ¬ S p.1) : Ready (w.lend S) K c c1 m :=
  h.part s1 e (h.toPlaced.firstLent s1.follows s1.good e hguarded hpins hfree hS) hK

theorem firstSilent (s1 : Passes σ c c1) (e : Extends pins extra c1 c2)
    (hsize : c1.size = c.size) (hpins : ∀ r, pins r → ¬ c.Free r) : Ready w K c c1 m := by
  have hfirst := h.part (S := nowhere) s1 e (h.toPlaced.part s1.good e hpins
    (fun _ hf => hf.elim) fun i hlo hi => by omega) fun _ _ => id
  rwa [World.lend_nothing] at hfirst

theorem first (s1 : Step σ ids c c1)
    (e : Extends nowhere c1.Free c1 c2) (hguarded : Guarded c c1 c2) : Ready w K c c1 m := by
  have hfirst := h.firstLent (S := nowhere) s1.passes (e.mono (fun _ hf => hf) fun _ => .inl)
    hguarded (fun _ hf => hf.elim) (fun _ hf => hf.elim) (fun _ hf => hf.elim) fun _ _ => id
  rwa [World.lend_nothing] at hfirst

theorem next (s1 : Passes σ c c1) (e : Extends (fun _ => True) (fun _ => True) c1 c2)
    (hw : Frame w T c c1 m m1) (hT : ∀ r, T r → w.Avoids K r) (hcopied : c.size ≠ c1.size → w.Copied c1.size m1)
    (hsame : c.size = c1.size → m1 = m) : Ready w K c1 c2 m1 where
  toPlaced := h.toPlaced.rest s1.follows s1.good
  held p hp := by
    obtain ⟨hfree, hlent, hval⟩ := h.held p hp
    refine ⟨fun hf => hfree (s1.follows.free _ hf), hlent, ?_⟩
    rw [hw.registers p.1 (fun hs => hs.elim (fun h => hfree h.1) hlent) fun ht => (hT _ ht).held p hp rfl, hval]
  params := hw.params.trans h.params
  rows n hn := by
    rw [cursor?_of_anchor? (hw.cursors n ((h.cursors n hn).imp_right
      (Int.le_trans e.cursors))) fun cur => h.stored n cur hn]
    exact h.rows n hn
  stored n cur hn hcur := by
    rw [cursor?_of_anchor? (hw.cursors n ((h.cursors n hn).imp_right
      (Int.le_trans e.cursors))) fun cur => h.stored n cur hn] at hcur
    exact h.stored n cur hn hcur
  pending := hw.pending.trans h.pending
  constants x hx := by
    have hholds : w.Holds x.reg := ⟨x, hx, rfl⟩
    rw [hw.registers x.reg (fun hs => hs.elim (fun h => h.2 hholds) fun hl => (h.lent _ hl).2 hholds)
      fun ht => (hT _ ht).constant hholds]
    exact h.constants x hx
  kept p hp hlo hhi := by
    have hle := s1.follows.size_le
    exact hw.keeps (h.kept p hp (by omega) hhi) hp (h.divided s1.good e) hlo hhi
  separate := hw.separate h.separate
  copied x y n hx hcopy hy hlt hle := by
    have hlast : c1.builder.ops[c1.size - 1]? = some x := hx
    have hpos : 0 < c1.size := Nat.lt_of_le_of_lt (Nat.zero_le _) (Array.getElem?_eq_some_iff.1 hlast).1
    obtain ⟨y', hy', hxy⟩ := e.keeps.copy s1.good.builder h.good.builder h.settled (Nat.zero_le _) hlast hcopy
    cases hy.symm.trans hy'
    by_cases hsize : c.size = c1.size
    · -- nothing was run, so what the last copy filled before is still there
      rw [hsame hsize]
      obtain ⟨x0, hx0, hxx⟩ := s1.grows.keeps.was_copy h.start.builder s1.good.builder
        (h.settled.of_keeps e.keeps) (Nat.zero_le _)
        (show c1.size - 1 < c.size by omega) hlast hcopy
      rw [← hsize] at hx0 hy
      have hback : c.builder.last? = some x0 := hx0
      have hle0 := hxx.p3_le
      have hfilled := h.copied x0 y n hback (hxx.opcode_eq.symm.trans hcopy) hy (by omega) hle
      rw [hxx.p1_eq, hxx.p2_eq]
      exact hfilled
    · have hle1 := s1.follows.size_le
      have hle2 := e.size_le
      obtain ⟨y', z, hy', hz, hyz, -⟩ := h.code (c1.size - 1) (by omega) (by omega)
      have hyc : y.opcode = .copy := hxy.opcode_eq.trans hcopy
      cases (patched_of_copy h.good.builder hy hyc).symm.trans hy'
      have hx0 := (s1.good.copies _ x hlast hcopy).nonempty
      have hyz3 := hyz.p3_le
      have hfilled := hcopied hsize (c1.size - 1) z (by omega) hz (hyz.opcode_eq.trans hyc)
        (by omega) n (by omega) (by omega)
      rw [hyz.p1_eq, hyz.p2_eq, hxy.p1_eq, hxy.p2_eq] at hfilled
      exact hfilled

end Ready

end ScalarSql
