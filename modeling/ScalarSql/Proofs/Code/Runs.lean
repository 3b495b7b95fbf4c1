import ScalarSql.Proofs.Code.Ready

/-!
# What the runs of code compute

`Runs` says what a piece of code does whenever it starts: it has the outcome that its meaning gives,
goes on behind its end or at a label, and changes only what it may. If its meaning gives no outcome, it
fails. `Ready.bind` puts the runs of two pieces together.
-/

namespace ScalarSql

open Compiler Instr

variable {σ : Scope} {α β : Type}

/-- Where code goes on: at a label, else behind its end. -/
def World.place (w : World σ) (c' : Compiler) (goes : Option Label) : Nat :=
  goes.elim c'.size fun l => (w.addr l.index).toNat

/-- The run of the code between two states from a machine on. Its outcome is `d`; `goes` says where it
goes on, and `holds` what is true of the machine then. -/
def RunsFrom (w : World σ) (T : Int → Prop) (c c' : Compiler) (d : Env → Option α)
    (goes : α → Option Label) (holds : α → Machine → Prop) (m : Machine) : Prop :=
  Leads w.ops (fun b m' => (∃ a, d w.env = some a ∧ b = w.place c' (goes a) ∧ holds a m') ∧ Within w T c c' m m')
    (d w.env = none) (c'.size - c.size) c.size m

/-- As `RunsFrom`, where `place` gives the address at which the machine goes on. -/
def RunsTo (w : World σ) (T : Int → Prop) (c c' : Compiler) (d : Env → Option α) (place : α → Nat)
    (holds : α → Machine → Prop) (m : Machine) : Prop :=
  Leads w.ops (fun b m' => (∃ a, d w.env = some a ∧ b = place a ∧ holds a m') ∧ Within w T c c' m m')
    (d w.env = none) (c'.size - c.size) c.size m

def Runs (w : World σ) (K : Known) (T : Int → Prop) (c c' : Compiler)
    (d : Env → Option α) (goes : α → Option Label) (holds : α → Machine → Prop) : Prop :=
  ∀ m, Ready w K c c' m → RunsFrom w T c c' d goes holds m

/-- The code computes a value into the register. -/
abbrev Yields (w : World σ) (K : Known) (T : Int → Prop) (c c' : Compiler)
    (d : Reading) (r : Int) : Prop :=
  Runs w K T c c' d (fun _ => none) fun v m => m.register r = v

/-- The code jumps to the label or goes on. -/
abbrev Branches (w : World σ) (K : Known) (c c' : Compiler) (d : Env → Option Bool) (l : Label) : Prop :=
  Runs w K nowhere c c' d (fun t => if t then some l else none) fun _ _ => True

variable {w : World σ} {K : Known} {T T1 : Int → Prop} {c c1 c2 : Compiler}
  {m m1 : Machine} {ids : List Identity} {d : Env → Option α} {goes : α → Option Label}
  {holds : α → Machine → Prop} {r : Int}

/-- What code computes is its reading in the environment of the program. -/
theorem Runs.of_eq {d' : Env → Option α} (h : Runs w K T c c1 d goes holds) (heq : d w.env = d' w.env) :
    Runs w K T c c1 d' goes holds := by
  intro m ready
  have hrun := h m ready
  rwa [RunsFrom, heq] at hrun

/-! ## Single runs -/

namespace RunsTo

variable {place : α → Nat}

theorem done {a : α} (hd : d w.env = some a) (hplace : place a = c.size) (hholds : holds a m) :
    RunsTo w T c c1 d place holds m :=
  Leads.done ⟨⟨a, hd, hplace.symm, hholds⟩, .refl w T c c1 m⟩

theorem within (h : RunsTo w T c c1 d place holds m) :
    RunsTo w T c c1 d place (fun a m' => holds a m' ∧ Within w T c c1 m m') m := by
  refine Leads.weaken h ?_ id
  rintro b m1 ⟨⟨a, ha, hplace, hholds⟩, hw⟩
  exact ⟨⟨a, ha, hplace, hholds, hw⟩, hw⟩

end RunsTo

theorem runsFrom_iff : RunsFrom w T c c1 d goes holds m ↔ RunsTo w T c c1 d (fun a => w.place c1 (goes a)) holds m :=
  Iff.rfl

namespace RunsFrom

variable {i : Instr} {a : α}

theorem congr {d1 : Env → Option α} (h : RunsFrom w T c c1 d1 goes holds m)
    (hd : d w.env = d1 w.env) : RunsFrom w T c c1 d goes holds m := by
  unfold RunsFrom at *
  rw [hd]
  exact h

section

variable (hop : w.ops[c.size]? = some i)

include hop

theorem next (hstep : (i.step c.size).outcome m = (.ok .next, m1))
    (hsize : c1.size = c.size + 1) (hd : d w.env = some a) (hgoes : goes a = none) (hholds : holds a m1)
    (hw : Within w T c c1 m m1) : RunsFrom w T c c1 d goes holds m := by
  refine Leads.next hop hstep (k := 0) (by omega) (.done ⟨⟨a, hd, ?_, hholds⟩, hw⟩)
  rw [hgoes, World.place, Option.elim_none, hsize]

theorem error {e : RunError} (hstep : (i.step c.size).outcome m = (.error e, m1))
    (hsize : c.size < c1.size) (hd : d w.env = none) : RunsFrom w T c c1 d goes holds m :=
  Leads.error hop hstep (by omega) hd

theorem branch {t : Bool} {l : Label}
    (hstep : (i.step c.size).outcome m = (.ok (.jumpIf t), m1)) (hl : i.p2 = w.addr l.index)
    (hsize : c1.size = c.size + 1) (hd : d w.env = some a) (hgoes : goes a = if t then some l else none)
    (hholds : holds a m1) (hw : Within w T c c1 m m1) : RunsFrom w T c c1 d goes holds m := by
  refine Leads.branch hop hstep (k := 0) (by omega) (.done ⟨⟨a, hd, ?_, hholds⟩, hw⟩)
  rw [hgoes, hl, ← hsize]
  cases t <;> rfl

end

theorem done (hsize : c1.size = c.size) (hd : d w.env = some a) (hgoes : goes a = none) (hholds : holds a m) :
    RunsFrom w T c c1 d goes holds m :=
  RunsTo.done hd (by rw [hgoes, World.place, Option.elim_none, hsize]) hholds

theorem weaken {holds1 : α → Machine → Prop} (h : RunsFrom w T c c1 d goes holds1 m)
    (hholds : ∀ a m', d w.env = some a → holds1 a m' → holds a m') : RunsFrom w T c c1 d goes holds m := by
  refine Leads.weaken h ?_ id
  rintro b m1 ⟨⟨a, ha, hplace, ham⟩, hw⟩
  exact ⟨⟨a, ha, hplace, hholds a m1 ha ham⟩, hw⟩

/-- Registers that were lent are registers that the code may change. -/
theorem of_lend {S : Int → Prop} (h : RunsFrom (w.lend S) T c c1 d goes holds m) :
    RunsFrom w (fun r => T r ∨ S r ∧ ¬ w.Holds r) c c1 d goes holds m := by
  refine Leads.weaken h (fun b m1 hq => ⟨hq.1, ?_⟩) id
  refine { hq.2 with registers := fun r hs hr => hq.2.registers r (fun hl => ?_) fun ht => hr (.inl ht) }
  rcases hl with hf | hl | hl
  · exact hs (.inl hf)
  · exact hs (.inr hl)
  · exact hr (.inr hl)

theorem mono (h : RunsFrom w T1 c c1 d goes holds m) (hT : ∀ r, T1 r → T r ∨ w.Scratch c r) :
    RunsFrom w T c c1 d goes holds m :=
  Leads.weaken h (fun _ _ hq => ⟨hq.1, hq.2.mono hT⟩) id

variable (h : RunsFrom w T c c1 d goes holds m)

include h

theorem of_silent (hsize : c1.size = c.size) : ∃ a, d w.env = some a ∧ holds a m := by
  rw [RunsFrom, hsize, Nat.sub_self] at h
  obtain ⟨⟨a, ha, -, hholds⟩, -⟩ := h.of_zero
  exact ⟨a, ha, hholds⟩

theorem map {f : α → β} {d1 : Env → Option β} {goes1 : β → Option Label} {holds1 : β → Machine → Prop}
    (hd : d1 w.env = (d w.env).map f) (hgoes : ∀ a, goes1 (f a) = goes a) (hholds : ∀ a m, holds a m → holds1 (f a) m) :
    RunsFrom w T c c1 d1 goes1 holds1 m := by
  refine Leads.weaken h ?_ fun hnone => by rw [hd, hnone]; rfl
  rintro b m1 ⟨⟨a, ha, hplace, ham⟩, hw⟩
  refine ⟨⟨f a, by rw [hd, ha]; rfl, ?_, hholds a m1 ham⟩, hw⟩
  rw [hgoes]
  exact hplace

theorem within : RunsFrom w T c c1 d goes (fun a m' => holds a m' ∧ Within w T c c1 m m') m :=
  RunsTo.within h

theorem frame (hs : ¬ w.Scratch c r) (hT : ¬ T r) :
    RunsFrom w T c c1 d goes (fun a m' => holds a m' ∧ m'.register r = m.register r) m :=
  h.within.weaken fun _ _ _ hq => ⟨hq.1, hq.2.registers r hs hT⟩

end RunsFrom

/-! ## Runs of two pieces -/

namespace Ready

variable {d1 : Env → Option β} {goes1 : β → Option Label} {holds1 : β → Machine → Prop} {pins extra : Int → Prop}
  {a : α} {place : α → Nat} {l : Label}

section

variable (h : Ready w K c c2 m)

include h

section

variable (s1 : Passes σ c c1) (e : Extends (fun _ => True) (fun _ => True) c1 c2)

include s1 e

/-- The run of a first piece of code, and any run from where it goes on. -/
theorem andThen {Q : Nat → Machine → Prop} {X : Prop} {place1 : β → Nat} (hrun : RunsTo w T1 c c1 d1 place1 holds1 m)
    (hT : ∀ r, T1 r → w.Avoids K r) (hnone : d1 w.env = none → X)
    (hnext : ∀ b m1, d1 w.env = some b → holds1 b m1 → Within w T1 c c1 m m1 →
      (place1 b = c1.size → Ready w K c1 c2 m1) → Leads w.ops Q X (c2.size - c1.size) (place1 b) m1) :
    Leads w.ops Q X (c2.size - c.size) c.size m := by
  have hsize1 := s1.follows.size_le
  have hsize2 := e.size_le
  rw [show c2.size - c.size = (c1.size - c.size) + (c2.size - c1.size) by omega]
  by_cases hne : c.size = c1.size
  · -- the first piece has no code, so the machine is as it was
    rw [RunsTo, show c1.size - c.size = 0 by omega] at hrun
    obtain ⟨⟨x, hx, hplace, hholds⟩, hw⟩ := hrun.of_zero
    rw [show c1.size - c.size + (c2.size - c1.size) = c2.size - c1.size by omega, hplace]
    exact hnext x m hx hholds hw fun _ => h.next s1 e hw.toFrame hT (absurd hne) fun _ => rfl
  · refine (World.leads_copied hrun hne).bind ?_ hnone
    rintro b m1 ⟨⟨⟨x, hx, rfl, hholds⟩, hw⟩, hcopied⟩
    exact hnext x m1 hx hholds hw fun hplace =>
      h.next s1 e hw.toFrame hT (fun _ => hcopied hplace) fun he => absurd he hne

/-- Code in two pieces, where the run of the first one is known: it goes on behind its end, and the
second piece is run, or it goes on where the whole code does. -/
theorem bindTo {place1 : β → Nat}
    (hrun : RunsTo w T1 c c1 d1 place1 holds1 m) (hT : ∀ r, T1 r → w.Avoids K r ∧ (T r ∨ w.Scratch c r))
    (hnone : d1 w.env = none → d w.env = none) (hgo : ∀ b m1, d1 w.env = some b → holds1 b m1 →
      (place1 b = c1.size ∧ (Ready w K c1 c2 m1 → RunsTo w T c1 c2 d place holds m1)) ∨
      ∃ a, d w.env = some a ∧ place1 b = place a ∧ holds a m1) : RunsTo w T c c2 d place holds m := by
  have hsize := e.size_le
  have hdivided := h.divided s1.good e
  refine h.andThen s1 e hrun (fun r hr => (hT r hr).1) hnone fun b m1 hb hholds hw hready => ?_
  have hw' : Within w T c c1 m m1 := hw.mono fun r hr => (hT r hr).2
  rcases hgo b m1 hb hholds with ⟨hplace, hnext⟩ | ⟨a, ha, hplace, hholds'⟩
  · rw [hplace]
    exact Leads.weaken (hnext (hready hplace))
      (fun _ _ hq => ⟨hq.1, hw'.trans hq.2 s1.follows e.cursors hsize hdivided⟩) id
  · exact .done ⟨⟨a, ha, hplace, hholds'⟩, hw'.extend e.cursors hsize hdivided⟩

theorem bindFrom (hrun : RunsFrom w T1 c c1 d1 (fun _ => none) holds1 m)
    (hT : ∀ r, T1 r → w.Avoids K r ∧ (T r ∨ w.Scratch c r)) (hnone : d1 w.env = none → d w.env = none)
    (hnext : ∀ b m1, d1 w.env = some b → holds1 b m1 → Ready w K c1 c2 m1 → RunsFrom w T c1 c2 d goes holds m1) :
    RunsFrom w T c c2 d goes holds m :=
  h.bindTo s1 e hrun hT hnone fun b m1 hb hholds => .inl ⟨rfl, hnext b m1 hb hholds⟩

end

section

variable (s1 : Step σ ids c c1)

include s1

theorem bind (k : Continues c1 c2) (h1 : Ready w K c c1 m → RunsFrom w T1 c c1 d1 goes1 holds1 m)
    (hT : ∀ r, T1 r → w.Avoids K r ∧ (T r ∨ w.Scratch c r)) (hnone : d1 w.env = none → d w.env = none)
    (hexit : ∀ b l m1, d1 w.env = some b → goes1 b = some l → holds1 b m1 →
      ∃ a, d w.env = some a ∧ (w.addr l.index).toNat = w.place c2 (goes a) ∧ holds a m1)
    (hnext : ∀ b m1, d1 w.env = some b → goes1 b = none → holds1 b m1 → Ready w K c1 c2 m1 →
      RunsFrom w T c1 c2 d goes holds m1) : RunsFrom w T c c2 d goes holds m := by
  refine h.bindTo s1.passes k.grows.weaken (h1 (h.first s1 k.grows k.guarded)) hT hnone fun b m1 hb hholds => ?_
  cases hgoes : goes1 b with
  | none => exact .inl ⟨rfl, hnext b m1 hb hgoes hholds⟩
  | some l => exact .inr (hexit b l m1 hb hgoes hholds)

theorem bindBranch {d1 : Env → Option Bool} {holds1 : Bool → Machine → Prop}
    (k : Continues c1 c2) (h1 : Ready w K c c1 m → RunsFrom w T1 c c1 d1 (fun t => if t then some l else none) holds1 m)
    (hT : ∀ r, T1 r → w.Avoids K r ∧ (T r ∨ w.Scratch c r)) (hnone : d1 w.env = none → d w.env = none)
    (hexit : ∀ m1, d1 w.env = some true → holds1 true m1 →
      ∃ a, d w.env = some a ∧ (w.addr l.index).toNat = w.place c2 (goes a) ∧ holds a m1)
    (hnext : ∀ m1, d1 w.env = some false → holds1 false m1 → Ready w K c1 c2 m1 → RunsFrom w T c1 c2 d goes holds m1) :
    RunsFrom w T c c2 d goes holds m := by
  refine h.bind s1 k h1 hT hnone (fun t _ m1 ht hgoes hholds => ?_) fun t m1 ht hgoes hholds ready => ?_
  · cases t with
    | false => cases hgoes
    | true =>
      cases hgoes
      exact hexit m1 ht hholds
  · cases t with
    | true => cases hgoes
    | false => exact hnext m1 ht hholds ready

section

variable (e : Extends pins extra c1 c2) (hsize : c1.size = c.size)

include e hsize

theorem silentTo (hnext : Ready w K c1 c2 m → RunsTo w T c1 c2 d place holds m) : RunsTo w T c c2 d place holds m := by
  have hw : Within w nowhere c c1 m m := .refl w _ c c1 m
  have hready := h.next s1.passes e.weaken hw.toFrame (fun _ hf => hf.elim)
    (fun hne => absurd hsize.symm hne) fun _ => rfl
  have hrun := hnext hready
  unfold RunsTo at hrun ⊢
  rw [← hsize]
  exact Leads.weaken hrun (fun _ _ hq => ⟨hq.1, (hw.mono fun _ hf => hf.elim).trans hq.2 s1.follows
    e.cursors e.size_le (h.divided s1.good e)⟩) id

theorem silent (hnext : Ready w K c1 c2 m → RunsFrom w T c1 c2 d goes holds m) : RunsFrom w T c c2 d goes holds m :=
  h.silentTo s1 e hsize hnext

end

end

theorem beforeFrom (hc1 : c1.Good σ) (e : Extends pins extra c1 c2) (hsize : c2.size = c1.size)
    (hrun : RunsFrom w T c c1 d goes holds m) : RunsFrom w T c c2 d goes holds m := by
  unfold RunsFrom at hrun ⊢
  rw [hsize]
  refine Leads.weaken hrun (fun _ _ hq => ⟨?_, hq.2.extend e.cursors e.size_le (h.divided hc1 e)⟩) id
  simpa only [World.place, hsize] using hq.1

theorem before (s1 : Step σ ids c c1) (e : Extends nowhere c1.Free c1 c2) (hguarded : Guarded c c1 c2)
    (hsize : c2.size = c1.size) (h1 : Runs w K T c c1 d goes holds) : RunsFrom w T c c2 d goes holds m :=
  h.beforeFrom s1.good e hsize (h1 m (h.first s1 e hguarded))

theorem bindValue {d1 : Reading} (s1 : Step σ ids c c1) (k : Continues c1 c2) (h1 : Yields w K T1 c c1 d1 r)
    (hT : ∀ r, T1 r → w.Avoids K r ∧ (T r ∨ w.Scratch c r)) (hr : ¬ c1.Free r) (hlent : ¬ w.lent r)
    (hnone : d1 w.env = none → d w.env = none)
    (hnext : ∀ v, d1 w.env = some v → Runs w ((r, v) :: K) T c1 c2 d goes holds) :
    RunsFrom w T c c2 d goes holds m := by
  refine h.bind s1 k (h1 m) hT hnone (fun _ _ _ _ hg => by cases hg) fun v m1 hv _ hval hready => ?_
  refine hnext v hv m1 ?_
  have hheld := hready.hold hr hlent
  rwa [hval] at hheld

end

/-! ## Single instructions -/

variable {ins : (Nat → Int) → Instr}

section

variable (h : Ready w K c c1 m) (e : Emits c c1 ins) (hop : (ins w.addr).opcode ≠ .copy)

include h e hop

theorem emit (hstep : ((ins w.addr).step c.size).outcome m = (.ok .next, m1)) (hd : d w.env = some a)
    (hgoes : goes a = none) (hholds : holds a m1) (hw : Within w T c c1 m m1) : RunsFrom w T c c1 d goes holds m :=
  .next (h.emitted_last e (Nat.le_refl _) hop) hstep e.size hd hgoes hholds hw

theorem emitSet {d : Reading} {v : Value} (hr : 0 ≤ r)
    (hstep : (ins w.addr).Sets c.size m r v) (hd : d w.env = some v) :
    RunsFrom w (· = r) c c1 d (fun _ => none) (fun v m => m.register r = v) m :=
  h.emit e hop hstep hd rfl (Machine.register_setRegister_self m hr v) (.of_writes (.setRegister m hr v) fun _ => .inl)

theorem emitFail {error : RunError} (hstep : ((ins w.addr).step c.size).outcome m = (.error error, m1))
    (hd : d w.env = none) : RunsFrom w T c c1 d goes holds m :=
  .error (h.emitted_last e (Nat.le_refl _) hop) hstep (by rw [e.size]; omega) hd

theorem emitBranch {t : Bool} (hstep : ((ins w.addr).step c.size).outcome m = (.ok (.jumpIf t), m1))
    (hl : (ins w.addr).p2 = w.addr l.index) (hd : d w.env = some a) (hgoes : goes a = if t then some l else none)
    (hholds : holds a m1) (hw : Within w T c c1 m m1) : RunsFrom w T c c1 d goes holds m :=
  .branch (h.emitted_last e (Nat.le_refl _) hop) hstep hl e.size hd hgoes hholds hw

end

/-- The code copies a register; a copy that is widened later fills further scratch registers. -/
theorem emitCopy {d : Reading} {op : Opcode} {s t : Int} (hcopy : op = .copyOne ∨ op = .copy) (h : Ready w K c c1 m)
    (s1 : Step σ ids c c1) (e : Emits c c1 fun _ => .of op s t) (ht : 0 ≤ t) (hd : d w.env = some (m.register s)) :
    RunsFrom w (· = t) c c1 d (fun _ => none) (fun v m => m.register t = v) m := by
  rcases hcopy with rfl | rfl
  · exact h.emitSet e (by simp) ht (step_copyOne ht) hd
  · obtain ⟨x, y, hx, hy, hxy, -⟩ := h.code c.size (Nat.le_refl _) (by rw [e.size]; omega)
    cases hx.symm.trans (e.code w.addr h.settled)
    obtain ⟨m', hrun, hwrites, hfirst, -⟩ :=
      outcome_copy (y.p3.toNat + 1) m y.p1 y.p2 (by rw [hxy.p2_eq]; exact ht)
    have hstep : (y.step c.size).outcome m = (.ok .next, m') := by
      have hop := hxy.opcode_eq
      cases y
      cases hop
      simp only [step, Exec.outcome_bind, hrun]
      rfl
    have hvalue : m'.register t = m.register s := by
      have hfirst := hfirst (by omega)
      rwa [hxy.p1_eq, hxy.p2_eq] at hfirst
    refine .next hy hstep e.size hd rfl hvalue (.of_writes hwrites fun r hr => ?_)
    rcases hxy with rfl | ⟨-, n, hn, rfl, hextra⟩
    · simp only [of] at hr
      exact .inl (by omega)
    · simp only [of] at hr hn hextra
      by_cases hrt : r = t
      · exact .inl hrt
      · have hscratch := hextra (r - t) (by omega) (by omega)
        rw [show t + (r - t) = r by omega] at hscratch
        exact .inr (hscratch.imp_left fun hf => ⟨s1.free r hf.1, hf.2⟩)

theorem emitGoto (h : Ready w K c c1 m) (e : Emits c c1 fun addr => { of .goto with p2 := addr l.index })
    (hd : d w.env = some a) (hgoes : goes a = some l) (hholds : holds a m) : RunsFrom w T c c1 d goes holds m := by
  have hop := h.emitted_last e (Nat.le_refl _) (by simp)
  refine Leads.jump hop (step_goto rfl) (k := 0) (by rw [e.size]; omega) (.done ⟨⟨a, hd, ?_, hholds⟩, .refl w T c c1 m⟩)
  rw [hgoes]
  rfl

end Ready

end ScalarSql
