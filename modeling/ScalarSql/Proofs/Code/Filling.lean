import ScalarSql.Proofs.Code.Realizes

/-!
# Filling registers in a row

The fields of a row value and the arguments of a call are computed into registers in a row, which are
taken before any of them is filled. A constant may be pinned to its register, so that there is no code
for it; and the copy that fills one register may later be widened to the next one. So while a register is
filled, those behind it are lent.
-/

namespace ScalarSql

open Compiler Gen

variable {σ : Scope} {K : Known} {ids ids1 ids2 : List Identity} {P : Prop} {hoisting : Bool}
  {d : Reading} {reg : Int} {g : Gen Unit} {values : List Value} {ds : List Reading}
  {c c1 : Compiler} {n : Nat} {m : Machine} {g1 g2 : Gen Unit} {c2 : Compiler}

/-- The register belongs to code that fills it: it is not lent and not in use, and if it holds a constant
then the code pinned it. -/
structure World.Owns (w : World σ) (K : Known) (c' : Compiler) (r : Int) : Prop where
  lent : ¬ w.lent r
  held : ∀ p ∈ K, p.1 ≠ r
  constant : w.Holds r → c'.HoldsConstant r

/-- The step fills a register; `P` says whether a constant may be pinned to it, and `hoisting` whether
constants are set aside at all. Its code runs before code that fills the registers of `S`. -/
def FillsAt (σ : Scope) (K : Known) (ids : List Identity) (P : Prop) (hoisting : Bool)
    (g : Gen Unit) (reg : Int) (d : Reading) : Prop :=
  ∀ ⦃c c'⦄, g.Makes c () c' → c.Good σ → c.hoisting = hoisting → c.Open reg → Unused ids c →
    Fills σ (fun r => r = reg ∧ P) (· = reg) ids c c' ∧ ∀ (w : World σ) (S pins : Int → Prop) c2 m, Ready w K c c2 m →
        Extends pins (fun r => c'.Free r ∨ S r) c' c2 → (∀ r, c2.Free r → c'.Free r) →
        (∀ r, pins r → S r) → (∀ r, S r → ¬ c.Free r ∧ r ≠ reg ∧ w.Owns K c2 r) →
        w.Owns K c2 reg →
        RunsFrom w (fun r => (r = reg ∨ S r) ∧ ¬ w.Holds r) c c' d (fun _ => none) (fun v m => m.register reg = v) m

theorem FillsAt.pin {e : Expr} (hconst : e.isConstant .notJoin) (hplain : e.Plain σ) (hP : P) :
    FillsAt σ K e.identities P true (discard (hoist e (some reg))) reg e.meaning.value := by
  intro c c' hmakes hc hhoisting hreg hids
  obtain ⟨r, hmakes⟩ := makes_discard.1 hmakes
  obtain ⟨hfills, hb, hmem⟩ := hoist_some_spec hmakes hc hhoisting hreg hconst hplain hids
  refine ⟨hfills.mono (fun r hr => ⟨hr, hP⟩) (fun _ h => h) fun _ h => h, ?_⟩
  intro w S pins c2 m ready e2 _ _ _ _
  have hvalue := ready.constants _ (ready.known _ (e2.mem_hoisted hmem))
  exact .done (by rw [size, hb, size]) hvalue rfl rfl

/-- A step that writes no register but its target and free ones fills the target. -/
theorem FillsAt.of_step (h : ∀ ⦃c c'⦄, g.Makes c () c' → c.Good σ → c.Open reg → Unused ids c →
      Step σ ids c c' ∧ ∀ w : World σ, w.Avoids K reg → Yields w K (· = reg) c c' d reg) :
    FillsAt σ K ids P hoisting g reg d := by
  intro c c' hmakes hc _ hreg hids
  obtain ⟨s, hrun⟩ := h hmakes hc hreg hids
  refine ⟨s.fills, fun w S pins c2 m ready e2 hfree hpins hS hown => ?_⟩
  have hopen := hreg.step s
  have hnot : ¬ w.Holds reg := by
    intro hholds
    rcases e2.holdsConstant_of_new (hown.constant hholds) with hold | hlt | hpin
    · exact hopen.unhoisted hold
    · exact hopen.taken (.inr hlt)
    · exact (hS reg (hpins reg hpin)).2.1 rfl
  have hready := ready.firstLent s.passes e2 (.inr (.inr (.inr hfree)))
    (fun r hr => (hS r (hpins r hr)).1) (fun r hr => (hS r hr).1)
    (fun r hr => (hS r hr).2.2.constant) fun p hp hr => (hS _ hr).2.2.held p hp rfl
  have havoid : (w.lend S).Avoids K reg :=
    ⟨hnot, fun hl => hl.elim hown.lent fun hs => (hS reg hs.1).2.1 rfl, hown.held⟩
  refine (hrun (w.lend S) havoid m hready).of_lend.mono fun r hr => .inl ?_
  rcases hr with rfl | hr
  · exact ⟨.inl rfl, hnot⟩
  · exact ⟨.inr hr.1, hr.2⟩

theorem FillsAt.load {g : Int → Gen Unit} (h : Loads σ K ids g d) : FillsAt σ K ids P hoisting (g reg) reg d :=
  .of_step fun _ _ hmakes => h hmakes

theorem Code.Realizes.factored {code : Code} (h : code.Realizes σ K d) (hP : code.expr.isConstant .notJoin → P) :
    FillsAt σ K code.expr.identities P hoisting (code.factored reg) reg d := by
  intro c c' hmakes hc hhoisting
  simp only [Code.factored, makes_bind, makes_hoists] at hmakes
  obtain ⟨b, _, ⟨rfl, rfl⟩, hmakes⟩ := hmakes
  split at hmakes
  · rename_i hhoists
    simp only [Bool.and_eq_true] at hhoists
    obtain ⟨hplain, rfl⟩ := h.constant hhoists.2
    exact FillsAt.pin hhoists.2 hplain (hP hhoists.2) hmakes hc hhoists.1
  · exact FillsAt.load h.exact hmakes hc hhoisting

/-! ## Rows of registers -/

def InRow (reg : Int) (n : Nat) (r : Int) : Prop := reg ≤ r ∧ r < reg + n

theorem InRow.head : InRow reg (n + 1) reg := ⟨Int.le_refl _, by omega⟩

theorem InRow.tail {r : Int} (h : InRow (reg + 1) n r) : InRow reg (n + 1) r := by
  obtain ⟨hlo, hhi⟩ := h
  exact ⟨by omega, by omega⟩

def Filled (reg : Int) (values : List Value) (m : Machine) : Prop :=
  ∀ (i : Nat) v, values[i]? = some v → m.register (reg + i) = v

theorem Filled.cons {v : Value} (hv : m.register reg = v) (h : Filled (reg + 1) values m) :
    Filled reg (v :: values) m := by
  intro i u hu
  cases i with
  | zero =>
    cases hu
    rw [Int.natCast_zero, Int.add_zero]
    exact hv
  | succ i =>
    have hi := h i u (by simpa using hu)
    rwa [show reg + 1 + (i : Int) = reg + ((i + 1 : Nat) : Int) by omega] at hi

/-- The step fills registers in a row if it starts in the given state. -/
def FillsRowFrom (σ : Scope) (K : Known) (ids : List Identity) (P : Prop) (hoisting : Bool)
    (g : Gen Unit) (reg : Int) (ds : List Reading) (c : Compiler) : Prop :=
  ∀ ⦃c'⦄, g.Makes c () c' → c.Good σ → c.hoisting = hoisting → (∀ r, InRow reg ds.length r → c.Open r) → Unused ids c →
    Fills σ (fun r => InRow reg ds.length r ∧ P) (InRow reg ds.length) ids c c' ∧
      ∀ w : World σ, (∀ r, InRow reg ds.length r → w.Owns K c' r) →
        Runs w K (fun r => InRow reg ds.length r ∧ ¬ w.Holds r) c c'
          (fun env => ds.mapM (· env)) (fun _ => none) (Filled reg)

def FillsRow (σ : Scope) (K : Known) (ids : List Identity) (P : Prop) (hoisting : Bool)
    (g : Gen Unit) (reg : Int) (ds : List Reading) : Prop :=
  ∀ ⦃c⦄, FillsRowFrom σ K ids P hoisting g reg ds c

theorem FillsRow.start (h : FillsRow σ K ids P hoisting g reg ds) (c : Compiler) (_ : c.sharedResults = []) :
    FillsRowFrom σ K ids P hoisting g reg ds c :=
  h (c := c)

theorem FillsRow.nil : FillsRow σ K ids P hoisting (pure ()) reg [] := by
  intro c c' hmakes hc _ _ _
  obtain ⟨-, rfl⟩ := makes_pure.1 hmakes
  refine ⟨((Step.refl hc).mono (by simp)).fills, fun w _ m ready => ?_⟩
  exact .done rfl (a := []) rfl rfl fun i v hv => by simp at hv

/-- A register is filled, and then those behind it, which may depend on its value. -/
theorem FillsRow.bind {rest : Value → List Reading} (h1 : FillsAt σ K ids1 P hoisting g1 reg d)
    (h2 : ∀ v, FillsRow σ ((reg, v) :: K) ids2 P hoisting g2 (reg + 1) (rest v))
    (hlength : ∀ v, (rest v).length = ds.length)
    (hrest : ∀ env v, d env = some v → (rest v).mapM (· env) = ds.mapM (· env)) :
    FillsRow σ K (ids1 ++ ids2) P hoisting (do g1; g2) reg (d :: ds) := by
  intro c c' hmakes hc hhoisting hopen hids
  simp only [makes_bind] at hmakes
  obtain ⟨⟨⟩, c1, hfirst, hmakes⟩ := hmakes
  have hreg : InRow reg (d :: ds).length reg := .head
  have hin (r : Int) (hr : InRow (reg + 1) ds.length r) : InRow reg (d :: ds).length r := hr.tail
  have hne (r : Int) (hr : InRow (reg + 1) ds.length r) : r ≠ reg := fun he => by
    have := hr.1
    omega
  obtain ⟨f1, hrun1⟩ := h1 hfirst hc hhoisting (hopen reg hreg) hids.left
  have hhoisting1 := f1.grows.hoisting.trans hhoisting
  have hopen1 (r : Int) (hr : InRow (reg + 1) ds.length r) : c1.Open r :=
    (hopen r (hin r hr)).fills f1 fun hp => hne r hr hp.1
  have hfills (v : Value) := h2 v hmakes f1.good hhoisting1 (by rwa [hlength]) (hids.rest f1.used)
  simp only [hlength] at hfills
  obtain ⟨f2, -⟩ := hfills .null
  refine ⟨(f1.trans f2 ?_).mono ?_ ?_ fun _ h => h, fun w hown m ready => ?_⟩
  · rintro r (hf | rfl) ⟨hr, -⟩
    · exact (hopen r (hin r hr)).taken hf
    · exact hne r hr rfl
  · rintro r (⟨rfl, hP⟩ | ⟨hr, hP⟩)
    · exact ⟨hreg, hP⟩
    · exact ⟨hin r hr, hP⟩
  · rintro r (rfl | hr)
    · exact hreg
    · exact hin r hr
  · have hfirstRun := hrun1 w (InRow (reg + 1) ds.length) _ c' m ready f2.grows f2.free
      (fun r hr => hr.1) (fun r hr => ⟨(hopen r (hin r hr)).taken, hne r hr, hown r (hin r hr)⟩)
      (hown reg hreg)
    refine ready.bindFrom f1.passes f2.grows.weaken hfirstRun (fun r hr => ?_)
      (fun hnone => by simp [hnone]) fun v m1 hv hval ready1 => ?_
    · have hrow : InRow reg (d :: ds).length r := hr.1.elim (fun he => he ▸ hreg) (hin r)
      exact ⟨⟨hr.2, (hown r hrow).lent, (hown r hrow).held⟩, .inl ⟨hrow, hr.2⟩⟩
    · have htaken : ¬ c1.Free reg := fun hf => (hopen reg hreg).taken (f1.free reg hf)
      have ready2 := ready1.hold htaken (hown reg hreg).lent
      rw [hval] at ready2
      have hrun2 := (hfills v).2 w (fun r hr =>
        ⟨(hown r (hin r hr)).lent, List.forall_mem_cons.2 ⟨(hne r hr).symm,
          (hown r (hin r hr)).held⟩, (hown r (hin r hr)).constant⟩) m1 ready2
      refine ((hrun2.frame (r := reg) ?_ ?_).map (f := (v :: ·)) ?_ (fun _ => rfl) ?_).mono
        fun r hr => .inl ⟨hin r hr.1, hr.2⟩
      · exact fun hs => hs.elim (fun hf => htaken hf.1) (hown reg hreg).lent
      · exact fun hr => hne reg hr.1 rfl
      · simp only [List.mapM_cons, hv, hrest _ v hv]
        cases ds.mapM (· w.env) <;> rfl
      · exact fun vs m2 hholds => .cons (hholds.2.trans hval) hholds.1

theorem FillsRow.cons (h1 : FillsAt σ K ids1 P hoisting g1 reg d)
    (h2 : ∀ v, FillsRow σ ((reg, v) :: K) ids2 P hoisting g2 (reg + 1) ds) :
    FillsRow σ K (ids1 ++ ids2) P hoisting (do g1; g2) reg (d :: ds) :=
  .bind h1 h2 (fun _ => rfl) fun _ _ _ => rfl

theorem FillsRow.factorFields {codes : List Code} (h : List.Forall₂ (Code.Realizes σ K) codes ds) (hP : P) :
    FillsRow σ K (codes.flatMap (·.expr.identities)) P hoisting (Coded.factorFields codes reg) reg ds := by
  induction codes generalizing ds K reg with
  | nil =>
    cases h
    exact .nil
  | cons code rest ih =>
    cases h with
    | cons hcode hrest =>
      refine .cons (hcode.factored fun _ => hP) fun v => ih (hrest.imp fun _ _ hr => hr.hold ?_)
      exact fun _ => List.mem_cons_of_mem _

section

variable {α β : Type} {f : α → Option β} {l : List α} {bs : List β}

theorem mapM_eq_some : l.mapM f = some bs ↔ l.map f = bs.map some := by
  induction l generalizing bs with
  | nil => cases bs <;> simp
  | cons a l ih => cases bs <;> simp [List.mapM_cons, Option.bind_eq_some_iff, ih]

section

variable (h : l.mapM f = some bs)

include h

theorem length_of_mapM : bs.length = l.length := by
  simpa using (congrArg List.length (mapM_eq_some.1 h)).symm

theorem getElem?_of_mapM {i : Nat} {x : α} (hx : l[i]? = some x) : ∃ y, f x = some y ∧ bs[i]? = some y := by
  have hi := congrArg (·[i]?) (mapM_eq_some.1 h)
  simp only [List.getElem?_map, hx, Option.map_some] at hi
  obtain ⟨y, hy, heq⟩ := Option.map_eq_some_iff.1 hi.symm
  exact ⟨y, heq.symm, hy⟩

theorem mem_of_mapM {b : β} (hb : b ∈ bs) : ∃ a ∈ l, f a = some b :=
  List.mem_map.1 (mapM_eq_some.1 h ▸ List.mem_map_of_mem hb)

end

end

/-! ## Taking the registers -/

/-- The entries of what is held for values in registers in a row. -/
def rowEntries (reg : Int) : List Value → Known
  | [] => []
  | v :: values => (reg, v) :: rowEntries (reg + 1) values

theorem mem_rowEntries {p : Int × Value} :
    p ∈ rowEntries reg values ↔ ∃ i : Nat, values[i]? = some p.2 ∧ p.1 = reg + i := by
  induction values generalizing reg with
  | nil => simp [rowEntries]
  | cons v values ih =>
    rw [rowEntries, List.mem_cons, ih]
    constructor
    · rintro (rfl | ⟨i, hi, hp⟩)
      · exact ⟨0, rfl, by simp⟩
      · exact ⟨i + 1, by simpa using hi, by omega⟩
    · rintro ⟨i, hi, hp⟩
      cases i with
      | zero =>
        left
        obtain ⟨r, u⟩ := p
        simp only [List.getElem?_cons_zero, Option.some.injEq] at hi
        simp only [Int.natCast_zero, Int.add_zero] at hp
        rw [hi, hp]
      | succ i => exact .inr ⟨i, by simpa using hi, by omega⟩

theorem Ready.holdRow {w : World σ} (h : Ready w K c c1 m) (hfilled : Filled reg values m)
    (hsteady : ∀ i : Nat, i < values.length → ¬ c.Free (reg + i) ∧ ¬ w.lent (reg + i)) :
    Ready w (rowEntries reg values ++ K) c c1 m := by
  refine { h with held := List.forall_mem_append.2 ⟨fun p hp => ?_, h.held⟩ }
  obtain ⟨i, hi, hreg⟩ := mem_rowEntries.1 hp
  have hlt : i < values.length := (List.getElem?_eq_some_iff.1 hi).1
  rw [hreg]
  exact ⟨(hsteady i hlt).1, (hsteady i hlt).2, hfilled i _ hi⟩

/-- Registers in a row are taken and filled; where constants may be pinned, the registers must be new. -/
theorem FillsRow.take (h : FillsRow σ K ids P c.hoisting g reg ds) (s1 : Step σ [] c c1)
    (hgrows : Extends nowhere nowhere c c1) (hsize : c1.size = c.size)
    (htaken : ∀ r, InRow reg ds.length r → Taken c c1 r) (hnew : P → ∀ r, InRow reg ds.length r → c.highest < r)
    (hg : g.Makes c1 () c2) (hids : Unused ids c) :
    Step σ ids c c2 ∧ (∀ r, InRow reg ds.length r → c.Free r ∧ ¬ c2.Free r) ∧
      (¬ P → ∀ r, InRow reg ds.length r → Taken c c2 r) ∧
      ∀ w : World σ, Runs w K nowhere c c2 (fun env => ds.mapM (· env)) (fun _ => none) (Filled reg) := by
  obtain ⟨f2, hrun⟩ := h hg s1.good s1.grows.hoisting (fun r hr => (htaken r hr).isOpen) (hids.step s1)
  have hstep : Step σ ids c c2 := Fills.step s1 hgrows f2 (fun r hr => hnew hr.2 r hr.1) fun r hr => (htaken r hr).free
  have hnotFree (r : Int) (hr : InRow reg ds.length r) : ¬ c2.Free r := fun hf => (htaken r hr).taken (f2.free r hf)
  have hopen (hP : ¬ P) (r : Int) (hr : InRow reg ds.length r) : Taken c c2 r :=
    have hr2 := (htaken r hr).isOpen.fills f2 fun hpin => hP hpin.2
    ⟨(htaken r hr).free, hr2.pos, hr2.taken, hr2.unhoisted⟩
  refine ⟨hstep, fun r hr => ⟨(htaken r hr).free, hnotFree r hr⟩, hopen, fun w m ready => ?_⟩
  refine (ready.silent s1 f2.grows hsize (hrun w (fun r hr => ?_) m)).mono fun r hr => ?_
  · refine ⟨fun hl => (ready.lent r hl).1 (htaken r hr).free,
      fun p hp he => (ready.held p hp).1 (he ▸ (htaken r hr).free), fun hholds => ?_⟩
    rcases ready.later r hholds with hconst | hlt | hfree
    · exact hconst
    · exact absurd (le_highest (hnotFree r hr)) (Int.not_le.2 hlt)
    · exact absurd (htaken r hr).free hfree
  · exact .inr (.inl ⟨(htaken r hr.1).free, hr.2⟩)

theorem FillsRow.alloc (h : FillsRow σ K ids P c.hoisting g reg ds)
    (halloc : (allocRegs ds.length).Makes c reg c1) (hg : g.Makes c1 () c2) (hc : c.Good σ) (hids : Unused ids c) :
    Step σ ids c c2 ∧ (∀ r, InRow reg ds.length r → c.Free r ∧ ¬ c2.Free r) ∧
      ∀ w : World σ, Runs w K nowhere c c2 (fun env => ds.mapM (· env)) (fun _ => none) (Filled reg) := by
  obtain ⟨s1, htaken⟩ := allocRegs_spec halloc hc (by omega)
  have hrow (r : Int) (hr : InRow reg ds.length r) : c.highest < r ∧ Taken c c1 r := by
    have hk := htaken (r - reg) (by have := hr.1; omega) (by have := hr.2; omega)
    rwa [show reg + (r - reg) = r by omega] at hk
  obtain ⟨-, rfl⟩ := makes_allocRegs.1 halloc
  obtain ⟨hstep, hfree, -, hrun⟩ := h.take s1 (.of_registers (by omega)) rfl
    (fun r hr => (hrow r hr).2) (fun _ r hr => (hrow r hr).1) hg hids
  exact ⟨hstep, hfree, hrun⟩

end ScalarSql
