import ScalarSql.Proofs.Code.Makes
import ScalarSql.Proofs.Collations
import ScalarSql.Proofs.Expr.Plain
import ScalarSql.Proofs.Program.Patching

/-!
# What a step of a compilation keeps

Registers are either free or taken. Free ones are in the pools, or lie above the highest one; code
may overwrite the registers that are free when it starts and no others but its target. A constant that
was set aside has a register of its own, which is never free again.

`Compiler.Good` collects what holds of every state, `Extends` says how a later state continues an
earlier one, and `Step` is what every piece of code has in common: it extends the program, leaves no
register free that was taken, and gives no address to labels that are not its own.
-/

namespace ScalarSql

open Builder

/-- No register. -/
@[simp]
abbrev nowhere : Int → Prop := fun _ => False

structure Instr.CopiesApart (σ : Scope) (x : Instr) : Prop where
  nonempty : 0 ≤ x.p3
  target : 0 ≤ x.p2
  apart : ∀ j k, 0 ≤ j → j ≤ x.p3 → 0 ≤ k → k ≤ x.p3 → x.p2 + j ≠ x.p1 + k
  single : σ.Unmerged → x.p3 = 0

namespace Compiler

def size (c : Compiler) : Nat := c.builder.ops.size

/-- The label was made in this compilation. -/
abbrev Made (c : Compiler) (l : Label) : Prop := l.index < c.builder.labels.size

def Pooled (c : Compiler) (r : Int) : Prop :=
  r ∈ c.pool ∨ c.poolRange.1 ≤ r ∧ r < c.poolRange.1 + c.poolRange.2

def Free (c : Compiler) (r : Int) : Prop := c.Pooled r ∨ c.highest < r

def HoldsConstant (c : Compiler) (r : Int) : Prop := ∃ h ∈ c.hoisted.toList, h.reg = r

/-- The register is that of a constant that was set aside and that equal expressions may share. -/
def HoldsShared (c : Compiler) (r : Int) : Prop :=
  ∃ h ∈ c.hoisted.toList, h.shared = true ∧ h.reg = r

theorem HoldsShared.holdsConstant {c : Compiler} {r : Int} (h : c.HoldsShared r) : c.HoldsConstant r := by
  obtain ⟨x, hx, -, rfl⟩ := h
  exact ⟨x, hx, rfl⟩

/-- The identities of nodes that have code: as a routine, or among the constants set aside. -/
def used (c : Compiler) : List Identity :=
  c.routines.map (·.1) ++ c.hoisted.toList.flatMap fun h => h.expr.identities

/-- The copy reads shared constants and results that lists refer to. It writes no shared constant, and
copies no result to another one. -/
def CopiesShared (σ : Scope) (c : Compiler) (x : Instr) : Prop :=
  ∀ k, 0 ≤ k → k ≤ x.p3 → (c.HoldsShared (x.p1 + k) ∨ σ.aside (x.p1 + k) ∧ ¬ σ.aside (x.p2 + k)) ∧
      ¬ c.HoldsShared (x.p2 + k) ∧ x.p2 + k ≤ c.highest

/-- What holds of the states of a compilation in a scope. -/
structure Good (σ : Scope) (c : Compiler) : Prop where
  builder : c.builder.WellFormed
  highest : 0 ≤ c.highest
  pooled : ∀ r, c.Pooled r → 1 ≤ r ∧ r ≤ c.highest
  distinct : c.pool.Nodup
  apart : ∀ r ∈ c.pool, ¬ (c.poolRange.1 ≤ r ∧ r < c.poolRange.1 + c.poolRange.2)
  /-- The constants that were set aside have registers that are taken. -/
  taken : ∀ h ∈ c.hoisted.toList, 1 ≤ h.reg ∧ ¬ c.Free h.reg
  /-- What was set aside is plain and constant. -/
  constant : ∀ h ∈ c.hoisted.toList, h.expr.isConstant .notJoin = true ∧ h.expr.Plain σ
  oneEach : (c.hoisted.toList.map (·.reg)).Nodup
  hoisting : c.hoisting = false → c.hoisted = #[]
  identities : c.used.Nodup
  copies : ∀ (i : Nat) (x : Instr), c.builder.ops[i]? = some x → x.opcode = .copy → x.CopiesApart σ
  /-- A copy at the end reads shared constants and results, and writes no shared constant. -/
  ends : ∀ x, c.builder.last? = some x → x.opcode = .copy → CopiesShared σ c x
  /-- The results that lists refer to have registers that are taken. -/
  aside : ∀ r, σ.aside r → ¬ c.Free r
  /-- Their registers are below those of shared constants. -/
  below : ∀ r s, σ.aside r → c.HoldsShared s → r < s
  functions : c.catalog.functions = σ.functions
  /-- The routines are in the program, and their results are on cursors that are taken. -/
  routines : ∀ p ∈ c.routines, 0 ≤ p.2.entry ∧ p.2.entry < c.size ∧ p.2.result < c.cursors
  /-- The own row, if there is one, is under the cursor of the scope. -/
  ownRow : ∀ row, c.ownRow = some row → ∃ n, row = .cursor n ∧ σ.own = some n
  /-- The factory of collating sequences supplies what it is asked for. -/
  tame : c.catalog.collations.Tame
  collations : ∀ name, c.catalog.collations.answer name = σ.collation name

/-- The second state continues the first one. Constants were set aside in new registers or in those
of `pins`, and copies were widened to registers of `extra` only. -/
structure Extends (pins extra : Int → Prop) (c c' : Compiler) : Prop where
  keeps : c.builder.Keeps (fun t => extra t ∧ t ≤ c'.highest ∧ ¬ c'.HoldsConstant t) c'.builder
  highest : c.highest ≤ c'.highest
  /-- Further constants are in new registers, or they are pinned to one of `pins` and not shared. -/
  hoisted : ∃ new, c'.hoisted.toList = c.hoisted.toList ++ new ∧
    ∀ h ∈ new, c.highest < h.reg ∨ pins h.reg ∧ h.shared = false
  cursors : c.cursors ≤ c'.cursors
  /-- Further routines are in new code, and their results are on new cursors. -/
  routines : ∃ new, c'.routines = new ++ c.routines ∧ ∀ p ∈ new, c.size ≤ p.2.entry ∧ c.cursors ≤ p.2.result
  config : c'.config = c.config
  hoisting : c'.hoisting = c.hoisting
  functions : c'.catalog.functions = c.catalog.functions
  start : c'.start = c.start

/-- Results of shared sub-queries are kept and others added, each for one of the identities. -/
def Records (ids : List Identity) (c c' : Compiler) : Prop :=
  ∃ new, c'.sharedResults = new ++ c.sharedResults ∧ ∀ q ∈ new, q.1 ∈ ids

/-- The second state is left by code that started in the first one; `ids` are the identities that it
made code for. -/
structure Step (σ : Scope) (ids : List Identity) (c c' : Compiler) : Prop where
  good : c'.Good σ
  grows : Extends nowhere c.Free c c'
  labels : ∀ l : Label, c.Made l → c'.builder.address? l = c.builder.address? l
  free : ∀ r, c'.Free r → c.Free r
  used : ∀ i ∈ c'.used, i ∈ c.used ∨ i ∈ ids
  shared : Records ids c c'
  aside : ∀ r, σ.aside r → ¬ c.Free r

/-- What was compiled between the two states leaves the code before it alone: only registers that were
free at its start are filled by copies that it widened, and no register is freed without code. -/
structure Continues (c c' : Compiler) : Prop where
  grows : Extends nowhere c.Free c c'
  covered : c.size < c'.size ∨ ∀ r, c'.Free r → c.Free r

/-- The last instruction is no copy, so later code cannot widen it. -/
def Sealed (c : Compiler) : Prop := ∀ x, c.builder.last? = some x → x.opcode ≠ .copy

/-- No copy at the end of the code between the first two states is widened to registers that are freed
before the third one. -/
def Guarded (c c1 c2 : Compiler) : Prop :=
  c1.size = c.size ∨ c1.Sealed ∨ c1.size < c2.size ∨ ∀ r, c2.Free r → c1.Free r

/-- The second state comes after the first one in a compilation. -/
structure Follows (c c' : Compiler) : Prop where
  size_le : c.size ≤ c'.size
  cursors : c.cursors ≤ c'.cursors
  free : ∀ r, c'.Free r → c.Free r

/-- The second state is a good one that comes after the first one; constants may be pinned to any
register and copies widened to any register. -/
structure Passes (σ : Scope) (c c' : Compiler) : Prop where
  good : c'.Good σ
  follows : Follows c c'
  grows : Extends (fun _ => True) (fun _ => True) c c'

/-- The second state is left by code that fills registers which were taken before: as a step, but
constants may be pinned to registers of `pins`, and copies widened to registers of `extra`. -/
structure Fills (σ : Scope) (pins extra : Int → Prop) (ids : List Identity) (c c' : Compiler) : Prop where
  good : c'.Good σ
  grows : Extends pins (fun r => c.Free r ∨ extra r) c c'
  labels : ∀ l : Label, c.Made l → c'.builder.address? l = c.builder.address? l
  free : ∀ r, c'.Free r → c.Free r
  used : ∀ i ∈ c'.used, i ∈ c.used ∨ i ∈ ids
  shared : Records ids c c'

variable {σ : Scope} {c c1 c2 : Compiler} {pins extra : Int → Prop} {ids ids1 ids2 : List Identity} {l : Label}
  {b : Builder} {ins : Instr}

/-! ## Extension -/

namespace Extends

variable {r : Int}

theorem refl (c : Compiler) : Extends pins extra c c where
  keeps := .refl _ _ _
  highest := Int.le_refl _
  hoisted := ⟨[], by simp, by simp⟩
  cursors := Int.le_refl _
  routines := ⟨[], by simp, by simp⟩
  config := rfl
  hoisting := rfl
  functions := rfl
  start := rfl

section

variable (h : Extends pins extra c c1)

include h

theorem size_le : c.size ≤ c1.size := h.keeps.size_le

theorem labels_le : c.builder.labels.size ≤ c1.builder.labels.size := h.keeps.labels_le

theorem mem_hoisted {x : Hoisted} (hx : x ∈ c.hoisted.toList) : x ∈ c1.hoisted.toList := by
  obtain ⟨new, hnew, -⟩ := h.hoisted
  rw [hnew]
  exact List.mem_append_left _ hx

theorem holdsShared (hr : c.HoldsShared r) : c1.HoldsShared r := by
  obtain ⟨x, hx, hs, rfl⟩ := hr
  exact ⟨x, h.mem_hoisted hx, hs, rfl⟩

theorem holdsConstant_of_new (hr : c1.HoldsConstant r) : c.HoldsConstant r ∨ c.highest < r ∨ pins r := by
  obtain ⟨x, hx, rfl⟩ := hr
  obtain ⟨new, hnew, hregs⟩ := h.hoisted
  rw [hnew, List.mem_append] at hx
  rcases hx with hx | hx
  · exact .inl ⟨x, hx, rfl⟩
  · rcases hregs x hx with hlt | ⟨hpin, -⟩
    · exact .inr (.inl hlt)
    · exact .inr (.inr hpin)

theorem mono {pins' extra' : Int → Prop} (hp : ∀ r, pins r → pins' r)
    (he : ∀ r, extra r → extra' r) : Extends pins' extra' c c1 :=
  { h with
    keeps := h.keeps.mono (fun t ht => ⟨he t ht.1, ht.2⟩) (Nat.le_refl 0)
    hoisted := by
      obtain ⟨new, hnew, hregs⟩ := h.hoisted
      refine ⟨new, hnew, fun x hx => ?_⟩
      rcases hregs x hx with hlt | ⟨hpin, hs⟩
      · exact .inl hlt
      · exact .inr ⟨hp _ hpin, hs⟩ }

theorem weaken : Extends (fun _ => True) (fun _ => True) c c1 :=
  h.mono (fun _ _ => trivial) fun _ _ => trivial

end

/-- Continuing twice; registers that copies were widened to must not be pinned later. -/
theorem trans_of_apart {pins1 pins2 extra1 extra2 : Int → Prop} (h1 : Extends pins1 extra1 c c1)
    (h2 : Extends pins2 extra2 c1 c2) (hapart : ∀ r, extra1 r → ¬ pins2 r) :
    Extends (fun r => pins1 r ∨ pins2 r) (fun r => extra1 r ∨ extra2 r) c c2 where
  keeps := by
    refine .trans (h1.keeps.mono (fun t ht => ⟨.inl ht.1, Int.le_trans ht.2.1 h2.highest, ?_⟩)
      (Nat.le_refl 0)) (h2.keeps.mono (fun t ht => ⟨.inr ht.1, ht.2⟩) (Nat.le_refl 0))
    intro hholds
    rcases h2.holdsConstant_of_new hholds with hold | hlt | hpin
    · exact ht.2.2 hold
    · exact absurd ht.2.1 (Int.not_le.2 hlt)
    · exact hapart t ht.1 hpin
  highest := Int.le_trans h1.highest h2.highest
  hoisted := by
    obtain ⟨new1, hnew1, hregs1⟩ := h1.hoisted
    obtain ⟨new2, hnew2, hregs2⟩ := h2.hoisted
    refine ⟨new1 ++ new2, by rw [hnew2, hnew1, List.append_assoc], fun x hx => ?_⟩
    rcases List.mem_append.1 hx with hx | hx
    · exact (hregs1 x hx).imp_right fun h => ⟨.inl h.1, h.2⟩
    · rcases hregs2 x hx with hlt | hpin
      · exact .inl (Int.lt_of_le_of_lt h1.highest hlt)
      · exact .inr ⟨.inr hpin.1, hpin.2⟩
  cursors := Int.le_trans h1.cursors h2.cursors
  routines := by
    obtain ⟨new1, hnew1, hplace1⟩ := h1.routines
    obtain ⟨new2, hnew2, hplace2⟩ := h2.routines
    refine ⟨new2 ++ new1, by rw [hnew2, hnew1, List.append_assoc], fun p hp => ?_⟩
    rcases List.mem_append.1 hp with hp | hp
    · have hsize := h1.size_le
      have hcursors := h1.cursors
      have hplace := hplace2 p hp
      omega
    · exact hplace1 p hp
  config := h2.config.trans h1.config
  hoisting := h2.hoisting.trans h1.hoisting
  functions := h2.functions.trans h1.functions
  start := h2.start.trans h1.start

theorem trans (h1 : Extends pins extra c c1) (h2 : Extends pins extra c1 c2)
    (hapart : ∀ r, extra r → ¬ pins r) : Extends pins extra c c2 :=
  (h1.trans_of_apart h2 hapart).mono (fun _ h => h.elim id id) fun _ h => h.elim id id

end Extends

/-! ## Results of shared sub-queries -/

namespace Records

theorem of_eq (h : c1.sharedResults = c.sharedResults) : Records ids c c1 := ⟨[], by simpa using h, by simp⟩

theorem trans (h1 : Records ids1 c c1) (h2 : Records ids2 c1 c2) : Records (ids1 ++ ids2) c c2 := by
  obtain ⟨new1, hnew1, hids1⟩ := h1
  obtain ⟨new2, hnew2, hids2⟩ := h2
  refine ⟨new2 ++ new1, by rw [hnew2, hnew1, List.append_assoc], fun q hq => ?_⟩
  rcases List.mem_append.1 hq with hq | hq
  · exact List.mem_append_right _ (hids2 q hq)
  · exact List.mem_append_left _ (hids1 q hq)

theorem mono (h : Records ids1 c c1) (hids : ∀ i ∈ ids1, i ∈ ids2) : Records ids2 c c1 := by
  obtain ⟨new, hnew, hmem⟩ := h
  exact ⟨new, hnew, fun q hq => hids _ (hmem q hq)⟩

theorem eq_of_nil (h : Records [] c c1) : c1.sharedResults = c.sharedResults := by
  obtain ⟨new, hnew, hids⟩ := h
  have hnil : new = [] := List.eq_nil_iff_forall_not_mem.2 fun q hq => by simpa using hids q hq
  rw [hnew, hnil, List.nil_append]

end Records

/-! ## Steps -/

namespace Step

variable {r : Int}

section

variable (h : Step σ ids c c1)

include h

theorem size_le : c.size ≤ c1.size := h.grows.size_le

theorem follows : Follows c c1 := ⟨h.size_le, h.grows.cursors, h.free⟩

theorem passes : Passes σ c c1 := ⟨h.good, h.follows, h.grows.weaken⟩

theorem not_free (hr : ¬ c.Free r) : ¬ c1.Free r := fun hfree => hr (h.free r hfree)

theorem not_holdsConstant (hr : ¬ c.Free r) (hc : ¬ c.HoldsConstant r) : ¬ c1.HoldsConstant r := by
  intro hholds
  rcases h.grows.holdsConstant_of_new hholds with hold | hlt | hpin
  · exact hc hold
  · exact hr (.inr hlt)
  · exact hpin

end

theorem refl (hc : c.Good σ) : Step σ [] c c where
  good := hc
  grows := .refl c
  labels _ _ := rfl
  free _ h := h
  used _ h := .inl h
  shared := .of_eq rfl
  aside := hc.aside

theorem made (h : Step σ ids c c1) (hl : c.Made l) : c1.Made l :=
  Nat.lt_of_lt_of_le hl h.grows.labels_le

theorem trans (h1 : Step σ ids1 c c1) (h2 : Step σ ids2 c1 c2) : Step σ (ids1 ++ ids2) c c2 where
  good := h2.good
  grows := h1.grows.trans (h2.grows.mono (fun _ h => h) h1.free) fun _ _ h => h
  labels l hl := by
    rw [h2.labels l (h1.made hl), h1.labels l hl]
  free r h := h1.free r (h2.free r h)
  used i hi := by
    rcases h2.used i hi with hi | hi
    · rcases h1.used i hi with hi | hi
      · exact .inl hi
      · exact .inr (List.mem_append_left _ hi)
    · exact .inr (List.mem_append_right _ hi)
  shared := h1.shared.trans h2.shared
  aside := h1.aside

theorem mono (h : Step σ ids1 c c1) (hids : ∀ i ∈ ids1, i ∈ ids2) : Step σ ids2 c c1 :=
  { h with
    used i hi := (h.used i hi).imp_right (hids i)
    shared := h.shared.mono hids }

end Step

theorem Step.continues (h : Step σ ids c c1) : Continues c c1 := ⟨h.grows, .inr h.free⟩

namespace Continues

theorem size_le (h : Continues c c1) : c.size ≤ c1.size := h.grows.size_le

theorem trans (h1 : Continues c c1) (h2 : Continues c1 c2) : Continues c c2 := by
  have hsize1 := h1.size_le
  have hsize2 := h2.size_le
  rcases h1.covered with hlt | hfree
  · have hgrows := h1.grows.trans_of_apart h2.grows fun _ _ h => h
    have hkeeps := h1.grows.keeps.trans_of_lt h2.grows.keeps hlt
    refine ⟨{ hgrows with keeps := ?_, hoisted := ?_ }, .inl (Nat.lt_of_lt_of_le hlt hsize2)⟩
    · refine hkeeps.mono (fun t ht => ⟨ht.1, Int.le_trans ht.2.1 h2.grows.highest, ?_⟩) (Nat.le_refl 0)
      intro hholds
      rcases h2.grows.holdsConstant_of_new hholds with hold | hlt | hpin
      · exact ht.2.2 hold
      · exact absurd ht.2.1 (Int.not_le.2 hlt)
      · exact hpin
    · obtain ⟨new, hnew, hregs⟩ := hgrows.hoisted
      exact ⟨new, hnew, fun x hx => (hregs x hx).imp_right fun h => ⟨h.1.elim id id, h.2⟩⟩
  · refine ⟨h1.grows.trans (h2.grows.mono (fun _ h => h) hfree) fun _ _ h => h, ?_⟩
    rcases h2.covered with hlt | hfree2
    · exact .inl (Nat.lt_of_le_of_lt hsize1 hlt)
    · exact .inr fun r hr => hfree r (hfree2 r hr)

theorem guarded (h : Continues c1 c2) : Guarded c c1 c2 := .inr (.inr h.covered)

/-- Once there is code, anything may follow that extends it and leaves the code alone. -/
theorem extend (h : Continues c c1) (hlt : c.size < c1.size)
    (h2 : ∀ extra, Extends nowhere extra c1 c2) : Continues c c2 :=
  ⟨h.grows.trans (h2 _) fun _ _ h => h, .inl (Nat.lt_of_lt_of_le hlt (h2 c.Free).size_le)⟩

end Continues

/-! ## Filling registers -/

theorem Step.fills (h : Step σ ids c c1) : Fills σ pins extra ids c c1 :=
  { h with
    grows := h.grows.mono (fun _ hf => hf.elim) fun _ => .inl }

namespace Fills

variable {pins1 pins2 extra1 extra2 : Int → Prop}

theorem passes (h : Fills σ pins extra ids c c1) : Passes σ c c1 :=
  ⟨h.good, ⟨h.grows.size_le, h.grows.cursors, h.free⟩, h.grows.weaken⟩

theorem mono (h : Fills σ pins1 extra1 ids1 c c1) (hp : ∀ r, pins1 r → pins2 r)
    (he : ∀ r, extra1 r → extra2 r) (hids : ∀ i ∈ ids1, i ∈ ids2) : Fills σ pins2 extra2 ids2 c c1 :=
  { h with
    grows := h.grows.mono hp fun r hr => hr.imp_right (he r)
    used i hi := (h.used i hi).imp_right (hids i)
    shared := h.shared.mono hids }

/-- Filling registers one after the other; what is pinned later is not filled before. -/
theorem trans (h1 : Fills σ pins1 extra1 ids1 c c1) (h2 : Fills σ pins2 extra2 ids2 c1 c2)
    (hapart : ∀ r, c.Free r ∨ extra1 r → ¬ pins2 r) :
    Fills σ (fun r => pins1 r ∨ pins2 r) (fun r => extra1 r ∨ extra2 r) (ids1 ++ ids2) c c2 where
  good := h2.good
  grows := (h1.grows.trans_of_apart h2.grows hapart).mono (fun _ h => h) fun r hr => by
    rcases hr with (hr | hr) | (hr | hr)
    · exact .inl hr
    · exact .inr (.inl hr)
    · exact .inl (h1.free r hr)
    · exact .inr (.inr hr)
  labels l hl := by
    rw [h2.labels l (Nat.lt_of_lt_of_le hl h1.grows.labels_le), h1.labels l hl]
  free r h := h1.free r (h2.free r h)
  used i hi := by
    rcases h2.used i hi with hi | hi
    · exact (h1.used i hi).imp_right (List.mem_append_left _)
    · exact .inr (List.mem_append_right _ hi)
  shared := h1.shared.trans h2.shared

/-- Taking registers and then filling them is a step, if what is pinned is new. -/
theorem step (s : Step σ ids1 c c1) (e : Extends nowhere nowhere c c1) (h : Fills σ pins extra ids2 c1 c2)
    (hpins : ∀ r, pins r → c.highest < r) (hextra : ∀ r, extra r → c.Free r) : Step σ (ids1 ++ ids2) c c2 where
  good := h.good
  grows := by
    have hgrows := e.trans_of_apart h.grows fun _ hf => hf.elim
    refine { hgrows.mono (fun _ hp => hp) (fun r hr => ?_) with hoisted := ?_ }
    · exact hr.elim False.elim fun hr => hr.elim (s.free r) (hextra r)
    · obtain ⟨new, hnew, hregs⟩ := hgrows.hoisted
      refine ⟨new, hnew, fun x hx => .inl ?_⟩
      rcases hregs x hx with hlt | ⟨hpin, -⟩
      · exact hlt
      · exact hpins _ (hpin.resolve_left id)
  labels l hl := by
    rw [h.labels l (s.made hl), s.labels l hl]
  free r hr := s.free r (h.free r hr)
  used i hi := by
    rcases h.used i hi with hi | hi
    · exact (s.used i hi).imp_right (List.mem_append_left _)
    · exact .inr (List.mem_append_right _ hi)
  shared := s.shared.trans h.shared
  aside := s.aside

end Fills

/-! ## Changes of the program alone -/

theorem Extends.of_builder (h : ∀ e, c.builder.Keeps e b) : Extends pins extra c { c with builder := b } :=
  { (.refl c : Extends pins extra c c) with keeps := h _ }

section

variable (hc : c.Good σ)

include hc

theorem Good.of_builder (hb : b.WellFormed) (hsize : c.size ≤ b.ops.size)
    (hcopies : ∀ (i : Nat) (x : Instr), b.ops[i]? = some x → x.opcode = .copy → x.CopiesApart σ)
    (hends : ∀ x, b.last? = some x → x.opcode = .copy → CopiesShared σ c x) : Good σ { c with builder := b } :=
  { hc with
    builder := hb
    copies := hcopies
    ends := hends
    routines p hp := by
      obtain ⟨h0, hlt, hcursor⟩ := hc.routines p hp
      exact ⟨h0, Int.lt_of_lt_of_le hlt (Int.ofNat_le.2 hsize), hcursor⟩ }

theorem Good.emit (ins : Instr) (hins : ins.opcode ≠ .copy) : Good σ { c with builder := c.builder.emit ins } := by
  refine hc.of_builder (hc.builder.emit ins) (by simp [size]) (fun i x hx hcopy => ?_) fun x hx hcopy => ?_
  · rcases emit_getElem?.1 hx with hx | ⟨-, rfl⟩
    · exact hc.copies i x hx hcopy
    · exact absurd hcopy hins
  · cases (last?_emit c.builder ins).symm.trans hx
    exact absurd hcopy hins

theorem Good.emitJump (hins : ins.opcode ≠ .copy) (hl : c.Made l) :
    Good σ { c with builder := c.builder.emitJump ins l } := by
  refine hc.of_builder (hc.builder.emitJump hl hins) (by simp [size]) (fun i x hx hcopy => ?_) fun x hx hcopy => ?_
  · rcases emitJump_getElem? hx with hx | ⟨-, _, rfl⟩
    · exact hc.copies i x hx hcopy
    · exact absurd hcopy hins
  · obtain ⟨_, hlast⟩ := emitJump_last? c.builder ins l
    cases hlast.symm.trans hx
    exact absurd hcopy hins

theorem Good.label : Good σ { c with builder := c.builder.label.2 } :=
  hc.of_builder hc.builder.label (Nat.le_refl _) hc.copies hc.ends

theorem Good.resolve (l : Label) : Good σ { c with builder := c.builder.resolve l } := by
  have hsame (i : Nat) (x : Instr) (hx : (c.builder.resolve l).ops[i]? = some x) (hcopy : x.opcode = .copy) :
      c.builder.ops[i]? = some x := by
    rw [resolve_getElem?] at hx
    split at hx
    · -- a copy never waits for a label, so the change is not one of a copy
      rename_i hmem
      obtain ⟨y, hy, rfl⟩ := Option.map_eq_some_iff.1 hx
      exact absurd hcopy (hc.builder.copies _ hmem y hy)
    · exact hx
  refine hc.of_builder (hc.builder.resolve l) (by simp [size])
    (fun i x hx hcopy => hc.copies i x (hsame i x hx hcopy) hcopy) fun x hx hcopy => hc.ends x ?_ hcopy
  rw [last?_eq_getElem?, resolve_size] at hx
  exact (last?_eq_getElem? _).trans (hsame _ x hx hcopy)

theorem Step.emit (ins : Instr) (hins : ins.opcode ≠ .copy) : Step σ [] c { c with builder := c.builder.emit ins } :=
  { Step.refl hc with good := hc.emit ins hins, grows := .of_builder fun _ => emit_keeps ins }

theorem Step.emitJump (hins : ins.opcode ≠ .copy) (hl : c.Made l) :
    Step σ [] c { c with builder := c.builder.emitJump ins l } :=
  { Step.refl hc with
    good := hc.emitJump hins hl
    grows := .of_builder fun _ => emitJump_keeps ins l
    labels k _ := emitJump_address? c.builder ins l k }

theorem Step.label : Step σ [] c { c with builder := c.builder.label.2 } :=
  { Step.refl hc with
    good := hc.label
    grows := .of_builder fun _ => label_keeps c.builder
    labels k _ := label_address? c.builder k }

end

theorem Step.resolve (h : Step σ ids c c1) (hnew : c.builder.labels.size ≤ l.index) (hl : c1.Made l)
    (hnone : c1.builder.address? l = none) : Step σ ids c { c1 with builder := c1.builder.resolve l } :=
  { h with
    good := h.good.resolve l
    grows := h.grows.trans (.of_builder fun _ => resolve_keeps h.good.builder hl hnone) fun _ _ hf => hf
    labels k hk := by
      have hne : k ≠ l := fun he => absurd hk (by rw [he]; omega)
      rw [← h.labels k hk]
      exact resolve_address?_ne hne
    free r hr := h.free r hr
    used i hi := h.used i hi }

/-- One instruction was appended; where it jumps to depends on the addresses of labels. -/
structure Emits (c c' : Compiler) (ins : (Nat → Int) → Instr) : Prop where
  size : c'.size = c.size + 1
  code : ∀ addr, c'.builder.Settled addr → c'.builder.patched addr c.size = some (ins addr)

theorem Emits.of_builder {ins : (Nat → Int) → Instr} (h : Emits c c1 ins)
    (hb : c2.builder = c1.builder) : Emits c c2 ins := by
  refine ⟨?_, ?_⟩
  · rw [Compiler.size, hb]
    exact h.size
  · rw [hb]
    exact h.code

/-- There is code between the two states, and its last instruction is no copy. -/
structure Closes (c c' : Compiler) : Prop where
  lt : c.size < c'.size
  isSealed : c'.Sealed

namespace Closes

theorem of_builder (h : Closes c c1) (hb : c2.builder = c1.builder) : Closes c c2 := by
  refine ⟨?_, ?_⟩
  · rw [Compiler.size, Compiler.size, hb]
    exact h.lt
  · rw [Sealed, hb]
    exact h.isSealed

theorem after (h : Closes c1 c2) (hle : c.size ≤ c1.size) : Closes c c2 := ⟨Nat.lt_of_le_of_lt hle h.lt, h.isSealed⟩

end Closes

end Compiler

namespace Gen

open Compiler

variable {σ : Scope} {c c1 c2 : Compiler} {ids : List Identity} {u : Unit} {ins : Instr} {l : Label}

theorem emit_spec (h : (emit ins).Makes c u c1) (hc : c.Good σ) (hop : ins.opcode ≠ .copy) :
    Step σ [] c c1 ∧ Emits c c1 fun _ => ins := by
  obtain rfl := makes_emit.1 h
  exact ⟨.emit hc ins hop, by simp [size], fun addr _ => emit_patched_size hc.builder ins⟩

theorem emitJump_spec (h : (emitJump ins l).Makes c u c1) (hc : c.Good σ) (hop : ins.opcode ≠ .copy) (hl : c.Made l) :
    Step σ [] c c1 ∧ Emits c c1 fun addr => { ins with p2 := addr l.index } := by
  obtain rfl := makes_emitJump.1 h
  exact ⟨.emitJump hc hop hl, by simp [size], fun addr hs => emitJump_patched_size hc.builder hs⟩

theorem emit_closes (h : (emit ins).Makes c u c1) (hop : ins.opcode ≠ .copy) : Closes c c1 := by
  obtain rfl := makes_emit.1 h
  refine ⟨by simp [size], fun x hx => ?_⟩
  cases (last?_emit c.builder ins).symm.trans hx
  exact hop

theorem emitJump_closes (h : (emitJump ins l).Makes c u c1) (hop : ins.opcode ≠ .copy) : Closes c c1 := by
  obtain rfl := makes_emitJump.1 h
  refine ⟨by simp [size], fun x hx => ?_⟩
  obtain ⟨_, hlast⟩ := emitJump_last? c.builder ins l
  cases hlast.symm.trans hx
  exact hop

theorem resolve_closes (h : (resolve l).Makes c1 u c2) (hcloses : Closes c c1) : Closes c c2 := by
  obtain rfl := makes_resolve.1 h
  refine ⟨by simpa [size] using hcloses.lt, fun x hx => ?_⟩
  obtain ⟨y, hy, hop⟩ := last?_of_resolve hx
  rw [← hop]
  exact hcloses.isSealed y hy

structure Labels (c c' : Compiler) (l : Label) : Prop where
  new : c.builder.labels.size ≤ l.index
  made : c'.Made l
  unresolved : c'.builder.address? l = none
  size : c'.size = c.size

theorem label_spec (h : label.Makes c l c1) (hc : c.Good σ) : Step σ [] c c1 ∧ Labels c c1 l := by
  obtain ⟨rfl, rfl⟩ := makes_label.1 h
  refine ⟨.label hc, ?_, ?_, ?_, rfl⟩
  · simp [Builder.label]
  · simp [Builder.label]
  · rw [Builder.label_address?]
    simp [Builder.address?, Builder.label]

theorem resolve_extends {pins extra : Int → Prop} (h : (resolve l).Makes c1 u c2) (hc : c1.Good σ) (hl : c1.Made l)
    (hnone : c1.builder.address? l = none) : Extends pins extra c1 c2 := by
  obtain rfl := makes_resolve.1 h
  exact .of_builder fun _ => resolve_keeps hc.builder hl hnone

theorem resolve_spec (h : (resolve l).Makes c1 u c2) (s : Step σ ids c c1) (hnew : c.builder.labels.size ≤ l.index)
    (hl : c1.Made l) (hnone : c1.builder.address? l = none) :
    Step σ ids c c2 ∧ Continues c1 c2 ∧ c2.size = c1.size ∧ c2.builder.address? l = some c2.size := by
  have hgrows : Extends nowhere c1.Free c1 c2 := resolve_extends h s.good hl hnone
  obtain rfl := makes_resolve.1 h
  refine ⟨s.resolve hnew hl hnone, ⟨hgrows, .inr fun _ h => h⟩, by simp [size], ?_⟩
  simpa [size] using resolve_address?_self hl

theorem Labels.resolve {c3 : Compiler} (h : Labels c c1 l) (hresolve : (Gen.resolve l).Makes c2 u c3)
    (s1 : Step σ [] c c1) (s2 : Step σ ids c1 c2) : Step σ ids c c3 ∧ Continues c2 c3 ∧ c3.size = c2.size ∧
      ∀ addr, c3.builder.Settled addr → (addr l.index).toNat = c3.size := by
  obtain ⟨s, hcontinues, hsize, haddress⟩ := resolve_spec hresolve (s1.trans s2) h.new (s2.made h.made)
    ((s2.labels l h.made).trans h.unresolved)
  refine ⟨s, hcontinues, hsize, fun addr hsettled => ?_⟩
  rw [hsettled l _ haddress, Int.toNat_natCast]

end Gen

end ScalarSql
