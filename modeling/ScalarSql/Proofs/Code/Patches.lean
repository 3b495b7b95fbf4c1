import ScalarSql.Proofs.Code.Runs

/-!
# Instructions that are completed later

Where a jump over code leads is known only behind that code, so the jump is written first and completed
afterwards. Code between the two places was compiled behind an instruction that differs from the one in
the program. That does not matter: the code makes the same step of the compilation behind the complete
instruction (`Step.patch`), and it runs in the same way (`Runs.patch`).
-/

namespace ScalarSql

open Builder Compiler Gen

namespace Builder

variable {b b1 : Builder} {extra : Int → Prop} {lo a : Nat} {f : Instr → Instr}

theorem settled_modifyAt {addr : Nat → Int} : (b.modifyAt a f).Settled addr ↔ b.Settled addr := by
  simp [Settled, address?]

theorem KeepsFrom.modifyAt_both (k : KeepsFrom extra lo b b1) (ha : a < b.ops.size)
    (hplain : ∀ x, b.ops[a]? = some x → x.opcode ≠ .copy) (hwaits : b.waitsFor? a = none) :
    KeepsFrom extra lo (b.modifyAt a f) (b1.modifyAt a f) where
  size_le := by simpa using k.size_le
  labels_le := by simpa using k.labels_le
  resolved := k.resolved
  waits i hi h := by
    simp only [waitsFor?, modifyAt_fixups, modifyAt_size] at hi h ⊢
    exact k.waits i hi h
  code addr hs i hlo hi := by
    rw [modifyAt_size] at hi
    obtain ⟨x, y, hx, hy, hxy⟩ := k.code addr (settled_modifyAt.1 hs) i hlo hi
    by_cases hia : i = a
    · subst hia
      obtain ⟨z, hz, hzx⟩ := getElem?_of_patched hx
      have hsame := hxy.eq_of_ne (hzx ▸ hplain z hz)
      subst hsame
      refine ⟨f y, f y, ?_, ?_, .refl _⟩
      · rw [modifyAt_patched_self f hwaits, hx]
        rfl
      · rw [modifyAt_patched_self f (k.waits i ha hwaits), hy]
        rfl
    · rw [modifyAt_patched_ne (by omega), modifyAt_patched_ne (by omega)]
      exact ⟨x, y, hx, hy, hxy⟩
  inner addr hs i hlo hi := by
    rw [modifyAt_size] at hi
    have hsame := k.inner addr (settled_modifyAt.1 hs) i hlo hi
    by_cases hia : i = a
    · subst hia
      rw [modifyAt_patched_self f hwaits, modifyAt_patched_self f (k.waits i ha hwaits), hsame]
    · rw [modifyAt_patched_ne (by omega), modifyAt_patched_ne (by omega), hsame]

theorem emit_modifyAt (b : Builder) (i : Instr) (f : Instr → Instr) : (b.emit i).modifyAt b.here f = b.emit (f i) := by
  have hmodify : (b.ops.push i).modify b.ops.size f = b.ops.push (f i) := by
    apply Array.ext_getElem?
    intro j
    rw [Array.getElem?_modify, Array.getElem?_push, Array.getElem?_push]
    by_cases hj : j = b.ops.size
    · simp [hj]
    · simp [hj, Ne.symm hj]
  simp [modifyAt, here, emit, hmodify]

/-- An instruction before the end may be changed before or after another one is appended. -/
theorem modifyAt_emit (ha : a < b.ops.size) (i : Instr) : (b.modifyAt a f).emit i = (b.emit i).modifyAt a f := by
  have hmodify : (b.ops.modify a f).push i = (b.ops.push i).modify a f := by
    apply Array.ext_getElem?
    intro j
    rw [Array.getElem?_modify, Array.getElem?_push, Array.getElem?_push, Array.getElem?_modify, Array.size_modify]
    by_cases hj : j = b.ops.size
    · have hne : ¬ a = j := by omega
      simp [hj, Nat.ne_of_lt ha]
    · simp [hj]
  simp [modifyAt, emit, hmodify]

theorem modifyAt_emitJump (ha : a < b.ops.size) (i : Instr) (l : Label) :
    (b.modifyAt a f).emitJump i l = (b.emitJump i l).modifyAt a f := by
  have haddress : (b.modifyAt a f).address? l = b.address? l := by simp [address?]
  unfold emitJump
  rw [haddress]
  cases b.address? l with
  | some p => exact modifyAt_emit ha _
  | none =>
    simp only [modifyAt_emit ha, modifyAt_fixups, modifyAt_size]
    simp [modifyAt]

theorem modifyAt_resolve (hwaits : b.waitsFor? a = none) (l : Label) :
    (b.modifyAt a f).resolve l = (b.resolve l).modifyAt a f := by
  have hops : ((b.modifyAt a f).resolve l).ops = ((b.resolve l).modifyAt a f).ops := by
    apply Array.ext_getElem?
    intro j
    by_cases hj : (j : Int) = a
    · have hj : j = a := by omega
      subst hj
      have hnot := waitsFor?_eq_none.1 hwaits l
      rw [resolve_getElem?, modifyAt_fixups, if_neg hnot, modifyAt_getElem?_self,
        modifyAt_getElem?_self, resolve_getElem?, if_neg hnot]
    · rw [modifyAt_getElem?_ne hj, resolve_getElem?, resolve_getElem?, modifyAt_fixups, modifyAt_getElem?_ne hj]
      simp [here]
  have hlabels : ((b.modifyAt a f).resolve l).labels = ((b.resolve l).modifyAt a f).labels := by
    simp [resolve, here]
  have hfixups : ((b.modifyAt a f).resolve l).fixups = ((b.resolve l).modifyAt a f).fixups := by
    rw [modifyAt_fixups, resolve_fixups, resolve_fixups, modifyAt_fixups]
  cases hl : (b.modifyAt a f).resolve l
  cases hr : (b.resolve l).modifyAt a f
  rw [hl, hr] at hops hlabels hfixups
  cases hops
  cases hlabels
  cases hfixups
  rfl

end Builder

namespace Compiler

variable {σ : Scope} {c c1 c2 : Compiler} {ids : List Identity} {a : Nat} {f : Instr → Instr}
  {pins extra : Int → Prop}

def patch (c : Compiler) (a : Nat) (f : Instr → Instr) : Compiler :=
  { c with builder := c.builder.modifyAt a f }

@[simp]
theorem patch_size (c : Compiler) (a : Nat) (f : Instr → Instr) : (c.patch a f).size = c.size := by
  simp [patch, size]

/-- The instruction at an address is complete but for operands; it is no copy and waits for no label. -/
structure Incomplete (c : Compiler) (a : Nat) : Prop where
  lt : a < c.size
  plain : ∀ x, c.builder.ops[a]? = some x → x.opcode ≠ .copy
  waits : c.builder.waitsFor? a = none

theorem Incomplete.stays (h : c.Incomplete a) (e : Extends pins extra c c1) :
    c1.builder.ops[a]? = c.builder.ops[a]? := by
  -- addresses of labels that have none yet do not matter to the instruction
  have hs : c1.builder.Settled fun l => (c1.builder.address? ⟨l⟩).getD 0 := by
    intro l p hp
    simp [hp]
  obtain ⟨x, y, hx, hy, hxy⟩ := e.keeps.code _ hs a (Nat.zero_le _) h.lt
  have hpatched {b : Builder} (hw : b.waitsFor? a = none) (addr : Nat → Int) : b.patched addr a = b.ops[a]? := by
    rw [patched, hw]
    cases b.ops[a]? <;> rfl
  rw [hpatched h.waits] at hx
  rw [hpatched (e.keeps.waits a h.lt h.waits)] at hy
  rw [hx, hy, hxy.eq_of_ne (h.plain x hx)]

theorem Incomplete.extends (h : c.Incomplete a) (e : Extends pins extra c c1) : c1.Incomplete a where
  lt := Nat.lt_of_lt_of_le h.lt e.size_le
  plain x hx := h.plain x (h.stays e ▸ hx)
  waits := e.keeps.waits a h.lt h.waits

theorem Good.patch (hc : c.Good σ) (h : c.Incomplete a) (hf : ∀ x, (f x).opcode = x.opcode) : (c.patch a f).Good σ := by
  have hsame (i : Nat) (x : Instr) (hx : (c.patch a f).builder.ops[i]? = some x) (hcopy : x.opcode = .copy) :
      c.builder.ops[i]? = some x := by
    by_cases hia : i = a
    · subst hia
      rw [patch, modifyAt_getElem?_self] at hx
      obtain ⟨y, hy, rfl⟩ := Option.map_eq_some_iff.1 hx
      exact absurd ((hf y).symm.trans hcopy) (h.plain y hy)
    · rwa [Compiler.patch, Builder.modifyAt_getElem?_ne (by omega)] at hx
  refine hc.of_builder (hc.builder.modifyAt fun x hx => (hf x).symm.trans hx) (by simp [size])
    (fun i x hx hcopy => hc.copies i x (hsame i x hx hcopy) hcopy) fun x hx hcopy => hc.ends x ?_ hcopy
  have hsize := c.patch_size a f
  rw [size, size] at hsize
  rw [last?_eq_getElem?, ← hsize]
  exact hsame _ x hx hcopy

theorem Extends.patch (e : Extends pins extra c c1) (h : c.Incomplete a) :
    Extends pins extra (c.patch a f) (c1.patch a f) :=
  { e with
    keeps := e.keeps.modifyAt_both h.lt h.plain h.waits
    routines := by
      obtain ⟨new, hnew, hplace⟩ := e.routines
      refine ⟨new, hnew, fun p hp => ?_⟩
      rw [patch_size]
      exact hplace p hp }

theorem Emits.patch {ins : (Nat → Int) → Instr} (h : Emits c c1 ins) (ha : a < c.size) :
    Emits (c.patch a f) (c1.patch a f) ins where
  size := by rw [patch_size, patch_size, h.size]
  code addr hs := by
    rw [patch_size, Compiler.patch, Builder.modifyAt_patched_ne (by omega)]
    exact h.code addr (settled_modifyAt.1 hs)

theorem Step.patch (s : Step σ ids c c1) (h : c.Incomplete a)
    (hf : ∀ x, (f x).opcode = x.opcode) : Step σ ids (c.patch a f) (c1.patch a f) :=
  { s with
    good := s.good.patch (h.extends s.grows) hf
    grows := s.grows.patch h
    labels := s.labels }

end Compiler

open Compiler

section

variable {σ : Scope} {w : World σ} {K : Known} {T : Int → Prop} {c c1 : Compiler} {m m1 : Machine}
  {ids : List Identity} {a : Nat} {f : Instr → Instr} {i : Instr} {n : Int}

theorem Within.patch (h : Within w T c c1 m m1) : Within w T (c.patch a f) (c1.patch a f) m m1 :=
  { h with
    visited := by
      rw [patch_size, patch_size]
      exact h.visited
    kept := by
      rw [patch_size, patch_size]
      exact h.kept }

/-- Code that is ready behind the complete instruction is ready as it was compiled. -/
theorem Ready.unpatch (h : Ready w K (c.patch a f) (c1.patch a f) m) (hc : c.Good σ) (hc1 : c1.Good σ)
    (ha : c.Incomplete a) : Ready w K c c1 m :=
  { h with
    start := hc
    good := hc1
    settled := settled_modifyAt.1 h.settled
    code i hlo hi := by
      obtain ⟨x, y, hx, hy, hxy, hlast⟩ := h.code i (by rwa [patch_size]) (by rwa [patch_size])
      have hne : (i : Int) ≠ a := by
        have hlt := ha.lt
        omega
      rw [patch, modifyAt_patched_ne hne] at hx
      rw [patch_size] at hlast
      exact ⟨x, y, hx, hy, hxy, hlast⟩
    routines := by
      have hroutines := h.routines
      rwa [patch_size] at hroutines
    kept := by
      have hkept := h.kept
      rwa [patch_size, patch_size] at hkept
    copied x y k hx hcopy hy hlt hle := by
      have hlast : c.builder.ops[c.size - 1]? = some x := hx
      have hne : ((c.size - 1 : Nat) : Int) ≠ a := by
        intro he
        have he : c.size - 1 = a := by omega
        rw [he] at hlast
        exact ha.plain x hlast hcopy
      refine h.copied x y k ?_ hcopy ?_ hlt hle
      · rw [last?, Array.back?, patch]
        rw [← hlast]
        simpa [size] using modifyAt_getElem?_ne hne
      · rw [patch_size, patch]
        exact (modifyAt_getElem?_ne hne).trans hy }

theorem Gen.emitAt_incomplete (h : (Gen.emitAt i).Makes c n c1) (hc : c.Good σ) (hop : i.opcode ≠ .copy) :
    n = c.size ∧ c1.Incomplete c.size ∧ c1.Good σ ∧ c1.size = c.size + 1 := by
  obtain ⟨rfl, rfl⟩ := Gen.makes_emitAt.1 h
  refine ⟨rfl, ⟨by simp [size], fun x hx => ?_, ?_⟩, hc.emit i hop, by simp [size]⟩
  · simp only [Builder.emit, size, Array.getElem?_push_size, Option.some.injEq] at hx
    rwa [← hx]
  · exact Builder.waitsFor?_size hc.builder

/-- Completing an instruction that was appended: the compilation is as if it had been complete from the
start. -/
theorem Gen.emitAt_patch (h : (emitAt i).Makes c n c1) (hc : c.Good σ) (hop : i.opcode ≠ .copy)
    (hf : ∀ x, (f x).opcode = x.opcode) :
    Step σ [] c (c1.patch c.size f) ∧ Emits c (c1.patch c.size f) fun _ => f i := by
  obtain ⟨rfl, rfl⟩ := makes_emitAt.1 h
  refine emit_spec (u := ⟨⟩) (makes_emit.2 ?_) hc (by rwa [hf])
  rw [← emit_modifyAt]
  rfl

end

/-! ## Steps that look at no earlier instruction -/

namespace Gen

/-- The step does the same behind a complete instruction. -/
def Local {α : Type} (g : Gen α) : Prop :=
  ∀ ⦃c x c'⦄ ⦃a : Nat⦄ ⦃f : Instr → Instr⦄, g.Makes c x c' → a < c.size → c.builder.waitsFor? a = none →
      a < c'.size ∧ c'.builder.waitsFor? a = none ∧ g.Makes (c.patch a f) x (c'.patch a f)

namespace Local

variable {α β : Type} {g : Gen α}

theorem pure (x : α) : Local (Pure.pure x : Gen α) := by
  intro c y c' a f h ha hw
  obtain ⟨rfl, rfl⟩ := makes_pure.1 h
  exact ⟨ha, hw, makes_pure.2 ⟨rfl, rfl⟩⟩

theorem bind {k : α → Gen β} (hg : Local g) (hk : ∀ x, Local (k x)) : Local (g >>= k) := by
  intro c y c' a f h ha hw
  obtain ⟨x, c1, h1, h2⟩ := makes_bind.1 h
  obtain ⟨ha1, hw1, hg1⟩ := hg (f := f) h1 ha hw
  obtain ⟨ha2, hw2, hk2⟩ := hk x (f := f) h2 ha1 hw1
  exact ⟨ha2, hw2, makes_bind.2 ⟨x, _, hg1, hk2⟩⟩

theorem of_silent (h : ∀ c x c' b, g.Makes c x c' → c'.builder = c.builder ∧
      g.Makes { c with builder := b } x { c' with builder := b }) : Local g := by
  intro c x c' a f hg ha hw
  obtain ⟨hb, hmakes⟩ := h c x c' (c.builder.modifyAt a f) hg
  refine ⟨?_, ?_, ?_⟩
  · rwa [size, hb]
  · rwa [hb]
  · rwa [patch, patch, hb]

theorem emit (i : Instr) : Local (emit i) := by
  intro c x c' a f h ha hw
  cases makes_emit.1 h
  refine ⟨by simp only [Compiler.size, Builder.emit, Array.size_push] at ha ⊢; omega, hw, ?_⟩
  rw [makes_emit, patch, patch, modifyAt_emit ha]

theorem emitJump (i : Instr) (l : Label) : Local (emitJump i l) := by
  intro c x c' a f h ha hw
  cases makes_emitJump.1 h
  refine ⟨by simp only [size, emitJump_size] at ha ⊢; omega, ?_, ?_⟩
  · exact (emitJump_waitsFor?_lt ha).trans hw
  · rw [makes_emitJump, patch, patch, modifyAt_emitJump ha]

theorem resolve (l : Label) : Local (resolve l) := by
  intro c x c' a f h ha hw
  cases makes_resolve.1 h
  refine ⟨by simpa [size] using ha, resolve_waitsFor?_none hw l, ?_⟩
  rw [makes_resolve, patch, patch, modifyAt_resolve hw]

theorem here : Local here := by
  intro c x c' a f h ha hw
  obtain ⟨rfl, rfl⟩ := makes_here.1 h
  exact ⟨ha, hw, makes_here.2 ⟨by simp [Compiler.patch, Builder.here], rfl⟩⟩

theorem lookup {l : Lookup α} : Local (lookup l) := by
  refine of_silent fun c x c' b h => ?_
  obtain ⟨catalog, hrun, rfl⟩ := makes_lookup.1 h
  exact ⟨rfl, makes_lookup.2 ⟨catalog, hrun, rfl⟩⟩

theorem getTemp : Local getTemp := by
  refine of_silent fun c x c' b h => ⟨getTemp_builder h, ?_⟩
  simp only [Gen.getTemp, allocReg, makes_bind, makes_get] at h ⊢
  obtain ⟨_, _, ⟨rfl, rfl⟩, h⟩ := h
  refine ⟨_, _, ⟨rfl, rfl⟩, ?_⟩
  obtain ⟨catalog, config, builder, highest, cursors, pool, _, _, _, _, _, _, _, _, _, _, _, _⟩ := c
  cases pool with
  | nil =>
    obtain ⟨rfl, rfl⟩ := makes_modifyGet.1 h
    exact makes_modifyGet.2 ⟨rfl, rfl⟩
  | cons r pool =>
    simp only [makes_bind, makes_set, makes_pure] at h ⊢
    obtain ⟨_, _, rfl, rfl, rfl⟩ := h
    exact ⟨⟨⟩, _, rfl, rfl, rfl⟩

theorem releaseTemp (r : Int) : Local (releaseTemp r) := by
  refine of_silent fun c x c' b h => ⟨releaseTemp_builder h, ?_⟩
  simp only [Gen.releaseTemp, makes_modify] at h ⊢
  subst h
  split <;> rfl

end Local

end Gen

end ScalarSql
