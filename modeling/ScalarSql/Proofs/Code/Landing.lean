import ScalarSql.Proofs.Code.Rules

/-!
# What follows the rules gives every jump its target

`Gen.Aims` says of a step of a compilation that it leaves no loose ends: every jump that it writes has its target
or waits for one of the labels that it was given. What follows the rules does so (`Gen.Follows.aims`), by induction on
how it follows them: each rule takes the loose ends of a stretch of code to those that it says (`Gen.Rule.spans`).

A step also keeps the constants that were set aside and adds others behind them, and equal ones are not added where
registers are shared (`Compiler.Grows`).
-/

namespace ScalarSql

open Builder

variable {z : Region} {b : Builder} {f : Fact}

/-! ## The state of a compilation -/

/-- Every jump of the program so far has a target or waits for one, except for those at the loose addresses, and
routines can be called. -/
structure Compiler.Aimed (z : Region) (loose : Int → Prop) (c : Compiler) : Prop where
  code : c.builder.Aimed z loose
  routines : ∀ q ∈ c.routines, c.builder.Called z q.2.entry

/-- Constants that share registers differ, and so do their registers, which have all been taken. -/
structure Compiler.Sharing (c : Compiler) : Prop where
  taken : ∀ h ∈ c.hoisted.toList, h.shared = true → h.reg ≤ c.highest
  apart : c.hoisted.toList.Pairwise fun h k => h.shared = true → k.shared = true →
    h.reg ≠ k.reg ∧ Expr.compare none h.expr k.expr ≠ .equal

/-- Constants are only added, and they are shared where they can be. -/
structure Compiler.Grows (c c' : Compiler) : Prop where
  hoisted : c.hoisted.toList <+: c'.hoisted.toList
  sharing : c.Sharing → c'.Sharing

/-- What a stretch of code has done to a compilation. -/
structure Compiler.Spans (z : Region) (loose : Int → Prop) (L : List Label) (E : Ends) (c0 c : Compiler) : Prop where
  code : c0.builder.Spans z loose L E c.builder
  routines : ∀ q ∈ c.routines, c.builder.Called z q.2.entry
  start : c.start = c0.start
  grows : c0.Grows c

/-- Two states that differ in registers, cursors, constants and the catalog alone. -/
structure Compiler.Quiet (c c' : Compiler) : Prop where
  builder : c'.builder = c.builder
  routines : c'.routines = c.routines
  start : c'.start = c.start
  grows : c.Grows c'

namespace Compiler

variable {c c1 c' : Compiler}

theorem Grows.of_le (hhoisted : c'.hoisted = c.hoisted) (hle : c.highest ≤ c'.highest) : c.Grows c' := by
  refine ⟨hhoisted ▸ List.prefix_rfl, fun h => ⟨?_, hhoisted ▸ h.apart⟩⟩
  rw [hhoisted]
  exact fun k hk hshared => Int.le_trans (h.taken k hk hshared) hle

theorem Grows.refl (c : Compiler) : c.Grows c := .of_le rfl (Int.le_refl _)

theorem Grows.trans (h : c.Grows c1) (h' : c1.Grows c') : c.Grows c' :=
  ⟨h.hoisted.trans h'.hoisted, fun hc => h'.sharing (h.sharing hc)⟩

theorem Quiet.refl (c : Compiler) : c.Quiet c := ⟨rfl, rfl, rfl, .refl c⟩

theorem Draws.quiet {back : Int → Prop} (h : c.Draws back c') : c.Quiet c' := by
  have hle := h.highest
  rw [h.same] at hle ⊢
  exact ⟨rfl, rfl, rfl, .of_le rfl hle⟩

theorem Grows.push (c : Compiler) (e : Expr) (reg : Int) :
    c.Grows { c with hoisted := c.hoisted.push { expr := e, reg, shared := false } } := by
  refine ⟨?_, fun h => ⟨?_, ?_⟩⟩
  · rw [Array.toList_push]
    exact List.prefix_append _ _
  · rw [Array.toList_push]
    exact List.forall_mem_append.2 ⟨h.taken, by simp⟩
  · rw [Array.toList_push]
    exact List.pairwise_append.2 ⟨h.apart, List.pairwise_singleton _ _, by simp⟩

theorem Grows.push_shared (c : Compiler) {e : Expr}
    (h : c.hoisted.find? (fun k => k.shared && Expr.compare none k.expr e == .equal) = none) :
    c.Grows { c with
      highest := c.highest + 1
      hoisted := c.hoisted.push { expr := e, reg := c.highest + 1, shared := true } } := by
  have hdiffers : ∀ k ∈ c.hoisted.toList, k.shared → Expr.compare none k.expr e ≠ .equal := by
    simpa using h
  refine ⟨?_, fun hsharing => ⟨?_, ?_⟩⟩
  · rw [Array.toList_push]
    exact List.prefix_append _ _
  · rw [Array.toList_push]
    refine List.forall_mem_append.2 ⟨fun k hk hshared => ?_, by simp⟩
    have := hsharing.taken k hk hshared
    show k.reg ≤ c.highest + 1
    omega
  · rw [Array.toList_push]
    refine List.pairwise_append.2 ⟨hsharing.apart, List.pairwise_singleton _ _, fun k hk x hx hshared _ => ?_⟩
    obtain rfl := List.mem_singleton.1 hx
    have := hsharing.taken k hk hshared
    exact ⟨by show k.reg ≠ c.highest + 1; omega, hdiffers k hk hshared⟩

end Compiler

def Fact.Sited (z : Region) (b : Builder) : Fact → Prop
  | begun => z.first < b.ops.size
  | stands a _ => z.first ≤ a ∧ a < b.ops.size
  | mark a => b.Lands z a
  | entry a => b.Called z a
  | given p => p
  | _ => True

theorem Fact.Sited.mono {b' : Builder} (h : f.Sited z b) (hsize : b.ops.size ≤ b'.ops.size) : f.Sited z b' := by
  cases f with
  | begun => exact Nat.lt_of_lt_of_le h hsize
  | stands a o => exact ⟨h.1, by have := h.2; omega⟩
  | mark a => exact Lands.mono h hsize
  | entry a => exact Called.mono h hsize
  | given p => exact h
  | _ => trivial

theorem Terms.Knows.sited {T : Terms} {K : Facts} (h : T.Knows K f) (hK : ∀ f ∈ K, f.Sited z b) : f.Sited z b := by
  cases f with
  | given p => exact h.elim (hK _) id
  | reads | writes | scratch | fixed => trivial
  | _ => exact hK _ h

namespace Compiler.Spans

variable {z : Region} {loose : Int → Prop} {L : List Label} {E E' : Ends} {c0 c c' : Compiler}

theorem quiet (h : c0.Spans z loose L E c) (hquiet : c.Quiet c') : c0.Spans z loose L E c' where
  code := by
    rw [hquiet.builder]
    exact h.code
  routines := by
    rw [hquiet.builder, hquiet.routines]
    exact h.routines
  start := hquiet.start.trans h.start
  grows := h.grows.trans hquiet.grows

theorem build {b : Builder} (h : c0.Spans z loose L E c) (hcode : c0.builder.Spans z loose L E' b)
    (hsize : c.builder.ops.size ≤ b.ops.size) : c0.Spans z loose L E' { c with builder := b } where
  code := hcode
  routines q hq := (h.routines q hq).mono hsize
  start := h.start
  grows := h.grows.trans (.of_le rfl (Int.le_refl _))

end Compiler.Spans

namespace Gen

variable {α β : Type} {z : Region} {loose : Int → Prop} {L : List Label} {T : Terms} {K : Facts} {E : Ends}
  {E' : α → Ends} {Q : α → Facts} {g : Gen α} {f : α → Gen β} {c0 c c' : Compiler} {a : α}

/-- The step leaves no loose ends; its jumps may wait for the given labels. -/
def Aims (z : Region) (L : List Label) (g : Gen α) : Prop :=
  ∀ loose (c : Compiler) a c',
    c.Aimed z loose → (∀ l ∈ L, c.builder.Offers z l) → g.Makes c a c' → c.Spans z loose L {} c'

def Silent (g : Gen α) : Prop := ∀ c a c', g.Makes c a c' → c.Quiet c'

theorem Still.silent (h : Still g) : Silent g := by
  intro c a c' hmake
  obtain ⟨_, _, _, rfl⟩ := h c a c' hmake
  exact ⟨rfl, rfl, rfl, .of_le rfl (Int.le_refl _)⟩

/-! ## Steps that write nothing -/

theorem Silent.hoist (e : Expr) (wanted : Option Int) : Silent (Gen.hoist e wanted) := by
  intro c reg c' hmake
  cases wanted with
  | some r =>
    obtain rfl := hoistAt_makes hmake
    exact ⟨rfl, rfl, rfl, .push c e r⟩
  | none =>
    rcases hoist_makes hmake with ⟨rfl, -⟩ | ⟨hnone, -, rfl⟩
    · exact .refl _
    · exact ⟨rfl, rfl, rfl, .push_shared c hnone⟩

/-! ## Steps -/

/-- A step takes the loose ends of a stretch of code to those that its rule says. -/
theorem Rule.spans (h : Rule L T K E g E' Q) (hspan : c0.Spans z loose L E c) (hK : ∀ f ∈ K, f.Sited z c.builder)
    (hmake : g.Makes c a c') :
    c0.Spans z loose L (E' a) c' ∧ c.builder.ops.size ≤ c'.builder.ops.size ∧ ∀ f ∈ Q a, f.Sited z c'.builder := by
  have hfirst := hspan.code.aimed.first_le
  -- A step that writes nothing and gives no fact about the program.
  have hsilent {S : Facts} (hquiet : c.Quiet c') (hS : ∀ f ∈ S, f.Sited z c'.builder) :
      c0.Spans z loose L E c' ∧ c.builder.ops.size ≤ c'.builder.ops.size ∧ ∀ f ∈ S, f.Sited z c'.builder :=
    ⟨hspan.quiet hquiet, Nat.le_of_eq (congrArg (·.ops.size) hquiet.builder.symm), hS⟩
  have hemit {i : Instr} {u : Unit} {S : Facts} (hi : i.canJump → c.builder.Reaches z i)
      (hmake : (Gen.emit i).Makes c u c') (hS : S = ∅) :
      c0.Spans z loose L E c' ∧ c.builder.ops.size ≤ c'.builder.ops.size ∧ ∀ f ∈ S, f.Sited z c'.builder := by
    obtain rfl := makes_emit.1 hmake
    exact ⟨hspan.build (hspan.code.emit hi) (by simp), by simp, by simp [hS]⟩
  cases h with
  | idle h => exact hsilent (h.still.silent c _ c' hmake) (by simp)
  | checkHeight => exact hsilent ((Still.checkHeight _).silent c _ c' hmake) (by simp)
  | emit hj hi => exact hemit (by simp [hj]) hmake rfl
  | emitNull h => exact hemit (fun hj => by cases hj) hmake rfl
  | emitBack hj hi =>
    refine hemit (fun _ => ?_) hmake rfl
    exact hj.imp (hK _) (.imp_right (hK _))
  | emitAt hj hi =>
    obtain ⟨rfl, rfl⟩ := makes_emitAt.1 hmake
    refine ⟨hspan.build (hspan.code.emit (by simp [hj])) (by simp), by simp, ?_⟩
    rintro f (rfl | rfl)
    · simp [Fact.Sited, Builder.here]
      omega
    · simp [Fact.Sited]
      omega
  | emitLoose hi =>
    obtain ⟨rfl, rfl⟩ := makes_emitAt.1 hmake
    refine ⟨hspan.build (hspan.code.emitLoose _) (by simp), by simp, ?_⟩
    rintro f (rfl | rfl | ⟨rfl, hbegun⟩)
    · simp [Fact.Sited, Builder.here]
      omega
    · simp [Fact.Sited]
      omega
    · exact (Builder.lands_here (hK _ hbegun)).mono (by simp)
  | emitJump hl hj hi =>
    obtain rfl := makes_emitJump.1 hmake
    refine ⟨hspan.build (hspan.code.emitJump hl _) (by simp), by simp, ?_⟩
    rintro f ⟨⟩
    simp [Fact.Sited]
    omega
  | here h =>
    obtain ⟨rfl, rfl⟩ := makes_here.1 hmake
    refine ⟨hspan, Nat.le_refl _, ?_⟩
    rintro f ⟨⟩
    exact Builder.lands_here (hK _ h)
  | label =>
    obtain ⟨rfl, rfl⟩ := makes_label.1 hmake
    exact ⟨hspan.build hspan.code.label (Nat.le_refl _), Nat.le_refl _, by simp⟩
  | resolve hl =>
    obtain rfl := makes_resolve.1 hmake
    exact ⟨hspan.build (hspan.code.resolve hl) (by simp), by simp, by simp⟩
  | @jumpHere address _ _ ha ho hc hrest =>
    obtain rfl := makes_jumpHere.1 hmake
    obtain ⟨hfirst, hlt⟩ := hK _ ha
    have hsize : c.builder.ops.size ≤ (c.builder.jumpHere address).ops.size := by simp [Builder.jumpHere]
    exact ⟨hspan.build (hspan.code.jumpHere hfirst hlt hrest) hsize, hsize, by simp⟩
  | cancel ha hrest =>
    obtain rfl := makes_modifyAt.1 hmake
    refine ⟨hspan.build (hspan.code.settle (hK _ ha).1 (fun i hi => ?_) hrest) (by simp), by simp, by simp⟩
    cases hi
  | setRegister ha hr | setNumber ha =>
    obtain rfl := makes_modifyAt.1 hmake
    exact ⟨hspan.build (hspan.code.modifyAt (hK _ ha).1 fun i hi => ⟨hi, rfl, rfl⟩) (by simp), by simp, by simp⟩
  | @listCopy m source target hs ht =>
    have hcopy : (Instr.of m.copyOpcode source target).canJump →
        c.builder.Reaches z (.of m.copyOpcode source target) := by
      simp [Instr.canJump_eq_false (i := .of m.copyOpcode source target) m.copyOpcode_jumps]
    rcases listCopy_cases hmake with hcopied | ⟨-, x, hlast, hop, -, -, rfl⟩
    · exact hemit hcopy hcopied rfl
    · have hsize : c.builder.ops.size ≤ (c.widened x).builder.ops.size := by simp [Compiler.widened]
      exact ⟨hspan.build (hspan.code.widen hlast hop (Int.lt_succ x.p3)) hsize, hsize, by simp⟩
  | keepRoutine hentry hret hresult =>
    obtain rfl := makes_modify.1 hmake
    have hland : c.builder.Lands z _ := hK _ hentry
    refine ⟨⟨hspan.code, List.forall_mem_cons.2 ⟨hland.called, hspan.routines⟩, hspan.start, hspan.grows.trans ?_⟩,
      Nat.le_refl _, by simp⟩
    exact .of_le rfl (Int.le_refl _)
  | keepShared hbase =>
    obtain rfl := makes_modify.1 hmake
    exact ⟨hspan.quiet ⟨rfl, rfl, rfl, .of_le rfl (Int.le_refl _)⟩, Nat.le_refl _, by simp⟩
  | allocRegs n => exact hsilent (allocRegs_draws hmake).1.quiet (by rintro _ ⟨k, -, rfl⟩; trivial)
  | getTemp => exact hsilent (getTemp_draws hmake).1.quiet (by rintro _ ⟨⟩; trivial)
  | releaseTemp h => exact hsilent (releaseTemp_draws hmake).quiet (by simp)
  | getTempRange n => exact hsilent (getTempRange_draws hmake).1.quiet (by rintro _ ⟨k, -, rfl⟩; trivial)
  | releaseTempRange h => exact hsilent (releaseTempRange_draws hmake).quiet (by simp)
  | clearTemps => exact hsilent (clearTemps_draws hmake).quiet (by simp)
  | hoist he => exact hsilent (Silent.hoist _ _ _ _ _ hmake) (by rintro _ ⟨⟩; trivial)
  | hoistAt he hr hpins => exact hsilent (Silent.hoist _ _ _ _ _ hmake) (by simp)

theorem Follows.spans (h : Follows L T K E g E' Q) (hfree : T.free) (hspan : c0.Spans z loose L E c)
    (hK : ∀ f ∈ K, f.Sited z c.builder) (hmake : g.Makes c a c') :
    c0.Spans z loose L (E' a) c' ∧ c.builder.ops.size ≤ c'.builder.ops.size ∧ ∀ f ∈ Q a, f.Sited z c'.builder := by
  induction h generalizing c c' with
  | rule h => exact h.spans hspan hK hmake
  | bindMade hg hf ihg ihf =>
    obtain ⟨x, c1, hfirst, hsecond⟩ := makes_bind.1 hmake
    obtain ⟨hspan1, hsize1, hQ⟩ := ihg hfree hspan hK hfirst
    have hK1 := Facts.forall_and hK (fun f hf => hf.mono hsize1) hQ
    obtain ⟨hspan2, hsize2, hQ'⟩ := ihf c x c1 hfirst hfree hspan1 hK1 hsecond
    exact ⟨hspan2, Nat.le_trans hsize1 hsize2, hQ'⟩
  | pure hE h =>
    obtain ⟨rfl, rfl⟩ := makes_pure.1 hmake
    exact ⟨hE ▸ hspan, Nat.le_refl _, fun f hf => (h f hf).sited hK⟩
  | throw => exact (makes_throw.1 hmake).elim
  | image hmade _ h ih =>
    obtain ⟨x, hx, rfl⟩ := hmade c _ c' hmake
    exact ih hfree hspan hK hx
  | weaken h hlabels hjumps hQ ih =>
    obtain ⟨hspan', hsize, hfacts⟩ := ih hfree hspan hK hmake
    refine ⟨{ hspan' with code := hspan'.code.loosen (hlabels _) (hjumps _) }, hsize, fun f hf => (hQ _ f hf).sited ?_⟩
    exact Facts.forall_and hK (fun f hf => hf.mono hsize) hfacts
  | withState h ih =>
    obtain ⟨x, c1, hget, hmake⟩ := makes_bind.1 hmake
    obtain ⟨rfl, rfl⟩ := makes_get.1 hget
    refine ih c (.inl hfree) hfree hspan (Facts.forall_and hK (fun _ => id) ?_) hmake
    rintro f (hq | _)
    · exact hspan.routines _ hq
    all_goals trivial
  | @hereJump _ _ _ _ i l _ _ _ hl hj hi h ih =>
    simp only [makes_bind, makes_here, makes_emitJump] at hmake
    obtain ⟨_, _, ⟨rfl, rfl⟩, _, _, rfl, hmake⟩ := hmake
    -- The address of the jump is known; the next one is what is jumped back to.
    have hsize : c.builder.ops.size ≤ (c.builder.emitJump i l).ops.size := by simp
    have hland : (c.builder.emitJump i l).Lands z (c.builder.here + 1) := by
      have hfirst := hspan.code.aimed.first_le
      have hhere : (c.builder.emitJump i l).here = c.builder.here + 1 := by simp [Builder.here]
      exact hhere ▸ lands_here (by simp; omega)
    have hmark : ∀ f ∈ ({.mark (c.builder.here + 1)} : Facts), f.Sited z (c.builder.emitJump i l) := by
      rintro f ⟨⟩
      exact hland
    have hK1 := Facts.forall_and hK (fun f hf => hf.mono hsize) hmark
    obtain ⟨hspan', hsize', hQ⟩ := ih _ hfree (hspan.build (hspan.code.emitJump hl i) hsize) hK1 hmake
    exact ⟨hspan', Nat.le_trans hsize hsize', hQ⟩
  | use hp h ih => exact ih (hK _ hp) hfree hspan hK hmake
  | grant hrow h ih => exact ih hfree hspan hK hmake

theorem Silent.aims (h : Silent g) : Aims z L g := by
  intro loose c a c' haimed hL hmake
  exact Compiler.Spans.quiet ⟨.refl haimed.code hL, haimed.routines, rfl, .refl c⟩ (h c a c' hmake)

/-- What follows the rules and has no ends of its own leaves none loose. -/
theorem Follows.aims (h : Gives L .lax ∅ {} g Q) : Aims z L g := by
  intro loose c a c' haimed hL hmake
  exact (h.spans trivial ⟨.refl haimed.code hL, haimed.routines, rfl, .refl c⟩ (by simp) hmake).1

end Gen

end ScalarSql
