import ScalarSql.Statement
import ScalarSql.Proofs.Code.Correct

/-!
# Finished programs

A program is finished by the code of the constants that were set aside: it stands behind the body but
runs before it. So the body and the constants are two pieces of code of the same program, each with a
world of its own. In the world of the constants nothing is set aside. Once they are computed, the
machine is at the first instruction of the body, and their registers hold the values that the world of
the body asks for.
-/

namespace ScalarSql

open Builder Gen

variable {g : Gen Program} {c c' : Compiler} {p : Program}

open Compiler Gen

/-- The environment has the functions and the collating sequences of the scope. -/
structure Env.Fits (σ : Scope) (env : Env) : Prop where
  functions : env.functions = σ.functions
  collation : env.collation = σ.collation
  own : env.own = σ.own
  caseBlind : env.CaseBlind

/-- Every copy of several registers is run as a whole: no jump leads behind it. -/
def Program.CopiesWhole (p : Program) : Prop :=
  ∀ (a : Nat) (x : Instr), p.ops[a]? = some x → x.opcode = .copy → 0 < x.p3 → Leads.EnteredFromBefore p.ops (a + 1)

instance (p : Program) : Decidable p.CopiesWhole :=
  decidable_of_iff (∀ a : Fin p.ops.size, p.ops[a].opcode = .copy → 0 < p.ops[a].p3 →
      ∀ i ∈ p.ops, i.canJump = true → i.p2.toNat ≠ a + 1) <| by
    constructor
    · intro h a x hx hcopy hpos
      obtain ⟨ha, rfl⟩ := Array.getElem?_eq_some_iff.1 hx
      exact h ⟨a, ha⟩ hcopy hpos
    · intro h a hcopy hpos
      exact h a _ (Array.getElem?_eq_getElem a.isLt) hcopy hpos

/-- The rows that a statement delivers, if it can be compiled and ends without an error. -/
def Gen.delivered? (g : Gen Program) (catalog : Catalog) (config : Config) (store : Store) (params : List Value) :
    Option (Array (List Value)) :=
  match g.run (.new catalog config) with
  | (.ok p, _) =>
    match p.run catalog store params with
    | (.ok (), m) => some m.rows
    | _ => none
  | _ => none

theorem Gen.of_delivered? {catalog : Catalog} {config : Config} {store : Store} {params : List Value}
    {rows : Array (List Value)} (h : g.delivered? catalog config store params = some rows) :
    ∃ p c m, g.Makes (.new catalog config) p c ∧ p.run catalog store params = (.ok (), m) ∧ m.rows = rows := by
  unfold delivered? at h
  split at h
  · rename_i p c hmakes
    split at h
    · rename_i m hrun
      exact ⟨p, c, m, hmakes, hrun, Option.some.inj h⟩
    · cases h
  · cases h

/-- What a program passes as a test can be computed from its compilation. -/
theorem Gen.test_of_makes {test : Program → Bool} (h : g.Makes c p c') (htest : (g.run c).1.toOption.all test) :
    test p := by
  rw [show g.run c = (.ok p, c') from h] at htest
  simpa [Except.toOption] using htest

theorem Gen.exists_of_test {α : Type} (g : Gen α) (c : Compiler) (test : α → Bool)
    (h : (g.run c).1.toOption.any test) : ∃ a c', g.Makes c a c' ∧ test a := by
  rcases hrun : g.run c with ⟨e | a, c'⟩
  · rw [hrun] at h
    cases h
  · rw [hrun] at h
    exact ⟨a, c', hrun, h⟩

theorem Gen.size_lt_of_makes {n : Nat} (h : g.Makes c p c')
    (hsmall : (g.run c).1.toOption.all (·.ops.size < n)) : p.ops.size < n :=
  of_decide_eq_true (test_of_makes h hsmall)

theorem Gen.copiesWhole_of_makes (h : g.Makes c p c')
    (hwhole : (g.run c).1.toOption.all (fun p => decide p.CopiesWhole)) : p.CopiesWhole :=
  of_decide_eq_true (test_of_makes h hwhole)

/-- The program that a compilation left, with nothing waiting. -/
structure Closed (σ : Scope) (c : Compiler) (p : Program) : Prop where
  good : c.Good σ
  ops : p.ops = c.builder.ops
  complete : c.builder.fixups = []
  whole : p.CopiesWhole
  small : p.ops.size < 2147483648

namespace Closed

variable {σ : Scope} {c c0 c1 : Compiler} {p : Program} {env : Env} {hoisted : List Hoisted}

def world (h : Closed σ c p) (env : Env) (fits : env.Fits σ) (hoisted : List Hoisted) : World σ where
  ops := p.ops
  addr i := (c.builder.address? ⟨i⟩).getD 0
  env := env
  hoisted := hoisted
  routines := c.routines
  lent _ := False
  unskipped := h.whole
  apart a x hx hcopy := (h.good.copies a x (h.ops ▸ hx) hcopy).apart
  targets a x hx hcopy := (h.good.copies a x (h.ops ▸ hx) hcopy).target
  addresses := h.small
  functions := fits.functions
  collation := fits.collation
  own := fits.own
  caseBlind := fits.caseBlind

theorem settled (h : Closed σ c p) (fits : env.Fits σ) (hoisted : List Hoisted) :
    c.builder.Settled (h.world env fits hoisted).addr := by
  intro l a ha
  show (c.builder.address? ⟨l.index⟩).getD 0 = a
  rw [show (⟨l.index⟩ : Label) = l from rfl, ha]
  rfl

theorem patched (h : Closed σ c p) (addr : Nat → Int) (i : Nat) : c.builder.patched addr i = p.ops[i]? := by
  rw [Builder.patched, Builder.waitsFor?, h.complete, h.ops]
  cases c.builder.ops[i]? <;> rfl

theorem placed (h : Closed σ c p) (fits : env.Fits σ) (hc0 : c0.Good σ) (hc1 : c1.Good σ) (hsealed : c1.Sealed)
    {extra : Int → Prop} (k : KeepsFrom extra c0.size c1.builder c.builder) (hknown : hoisted = c1.hoisted.toList)
    (hchained : c1.config.chainedItems = env.chained) (hcursors : ∀ n, σ.cursors n → n < c0.cursors)
    (hroutines : ∃ new, c.routines = new ++ c1.routines ∧ ∀ q ∈ new, c1.size ≤ q.2.entry) :
    Placed (h.world env fits hoisted) c0 c1 where
  start := hc0
  good := hc1
  settled := (h.settled fits hoisted).of_keeps k
  code i hlo hi := by
    obtain ⟨x, y, hx, hy, hxy⟩ := k.code _ (h.settled fits hoisted) i hlo hi
    rw [h.patched] at hy
    have hsame : y = x := by
      by_cases hin : i + 1 < c1.size
      · have hinner := k.inner _ (h.settled fits hoisted) i hlo hin
        rw [h.patched, hx, hy] at hinner
        exact Option.some.inj hinner
      · -- the last instruction is no copy, so that it was not widened
        obtain ⟨x', hx', hop⟩ := getElem?_of_patched hx
        refine hxy.eq_of_ne (hop ▸ hsealed x' ?_)
        rw [show i = c1.builder.ops.size - 1 by simp only [size] at hi hin; omega] at hx'
        exact hx'
    exact ⟨x, y, hx, hy, Or.inl hsame, fun _ => hsame⟩
  known x hx := hknown ▸ hx
  later r hr := by
    obtain ⟨x, hx, rfl⟩ := hr
    exact .inl ⟨x, hknown ▸ hx, rfl⟩
  chained := hchained
  cursors n hn := .inl (hcursors n hn)
  lent _ hf := hf.elim
  registered q hq := by
    obtain ⟨new, hnew, -⟩ := hroutines
    show q ∈ c.routines
    rw [hnew]
    exact List.mem_append_right _ hq
  routines q hq := by
    obtain ⟨new, hnew, hplace⟩ := hroutines
    have hq : q ∈ c.routines := hq
    rw [hnew, List.mem_append] at hq
    exact hq.symm.imp_right (hplace q)

end Closed

/-! ## The constants -/

section

variable {σ : Scope} {c c' : Compiler} {p : Program} {c1 c2 : Compiler}

theorem Gen.computeHoisted_spec {hs : List Hoisted} (h : (computeHoisted hs).Makes c () c') (hc : c.Good σ)
    (hopen : ∀ x ∈ hs, c.Open x.reg) (hplain : ∀ x ∈ hs, x.expr.Plain σ) (hdistinct : (hs.map (·.reg)).Nodup)
    (hids : Unused (hs.flatMap (·.expr.identities)) c) :
    Step σ (hs.flatMap (·.expr.identities)) c c' ∧ ∀ (w : World σ) (K : Known), (∀ x ∈ hs, w.Avoids K x.reg) →
      Runs w K (fun r => ∃ x ∈ hs, x.reg = r) c c' (fun env => hs.mapM (·.expr.meaning.value env))
        (fun _ => none) fun _ m => (∀ q ∈ K, m.register q.1 = q.2) ∧
          ∀ x ∈ hs, x.expr.meaning.value w.env = some (m.register x.reg) := by
  induction hs generalizing c with
  | nil =>
    obtain ⟨-, rfl⟩ := makes_pure.1 h
    refine ⟨(Step.refl hc).mono (by simp), fun w K _ m ready => ?_⟩
    exact .done rfl (a := []) rfl rfl ⟨fun q hq => (ready.held q hq).2.2, by simp⟩
  | cons x hs ih =>
    simp only [computeHoisted, makes_bind] at h
    obtain ⟨⟨⟩, c1, hfirst, hrest⟩ := h
    rw [List.map_cons, List.nodup_cons] at hdistinct
    have hloads (K : Known) := ((hplain x List.mem_cons_self).realizes K).value.exact
    rw [Expr.coded_expr] at hloads
    obtain ⟨s1, -⟩ := hloads [] hfirst hc (hopen x List.mem_cons_self) hids.left
    obtain ⟨s2, hrun2⟩ := ih hrest s1.good (fun y hy => (hopen y (List.mem_cons_of_mem _ hy)).step s1)
      (fun y hy => hplain y (List.mem_cons_of_mem _ hy)) hdistinct.2 (hids.right s1)
    refine ⟨s1.trans s2, fun w K havoid m ready => ?_⟩
    obtain ⟨-, hrun1⟩ := hloads K hfirst hc (hopen x List.mem_cons_self) hids.left
    have havoid1 := havoid x List.mem_cons_self
    refine ready.bindValue s1 s2.continues (hrun1 w havoid1) (fun r hr => ?_)
      ((hopen x List.mem_cons_self).step s1).taken havoid1.lent (fun hnone => by simp [hnone])
      fun v hv m1 ready1 => ?_
    · cases hr
      exact ⟨havoid1, .inl ⟨x, List.mem_cons_self, rfl⟩⟩
    · have hne (y : Hoisted) (hy : y ∈ hs) : x.reg ≠ y.reg := fun he => hdistinct.1 (he ▸ List.mem_map_of_mem hy)
      have hrun := hrun2 w ((x.reg, v) :: K)
        (fun y hy => (havoid y (List.mem_cons_of_mem _ hy)).cons (hne y hy)) m1 ready1
      refine (hrun.map (f := (v :: ·)) ?_ (fun _ => rfl) fun vs m2 hholds => ?_).mono ?_
      · simp only [List.mapM_cons, hv]
        cases hs.mapM (·.expr.meaning.value w.env) <;> rfl
      · obtain ⟨hkept, hvalues⟩ := hholds
        rw [List.forall_mem_cons] at hkept
        exact ⟨hkept.2, List.forall_mem_cons.2 ⟨hv.trans (congrArg some hkept.1.symm), hvalues⟩⟩
      · rintro r ⟨y, hy, hr⟩
        exact .inl ⟨y, List.mem_cons_of_mem _ hy, hr⟩

/-- The program starts with a jump whose address is not known yet. -/
structure Compiler.Started (c : Compiler) : Prop where
  start : c.start = some 0
  incomplete : c.Incomplete 0
  init : ∀ x, c.builder.ops[0]? = some x → x.opcode = .init

theorem Compiler.Started.extends {pins extra : Int → Prop} (h : c.Started) (e : Extends pins extra c c') :
    c'.Started where
  start := e.start.trans h.start
  incomplete := h.incomplete.extends e
  init x hx := h.init x (h.incomplete.stays e ▸ hx)

/-- The state in which the code of the constants starts: the program starts there, and nothing is set
aside any more. -/
def Compiler.unloaded (c : Compiler) : Compiler :=
  { c.patch 0 fun i => { i with p2 := c.builder.here } with hoisting := false, hoisted := #[] }

@[simp]
theorem Compiler.unloaded_hoisted (c : Compiler) : c.unloaded.hoisted = #[] := rfl

theorem Compiler.unloaded_size (c : Compiler) : c.unloaded.size = c.size := c.patch_size 0 _

theorem Compiler.unloaded_sealed (h : c.Incomplete 0) (hsealed : c.Sealed) : c.unloaded.Sealed := by
  intro x hx hcopy
  have hx : (c.builder.modifyAt (0 : Nat) fun i => { i with p2 := c.builder.here }).last? = some x := hx
  rw [last?_eq_getElem?, modifyAt_size] at hx
  by_cases hzero : c.builder.ops.size - 1 = 0
  · rw [hzero, modifyAt_getElem?_self] at hx
    obtain ⟨y, hy, rfl⟩ := Option.map_eq_some_iff.1 hx
    exact h.plain y hy hcopy
  · rw [modifyAt_getElem?_ne (by omega)] at hx
    exact hsealed x (by rw [last?_eq_getElem?]; exact hx) hcopy

/-- Behind code that does not end with a copy, what was set aside may be forgotten. -/
theorem Compiler.Good.unload (hc : c.Good σ) (h : c.Incomplete 0) (hsealed : c.Sealed) : c.unloaded.Good σ := by
  have hpatch := hc.patch (f := fun i => { i with p2 := c.builder.here }) h fun _ => rfl
  have hnodup := hc.identities
  rw [used, List.nodup_append] at hnodup
  exact
    { hpatch with
      taken := by simp
      constant := by simp
      oneEach := List.nodup_nil
      hoisting := fun _ => rfl
      identities := (congrArg List.Nodup (List.append_nil _)).mpr hnodup.1
      ends := fun x hx hcopy => absurd hcopy (unloaded_sealed h hsealed x hx)
      below := fun _ _ _ hshared => by
        obtain ⟨x, hx, -⟩ := hshared
        cases hx }

/-- How a compilation is finished: the state behind the body, and the state behind the constants. -/
structure Finishes (c c1 c2 c' : Compiler) (p : Program) : Prop where
  halt : (emit (.of .halt)).Makes c () c1
  constants : (computeHoisted c1.hoisted.toList).Makes c1.unloaded () c2
  back : (emit (.of .goto 0 1)).Makes c2 () c'
  complete : c'.builder.fixups = []
  ops : p.ops = c'.builder.ops
  registers : p.registers = c'.highest

theorem Gen.finish_makes (h : finish.Makes c p c') (hstart : c.start = some 0) : ∃ c1 c2, Finishes c c1 c2 c' p := by
  simp only [finish, makes_bind, makes_get] at h
  obtain ⟨⟨⟩, c1, hhalt, _, _, ⟨rfl, rfl⟩, h⟩ := h
  have hstart1 : c1.start = some 0 := by
    rw [makes_emit.1 hhalt]
    exact hstart
  rw [hstart1] at h
  simp only [makes_bind, makes_get, makes_jumpHere, makes_set] at h
  obtain ⟨⟨⟩, _, rfl, _, _, ⟨rfl, rfl⟩, ⟨⟩, _, rfl, ⟨⟩, c2, hconstants, ⟨⟩, c3, hback, _, _, ⟨rfl, rfl⟩, h⟩ := h
  cases hfixups : c3.builder.fixups with
  | nil =>
    simp only [Builder.build, hfixups, makes_pure] at h
    obtain ⟨rfl, rfl⟩ := h
    exact ⟨c1, c2, hhalt, hconstants, hback, hfixups, rfl, rfl⟩
  | cons waiting rest => simp only [Builder.build, hfixups, makes_throw] at h

end

theorem Instr.step_init {i : Instr} {a : Nat} {m : Machine} (h : i.opcode = .init) :
    (i.step a).outcome m = (.ok .jump, m) := by
  cases i
  cases h
  rfl

namespace Finishes

variable {σ : Scope} {c c0 c1 c2 c' : Compiler} {p : Program} {env : Env}

variable (h : Finishes c c1 c2 c' p)

include h

theorem fixups_eq_nil : c2.builder.fixups = [] := by
  have hcomplete := h.complete
  rw [makes_emit.1 h.back] at hcomplete
  exact hcomplete

theorem ops_eq_push : p.ops = c2.builder.ops.push (.of .goto 0 1) := by
  rw [h.ops, makes_emit.1 h.back]
  rfl

theorem isSealed : c1.Sealed := (emit_closes h.halt (by simp)).isSealed

variable (hc : c.Good σ)

include hc

theorem halt_spec : Step σ [] c c1 ∧ Emits c c1 fun _ => .of .halt := emit_spec h.halt hc (by simp)

variable (hs : c.Started)

include hs

theorem unloaded_good : c1.unloaded.Good σ := by
  obtain ⟨s, -⟩ := h.halt_spec hc
  exact s.good.unload (hs.extends s.grows).incomplete h.isSealed

theorem constants_spec : Step σ (c1.hoisted.toList.flatMap (·.expr.identities)) c1.unloaded c2 ∧
      ∀ (w : World σ) (K : Known), (∀ x ∈ c1.hoisted.toList, w.Avoids K x.reg) →
        Runs w K (fun r => ∃ x ∈ c1.hoisted.toList, x.reg = r) c1.unloaded c2
          (fun env => c1.hoisted.toList.mapM (·.expr.meaning.value env)) (fun _ => none)
          fun _ m => (∀ q ∈ K, m.register q.1 = q.2) ∧
            ∀ x ∈ c1.hoisted.toList, x.expr.meaning.value w.env = some (m.register x.reg) := by
  obtain ⟨s, -⟩ := h.halt_spec hc
  have hnodup := s.good.identities
  rw [used, List.nodup_append] at hnodup
  refine computeHoisted_spec h.constants (h.unloaded_good hc hs)
    (fun x hx => ⟨(s.good.taken x hx).1, (s.good.taken x hx).2, by simp [HoldsConstant]⟩)
    (fun x hx => (s.good.constant x hx).2)
    s.good.oneEach ⟨hnodup.2.1, fun i hi hused => ?_⟩
  -- nothing is set aside any more, so only routines of the body have code
  have hroutine : i ∈ c1.routines.map (·.1) := by
    have hused : i ∈ c1.routines.map (·.1) ++ [] := hused
    rwa [List.append_nil] at hused
  exact hnodup.2.2 i hroutine i hi rfl

theorem back_spec : Step σ [] c2 c' ∧ Emits c2 c' fun _ => .of .goto 0 1 :=
  emit_spec h.back (h.constants_spec hc hs).1.good (by simp)

theorem closed (hwhole : p.CopiesWhole) (hsmall : p.ops.size < 2147483648) : Closed σ c' p :=
  ⟨(h.back_spec hc hs).1.good, h.ops, h.complete, hwhole, hsmall⟩

theorem copiesWhole (hmerged : σ.Unmerged) : p.CopiesWhole := by
  intro a x hx hcopy hlt
  have hsingle := ((h.back_spec hc hs).1.good.copies a x (h.ops ▸ hx) hcopy).single hmerged
  omega

theorem keeps : KeepsFrom (fun _ => True) 1 c1.builder c'.builder := by
  obtain ⟨s1, -⟩ := h.constants_spec hc hs
  obtain ⟨s2, -⟩ := h.back_spec hc hs
  have hconstants : KeepsFrom (fun _ => True) 1 c1.unloaded.builder c'.builder :=
    ((s1.trans s2).grows.keeps).mono (fun _ _ => trivial) (Nat.zero_le 1)
  have hstart : KeepsFrom (fun _ => True) 1 c1.builder c1.unloaded.builder :=
    modifyAt_keepsFrom (a := 0) (by decide)
  exact hstart.trans hconstants

theorem init : ∃ x : Instr, p.ops[0]? = some x ∧ x.opcode = .init ∧ x.p2 = c1.size := by
  obtain ⟨s, -⟩ := h.halt_spec hc
  obtain ⟨s1, -⟩ := h.constants_spec hc hs
  obtain ⟨s2, -⟩ := h.back_spec hc hs
  have hs1 := hs.extends s.grows
  obtain ⟨x, hx⟩ : ∃ x, c1.builder.ops[0]? = some x := ⟨_, Array.getElem?_eq_getElem hs1.incomplete.lt⟩
  have hpatched : c1.unloaded.builder.ops[0]? = some { x with p2 := c1.size } := by
    show (c1.builder.modifyAt (0 : Nat) _).ops[0]? = _
    rw [modifyAt_getElem?_self, hx]
    rfl
  have hincomplete : c1.unloaded.Incomplete 0 := by
    refine ⟨c1.unloaded_size ▸ hs1.incomplete.lt, fun y hy => ?_, ?_⟩
    · cases hy.symm.trans hpatched
      exact hs1.incomplete.plain x hx
    · show (c1.builder.modifyAt (0 : Nat) _).waitsFor? 0 = none
      exact hs1.incomplete.waits
  refine ⟨{ x with p2 := c1.size }, ?_, hs1.init x hx, rfl⟩
  rw [h.ops, hincomplete.stays (s1.trans s2).grows, hpatched]

variable (hp : Closed σ c' p) (fits : env.Fits σ) (hchained : c1.config.chainedItems = env.chained)

include hp fits hchained

/-- The body from a state behind the start on is placed in the world where all constants are set aside. -/
theorem placed (hc0 : c0.Good σ) (hpos : 1 ≤ c0.size) (hcursors : ∀ n, σ.cursors n → n < c0.cursors) :
    Placed (hp.world env fits c1.hoisted.toList) c0 c1 := by
  obtain ⟨s, -⟩ := h.halt_spec hc
  obtain ⟨s1, -⟩ := h.constants_spec hc hs
  obtain ⟨s2, -⟩ := h.back_spec hc hs
  refine hp.placed fits hc0 s.good h.isSealed ((h.keeps hc hs).mono (fun _ h => h) hpos) rfl hchained hcursors ?_
  obtain ⟨new, hnew, hplace⟩ := (s1.trans s2).grows.routines
  exact ⟨new, hnew, fun q hq => c1.unloaded_size ▸ (hplace q hq).1⟩

/-- What holds of a machine before a program starts. -/
structure Fresh (σ : Scope) (env : Env) (m : Machine) : Prop where
  params : m.params = env.params
  rows : ∀ n, σ.cursors n → (m.cursor? n).map Cursor.view = env.row n
  stored : ∀ n cur, σ.cursors n → m.cursor? n = some cur → cur.isStored = true
  pending : m.pending = none
  visited : m.visited = []
  separate : m.Separate

/-- A program computes its constants and goes on with its body. -/
theorem leads (hcursors : ∀ n, σ.cursors n → n < c1.cursors) {m : Machine} (fresh : Fresh σ env m) :
    Leads p.ops (fun b m' => b = 1 ∧ (∀ x ∈ c1.hoisted.toList, x.expr.meaning.value env = some (m'.register x.reg)) ∧
        ∃ T, Frame (hp.world env fits []) T c1.unloaded c2 m m')
      (c1.hoisted.toList.mapM (·.expr.meaning.value env) = none) (c'.size - c1.size + 1) 0 m := by
  obtain ⟨s, -⟩ := h.halt_spec hc
  obtain ⟨s1, hrun⟩ := h.constants_spec hc hs
  obtain ⟨s2, e2⟩ := h.back_spec hc hs
  obtain ⟨x, hx, hop, hp2⟩ := h.init hc hs
  have hgood := h.unloaded_good hc hs
  let w := hp.world env fits []
  have hplaced : Placed w c1.unloaded c' := by
    refine hp.placed fits hgood hp.good (emit_closes h.back (by simp)).isSealed
      (.refl (fun _ => True) _ _) ?_ ?_ hcursors ⟨[], rfl, by simp⟩
    · -- nothing is set aside by code that is compiled now
      have hnone := hp.good.hoisting ((s1.trans s2).grows.hoisting)
      rw [hnone]
    · rw [(s1.trans s2).grows.config]
      exact hchained
  have ready : Ready w [] c1.unloaded c' m :=
    { hplaced with
      held := by simp
      params := fresh.params
      rows := fresh.rows
      stored := fresh.stored
      pending := fresh.pending
      constants := fun x hx => absurd hx List.not_mem_nil
      kept := fun q _ _ _ hvisited => by
        rw [fresh.visited] at hvisited
        cases hvisited
      separate := fresh.separate
      copied := fun x y k hlast hcopy =>
        absurd hcopy (unloaded_sealed (hs.extends s.grows).incomplete h.isSealed x hlast) }
  have havoid (r : Int) : w.Avoids [] r := by
    refine ⟨?_, id, by simp⟩
    rintro ⟨y, hy, -⟩
    cases hy
  have hconstants := hrun w [] (fun y _ => havoid y.reg) m (ready.first s1 s2.grows s2.continues.guarded)
  refine Leads.jump hx (Instr.step_init hop) (k := c'.size - c1.size) (by omega) ?_
  rw [hp2, Int.toNat_natCast, ← c1.unloaded_size]
  refine ready.andThen s1.passes s2.grows.weaken (runsFrom_iff.1 hconstants) (fun r _ => havoid r) id
    fun _ m1 _ hholds hw _ => ?_
  have hgoto := ready.emitted_last e2 s1.size_le (by simp)
  refine Leads.jump hgoto (Instr.step_goto rfl) (k := 0) (by have := e2.size; omega) ?_
  exact .done ⟨rfl, hholds.2, _, hw.toFrame⟩

end Finishes

end ScalarSql
