import ScalarSql.Proofs.Code.Lists

/-!
# Calls

The arguments of a call are computed into registers in a row, as a list. COALESCE computes an argument
only if those before it are NULL.
-/

namespace ScalarSql

open Compiler Gen Instr Machine Meaning

variable {σ : Scope} {K : Known} {ids ids1 ids2 : List Identity} {P : Prop} {d : Reading}
  {reg : Int} {e x : Expr} {n : Nat} {args : List (Item Code)} {c c1 c' : Compiler} {first : Int} {f : Function}
  {m : Machine} {values : List Value} {bs : List Bool} {ds : List Reading} {w : World σ} {a : Nat}
  {μs : List Meaning}

/-! ## Constant arguments -/

theorem bitsOf_lt (h : bs.length ≤ n) : bitsOf bs < pow2 n := by
  induction bs generalizing n with
  | nil => exact Nat.pow_pos (by decide)
  | cons b bs ih =>
    obtain ⟨n, rfl⟩ : ∃ k, n = k + 1 := ⟨n - 1, by simp at h; omega⟩
    have hrest := ih (Nat.le_of_succ_le_succ h)
    have hsucc : pow2 (n + 1) = pow2 n * 2 := rfl
    rw [bitsOf, hsucc]
    cases b <;> simp <;> omega

theorem eq_false_of_bitsOf (h : bitsOf bs = 0) : ∀ b ∈ bs, b = false := by
  induction bs with
  | nil => simp
  | cons b bs ih =>
    rw [bitsOf] at h
    refine List.forall_mem_cons.2 ⟨?_, ih (by omega)⟩
    cases b
    · rfl
    · simp only [if_true] at h
      omega

/-- If the mask is zero then no argument is constant. -/
theorem Gen.isConstant_of_constantMask (hlen : args.length ≤ 32) (hmask : constantMask args = 0) :
    ∀ a ∈ args, a.expr.expr.isConstant .plain = false := by
  rw [constantMask, List.take_of_length_le hlen] at hmask
  have hlt := @bitsOf_lt 32 (args.map fun a => a.expr.expr.isConstant .plain) (by simpa)
  have hpow : pow2 32 = 4294967296 := by decide
  have hzero : bitsOf (args.map fun a => a.expr.expr.isConstant .plain) = 0 := by
    rw [hpow, Int.bmod_def] at hmask
    split at hmask <;> omega
  intro a ha
  exact eq_false_of_bitsOf hzero _ (List.mem_map_of_mem ha)

/-- Takes the registers for the arguments of a call: new ones, if constants may be pinned to them. -/
def Gen.argumentRange (args : List (Item Code)) : Gen Int :=
  if constantMask args = 0 then getTempRange args.length else allocRegs args.length

def Gen.argumentRow (args : List (Item Code)) : Gen Int :=
  if args.isEmpty then pure 0
  else do
    let first ← argumentRange args
    discard (exprList { full := true, factor := true } args first 0)
    return first

theorem Gen.argumentRange_spec (h : (argumentRange args).Makes c first c1) (hc : c.Good σ) :
    Step σ [] c c1 ∧ Extends nowhere nowhere c c1 ∧ c1.size = c.size ∧
      ∀ r, InRow first args.length r → Taken c c1 r ∧ (constantMask args ≠ 0 → c.highest < r) := by
  have hoffset {r : Int} (hr : InRow first args.length r) : first + (r - first) = r := by omega
  unfold argumentRange at h
  split at h
  · rename_i hmask
    obtain ⟨s, htaken⟩ := getTempRange_spec h hc (by omega)
    obtain ⟨highest, pool, poolRange, hle, rfl⟩ := getTempRange_registers h (by omega)
    refine ⟨s, .of_registers hle, rfl, fun r hr => ⟨?_, absurd hmask⟩⟩
    rw [← hoffset hr]
    exact htaken _ (by have := hr.1; omega) (by have := hr.2; omega)
  · obtain ⟨s, htaken⟩ := allocRegs_spec h hc (by omega)
    obtain ⟨-, rfl⟩ := makes_allocRegs.1 h
    refine ⟨s, .of_registers (by omega), rfl, fun r hr => ?_⟩
    obtain ⟨hlt, hrow⟩ := htaken (r - first) (by have := hr.1; omega) (by have := hr.2; omega)
    rw [hoffset hr] at hlt hrow
    exact ⟨hrow, fun _ => hlt⟩

theorem Gen.argumentRow_spec (hlands : σ.Unmerged → ∀ item ∈ args, item.expr.Lands σ) (hlen : args.length ≤ 32)
    (h : List.Forall₂ (fun item d => item.expr.Realizes σ K d) args ds) (hmakes : (argumentRow args).Makes c first c')
    (hc : c.Good σ) (hids : Unused (itemIds args) c) :
    Step σ (itemIds args) c c' ∧ (constantMask args = 0 → ∀ r, InRow first args.length r → Taken c c' r) ∧
      ∀ w : World σ, Runs w K nowhere c c' (fun env => ds.mapM (· env)) (fun _ => none) (Filled first) := by
  unfold argumentRow at hmakes
  split at hmakes
  · rename_i hempty
    obtain rfl : args = [] := by simpa using hempty
    cases h
    obtain ⟨rfl, rfl⟩ := makes_pure.1 hmakes
    have hnone (r : Int) : ¬ InRow 0 ([] : List (Item Code)).length r := fun hr => by
      have := hr.1
      have := hr.2
      simp only [List.length_nil] at this
      omega
    exact ⟨(Step.refl hc).mono (by simp), fun _ r hr => absurd hr (hnone r),
      fun w m ready => .done rfl (a := []) rfl rfl fun i v hv => by simp at hv⟩
  · simp only [makes_bind, makes_pure, makes_discard, exprList, makes_get] at hmakes
    obtain ⟨reg, c1, hrange, _, _, ⟨n, _, _, ⟨rfl, rfl⟩, hlist⟩, rfl, rfl⟩ := hmakes
    obtain ⟨s1, hgrows, hsize, htaken⟩ := argumentRange_spec hrange hc
    have haside (r : Int) (hr : InRow reg ds.length r) : ¬ σ.aside r := fun hresult =>
      hc.aside r hresult (htaken r (h.length_eq ▸ hr)).1.free
    have hfills : FillsRow σ K _ (constantMask args ≠ 0) c.hoisting
        (discard (list { full := true, factor := true && c1.hoisting } 0 args reg)) reg ds :=
      .list_computed (fun hmerged => ⟨fun hhoisting => by simpa [s1.grows.hoisting] using hhoisting, hlands hmerged⟩)
        rfl (fun hfactors => s1.grows.hoisting.symm.trans hfactors) haside h
        fun item hitem _ hconst hmask => by
          have hplain := isConstant_of_constantMask hlen hmask item hitem
          rw [Expr.isConstant_plain hconst] at hplain
          cases hplain
    rw [h.length_eq] at htaken ⊢
    obtain ⟨hstep, -, hopen, hrun⟩ := hfills.take s1 hgrows hsize (fun r hr => (htaken r hr).1)
      (fun hmask r hr => (htaken r hr).2 hmask) (makes_discard.2 ⟨n, hlist⟩) hids
    exact ⟨hstep, fun hmask => hopen (not_not.2 hmask), hrun⟩

/-! ## Collating sequences of calls -/

theorem Gen.firstCollation_spec {found : Option Collation} (h : (firstCollation args).Makes c found c1)
    (hc : c.Good σ) :
    Step σ [] c c1 ∧ c1.builder = c.builder ∧ Finds σ (args.findSome? (·.expr.expr.collationName?)) found := by
  induction args generalizing c with
  | nil =>
    obtain ⟨rfl, rfl⟩ := makes_pure.1 h
    exact ⟨.refl hc, rfl, .none⟩
  | cons arg args ih =>
    simp only [firstCollation, makes_bind] at h
    obtain ⟨first, c2, hlookup, h⟩ := h
    obtain ⟨s1, hb1, hfinds⟩ := lookup_collation?_spec hc hlookup
    rw [List.findSome?_cons]
    generalize arg.expr.expr.collationName? = name at hfinds
    cases hfinds with
    | none =>
      obtain ⟨s2, hb2, hrest⟩ := ih h s1.good
      exact ⟨s1.trans s2, hb2.trans hb1, hrest⟩
    | some hget =>
      obtain ⟨rfl, rfl⟩ := makes_pure.1 h
      exact ⟨s1, hb1, .some hget⟩

theorem World.callCollation (w : World σ) {args : List Expr} {given : Option Collation} {found : Collation}
    (hfinds : Finds σ (args.findSome? (·.collationName?)) given)
    (hor : given = some found ∨ given = none ∧ σ.collation "BINARY" = some found) :
    w.env.callCollation args = some found := by
  rw [Env.callCollation, w.collation]
  generalize args.findSome? (·.collationName?) = name at hfinds
  rcases hor with rfl | ⟨rfl, hbinary⟩
  · cases hfinds with
    | some hget => exact hget
  · cases hfinds
    exact hbinary

/-! ## The call -/

theorem Function.invoke_draw (hf : f.body ≠ .random) (args : List Value) (collation : Option Collation) (a b : Int64) :
    f.invoke args collation a = f.invoke args collation b := by
  unfold Function.invoke
  cases hbody : f.body with
  | random => exact absurd hbody hf
  | _ => rfl

theorem Filled.tail {v : Value} (h : Filled reg (v :: values) m) : Filled (reg + 1) values m := by
  intro i u hu
  have hi := h (i + 1) u (by simpa using hu)
  rwa [show reg + ((i + 1 : Nat) : Int) = reg + 1 + i by omega] at hi

theorem Filled.registersFrom (h : Filled reg values m) : m.registersFrom reg values.length = values := by
  induction values generalizing reg with
  | nil => rfl
  | cons v values ih =>
    have hv := h 0 v rfl
    rw [Int.natCast_zero, Int.add_zero] at hv
    rw [List.length_cons, registersFrom, hv, ih h.tail]

/-- The instruction of a call stores the value of the call, or fails. -/
theorem leads_call (args : List Expr) {mask : Int} {len : UInt16} (hrandom : f.body ≠ .random)
    (hop : w.ops[a]? = some (.of .function mask first reg (.function f) len))
    (hvalues : m.registersFrom first len.toNat = values)
    (hpending : m.pending = if f.flags.needsCollation then w.env.callCollation args else none) (hr : 0 ≤ reg)
    (hn : 0 < n) :
    Leads w.ops (fun b m' => (∃ v, w.env.call f args values = some v ∧ b = a + 1 ∧
        m'.register reg = v) ∧ ({ m with pending := none } : Machine).Writes (· = reg) m')
      (w.env.call f args values = none) n a m := by
  have hcall : w.env.call f args values = (f.invoke (m.registersFrom first len.toNat) m.pending
      (randomNumber m.draws)).toOption := by
    rw [Env.call, hvalues, hpending, Function.invoke_draw hrandom]
  cases hinvoke : f.invoke (m.registersFrom first len.toNat) m.pending (randomNumber m.draws) with
  | ok v =>
    obtain ⟨m', hstep, hwrites, hvalue⟩ := step_function_ok (a := a) hinvoke hr
    refine .next hop hstep hn (.done ⟨⟨v, ?_, rfl, hvalue⟩, hwrites⟩)
    rw [hcall, hinvoke]
    rfl
  | error error =>
    obtain ⟨m', hstep⟩ := step_function_error (a := a) hinvoke
    refine .error hop hstep hn ?_
    rw [hcall, hinvoke]
    rfl

theorem RunsFrom.of_call (hsize : c1.size = a + 1) (hpending : m.pending = none)
    (h : Leads w.ops (fun b m' => (∃ v, d w.env = some v ∧ b = a + 1 ∧ m'.register reg = v) ∧
      ({ m with pending := none } : Machine).Writes (· = reg) m') (d w.env = none) n c.size m)
    (hn : n ≤ c1.size - c.size) : RunsFrom w (· = reg) c c1 d (fun _ => none) (fun v m => m.register reg = v) m := by
  have hsame : ({ m with pending := none } : Machine) = m := by rw [← hpending]
  rw [hsame] at h
  refine (Leads.weaken h ?_ id).mono hn
  rintro b m1 ⟨⟨v, hv, rfl, hvalue⟩, hwrites⟩
  exact ⟨⟨v, hv, hsize.symm, hvalue⟩, .of_writes hwrites fun _ => .inl⟩

def Gen.invocation (f : Function) (args : List (Item Code)) (collation : Option Collation)
    (first reg : Int) : Gen Unit := do
  if f.flags.needsCollation then
    emit (.of .collSeq 0 0 0 (.collation (← orBinary collation)))
  emit (.of .function (constantMask args) first reg (.function f) (UInt16.ofNat args.length))
  if !args.isEmpty && constantMask args = 0 then releaseTempRange first args.length

theorem Gen.callFunction_eq (f : Function) (args : List (Item Code)) (reg : Int) : callFunction f args reg = (do
      let collation ← (if f.flags.needsCollation then firstCollation args else pure none)
      let first ← argumentRow args
      invocation f args collation first reg) := by
  unfold callFunction argumentRow invocation argumentRange
  cases f.flags.needsCollation <;> cases args.isEmpty <;>
    by_cases hmask : constantMask args = 0 <;> simp [hmask]

theorem Gen.releaseRow_spec (h : (if !args.isEmpty && constantMask args = 0 then
      releaseTempRange first args.length else pure ()).Makes c1 () c') (s : Step σ ids c c1)
    (htaken : constantMask args = 0 → ∀ r, InRow first args.length r → Taken c c1 r) :
    Step σ ids c c' ∧ c'.builder = c1.builder ∧ ∀ pins extra, Extends pins extra c1 c' := by
  split at h
  · rename_i hmask
    simp only [Bool.and_eq_true, decide_eq_true_eq] at hmask
    have hrow (k : Int) (h0 : 0 ≤ k) (hk : k < args.length) : Taken c c1 (first + k) :=
      htaken hmask.2 _ ⟨by omega, by omega⟩
    refine ⟨releaseTempRange_step s hrow h, ?_, fun _ _ => releaseTempRange_extends h⟩
    rcases releaseTempRange_cases h with ⟨-, rfl⟩ | rfl | rfl <;> rfl
  · obtain ⟨-, rfl⟩ := makes_pure.1 h
    exact ⟨s, rfl, fun _ _ => .refl _⟩

theorem Gen.invocation_spec {collation : Option Collation} {c0 : Compiler} (hrandom : f.body ≠ .random)
    (hlen : args.length ≤ 32) (hmakes : (invocation f args collation first reg).Makes c () c') (s0 : Step σ ids c0 c)
    (htaken : constantMask args = 0 → ∀ r, InRow first args.length r → Taken c0 c r) (hreg : 0 ≤ reg) :
    Step σ ids c0 c' ∧ Continues c c' ∧ ∀ (w : World σ) m values,
      Ready w K c c' m → Filled first values m → values.length = args.length →
      (f.flags.needsCollation → Finds σ (args.findSome? (·.expr.expr.collationName?)) collation) →
      RunsFrom w (· = reg) c c' (fun env => env.call f (args.map (·.expr.expr)) values)
        (fun _ => none) (fun v m => m.register reg = v) m := by
  have hcount : (UInt16.ofNat args.length).toNat = args.length :=
    Nat.mod_eq_of_lt (by omega)
  unfold invocation at hmakes
  cases hneeds : f.flags.needsCollation with
  | false =>
    simp only [hneeds, Bool.false_eq_true, if_false, makes_bind] at hmakes
    obtain ⟨⟨⟩, c1, hemit, hrelease⟩ := hmakes
    obtain ⟨s1, e1⟩ := emit_spec hemit s0.good (by simp)
    obtain ⟨hstep, hb, hextends⟩ := releaseRow_spec hrelease (s0.trans s1) fun hmask r hr =>
      (htaken hmask r hr).trans s1
    refine ⟨hstep.mono (by simp), s1.continues.extend (by rw [e1.size]; omega) (hextends _),
      fun w m values ready hfilled hvalues _ => ?_⟩
    have hop := ready.emitted_last (e1.of_builder hb) (Nat.le_refl _) (by simp)
    have hread : m.registersFrom first (UInt16.ofNat args.length).toNat = values := by
      rw [hcount, ← hvalues]
      exact hfilled.registersFrom
    have hcall := leads_call (args.map (·.expr.expr)) (n := 1) hrandom hop hread
      (by rw [hneeds, ready.pending]; rfl) hreg (by decide)
    exact .of_call (e1.of_builder hb).size ready.pending hcall (by rw [(e1.of_builder hb).size]; omega)
  | true =>
    simp only [hneeds, if_true, makes_bind] at hmakes
    obtain ⟨found, c1, hor, ⟨⟩, c2, hset, ⟨⟩, c3, hemit, hrelease⟩ := hmakes
    obtain ⟨s1, hb1, hfound⟩ := orBinary_spec s0.good hor
    obtain ⟨s2, e2⟩ := emit_spec hset s1.good (by simp)
    obtain ⟨s3, e3⟩ := emit_spec hemit s2.good (by simp)
    have hall := s1.trans (s2.trans s3)
    obtain ⟨hstep, hb, hextends⟩ := releaseRow_spec hrelease (s0.trans hall) fun hmask r hr =>
      (htaken hmask r hr).trans hall
    have hsize1 : c1.size = c.size := by rw [size, hb1, size]
    refine ⟨hstep.mono (by simp), hall.continues.extend (by rw [e3.size, e2.size]; omega) (hextends _),
      fun w m values ready hfilled hvalues hfinds => ?_⟩
    have hop2 := ready.emitted e2 (by omega) (s3.grows.trans (hextends _ _) fun _ _ hf => hf) (by simp)
    have hop3 := ready.emitted_last (e3.of_builder hb) (by rw [e2.size]; omega) (by simp)
    have hcollation : w.env.callCollation (args.map (·.expr.expr)) = some found := by
      have hfinds : Finds σ ((args.map (·.expr.expr)).findSome? (·.collationName?)) collation := by
        simpa only [List.findSome?_map, Function.comp_def] using hfinds rfl
      exact w.callCollation hfinds hfound
    have hwaiting : ({ m with pending := some found } : Machine).registersFrom first
        (UInt16.ofNat args.length).toNat = values := by
      rw [hcount, ← hvalues]
      exact Filled.registersFrom fun i v hv => hfilled i v hv
    have hcall := leads_call (args.map (·.expr.expr)) (n := 1) hrandom hop3 hwaiting
      (by rw [hneeds, if_pos rfl, hcollation]) hreg (by decide)
    have hsize : c'.size = c2.size + 1 := (e3.of_builder hb).size
    refine .of_call hsize ready.pending (.next (n := 2) (k := 1) ?_ (step_collSeq found) (by decide) ?_)
      (by rw [hsize, e2.size]; omega)
    · rwa [hsize1] at hop2
    · rw [← hsize1, ← e2.size]
      exact hcall

theorem Loads.callFunction (hlands : σ.Unmerged → ∀ item ∈ args, item.expr.Lands σ)
    (hrandom : f.body ≠ .random) (hlen : args.length ≤ 32)
    (h : List.Forall₂ (fun item d => item.expr.Realizes σ K d) args ds) :
    Loads σ K (itemIds args) (callFunction f args)
      (fun env => do env.call f (args.map (·.expr.expr)) (← ds.mapM (· env))) := by
  intro c c' reg hmakes hc hreg hids
  rw [callFunction_eq] at hmakes
  simp only [makes_bind] at hmakes
  obtain ⟨collation, c1, hfirst, first, c2, hrow, hinvoke⟩ := hmakes
  obtain ⟨s1, hb1, hfinds⟩ : Step σ [] c c1 ∧ c1.builder = c.builder ∧ (f.flags.needsCollation →
      Finds σ (args.findSome? (·.expr.expr.collationName?)) collation) := by
    split at hfirst
    · obtain ⟨s, hb, hfinds⟩ := firstCollation_spec hfirst hc
      exact ⟨s, hb, fun _ => hfinds⟩
    · rename_i hneeds
      obtain ⟨-, rfl⟩ := makes_pure.1 hfirst
      exact ⟨.refl hc, rfl, fun h => absurd h hneeds⟩
  obtain ⟨s2, htaken, hrun⟩ := argumentRow_spec hlands hlen h hrow s1.good (hids.step s1)
  obtain ⟨s3, k3, hcall⟩ := invocation_spec (K := K) hrandom hlen hinvoke s2 htaken hreg.nonneg
  refine ⟨(s1.trans s3).mono (by simp), fun w havoid m ready => ?_⟩
  refine ready.silent s1 s3.grows (by rw [size, hb1, size]) fun ready1 => ?_
  refine ready1.bind s2 k3 (hrun w m) (fun _ hf => hf.elim) (by simp +contextual)
    (fun _ _ _ _ hg => by cases hg) fun values m1 hvalues _ hfilled ready2 => ?_
  have hlength : values.length = args.length := (length_of_mapM hvalues).trans h.length_eq.symm
  refine (hcall w m1 values ready2 hfilled hlength hfinds).congr ?_
  rw [hvalues]
  rfl

/-! ## COALESCE -/

/-- The value, or, while it is NULL, the values of the expressions that follow. -/
def Meaning.replaceNull (env : Env) (v : Value) : List Meaning → Option Value
  | [] => some v
  | μ :: rest => if v.isNull then do replaceNull env (← μ.value env) rest else some v

theorem Meaning.firstNotNull_eq_replaceNull (env : Env) (μ : Meaning) (rest : List Meaning) :
    firstNotNull env (μ :: rest) = (do replaceNull env (← μ.value env) rest) := by
  induction rest generalizing μ with
  | nil =>
    cases h : μ.value env <;> simp [firstNotNull, replaceNull, h]
  | cons ν rest ih =>
    rw [firstNotNull, ih]
    · rfl
    · simp

/-- Replacing a value that is NULL: the code goes to its end as soon as the value is not NULL. -/
theorem Gen.firstNotNull_spec {done : Label} (h : List.Forall₂ (fun item μ => item.expr.Realizes σ K μ.value) args μs)
    (hmakes : (firstNotNull reg done args).Makes c () c') (hc : c.Good σ) (hreg : c.Open reg) (hdone : c.Made done)
    (hids : Unused (itemIds args) c) : Step σ (itemIds args) c c' ∧ ∀ (w : World σ) m, w.Avoids K reg →
      (w.addr done.index).toNat = c'.size → Ready w K c c' m →
      RunsFrom w (· = reg) c c' (fun env => replaceNull env (m.register reg) μs)
        (fun _ => none) (fun v m => m.register reg = v) m := by
  induction h generalizing c with
  | nil =>
    obtain ⟨-, rfl⟩ := makes_pure.1 hmakes
    exact ⟨.refl hc, fun w m _ _ _ => .done rfl rfl rfl rfl⟩
  | @cons arg μ args μs harg _ ih =>
    simp only [firstNotNull, makes_bind] at hmakes
    obtain ⟨⟨⟩, c1, hjump, ⟨⟩, c2, hexact, hrest⟩ := hmakes
    obtain ⟨s1, e1⟩ := emitJump_spec hjump hc (by simp) hdone
    have hids1 := hids.step s1
    obtain ⟨s2, hvalue⟩ := harg.exact hexact s1.good (hreg.step s1) hids1.left
    obtain ⟨s3, hlater⟩ := ih hrest s2.good ((hreg.step s1).step s2) ((s1.trans s2).made hdone) (hids1.right s2)
    refine ⟨(s1.trans (s2.trans s3)).mono (by simp), fun w m havoid haddr ready => ?_⟩
    have htest (ready : Ready w K c c1 m) : RunsFrom w nowhere c c1 (fun _ => some !(m.register reg).isNull)
        (fun t => if t then some done else none) (fun _ m' => m' = m) m :=
      ready.emitBranch e1 (by simp) (step_notNull rfl) rfl rfl rfl rfl (.refl w _ _ _ m)
    refine ready.bindBranch s1 (s2.trans s3).continues htest (fun _ hf => hf.elim) (fun hnone => by cases hnone) ?_ ?_
    · rintro _ ht rfl
      exact ⟨_, by simp_all [replaceNull], haddr, rfl⟩
    · rintro _ ht rfl ready1
      have hnull := by simpa using ht
      refine ready1.bind s2 s3.continues (hvalue w havoid _) havoid.only (fun hnone => ?_)
        (fun _ _ _ _ hg => by cases hg) fun v m2 hv _ hset ready2 => ?_
      · simp [replaceNull, hnull, hnone]
      · refine (hlater w m2 havoid haddr ready2).congr ?_
        simp [replaceNull, hnull, hv, hset]

/-- COALESCE computes its first argument and replaces it while it is NULL. -/
theorem Loads.coalesce {first : Item Code} {rest : List (Item Code)} {μ : Meaning} (h : first.expr.Realizes σ K μ.value)
    (hrest : List.Forall₂ (fun item μ => item.expr.Realizes σ K μ.value) rest μs) :
    Loads σ K (itemIds (first :: rest)) (fun reg => do
        let done ← label
        first.expr.exact reg
        firstNotNull reg done rest
        resolve done)
      fun env => firstNotNull env (μ :: μs) := by
  have hvia : LoadsVia σ K (itemIds (first :: rest)) (fun reg done => do
        first.expr.exact reg
        firstNotNull reg done rest)
      fun env => firstNotNull env (μ :: μs) := by
    intro c c' reg done hmakes hc hreg hdone hids
    simp only [makes_bind] at hmakes
    obtain ⟨⟨⟩, c1, hexact, hlater⟩ := hmakes
    obtain ⟨s1, hvalue⟩ := h.exact hexact hc hreg hids.left
    obtain ⟨s2, hreplace⟩ := firstNotNull_spec hrest hlater s1.good (hreg.step s1) (s1.made hdone) (hids.right s1)
    refine ⟨s1.trans s2, fun w havoid haddr m ready => ?_⟩
    refine ready.bind s1 s2.continues (hvalue w havoid m) havoid.only (fun hnone => ?_)
      (fun _ _ _ _ hg => by cases hg) fun v m1 hv _ hset ready1 => ?_
    · rw [firstNotNull_eq_replaceNull, hnone]
      rfl
    · refine (hreplace w m1 havoid haddr ready1).congr ?_
      rw [firstNotNull_eq_replaceNull, hv, hset]
      rfl
  simpa only [bind_assoc] using hvia.loads

/-! ## Calls of any function -/

theorem Gen.makes_findFunction {name : String} (h : (findFunction name n).Makes c f c') (hc : c.Good σ) :
    c' = c ∧ σ.functions.find? name n = some f := by
  simp only [findFunction, makes_get_bind] at h
  rw [← hc.functions]
  split at h
  · rename_i found hfind
    split at h
    · exact (makes_throw.1 h).elim
    · obtain ⟨rfl, rfl⟩ := makes_pure.1 h
      exact ⟨rfl, hfind⟩
  · exact (makes_throw.1 h).elim

abbrev Arguments (σ : Scope) (K : Known) : List (Item Code) → List Meaning → Prop :=
  List.Forall₂ fun item μ => item.expr.Realizes σ K μ.value ∧ item.expr.expr = μ.expr

section

variable {args : List (Item Code)} {μs : List Meaning} {name : String} {f : Function}

/-- The call of a function that was found: COALESCE and hints about likelihood have code of their own. -/
def Gen.callFound (f : Function) (name : String) (args : List (Item Code)) (reg : Int) : Gen Int :=
  if f.flags.coalesce then
    match args with
    | first :: second :: rest => do
      let done ← label
      first.expr.exact reg
      firstNotNull reg done (second :: rest)
      resolve done
      return reg
    | _ => throw (.wrongArgumentCount name)
  else
    match f.flags.unlikely, args with
    | true, first :: _ => first.expr.target reg
    | _, _ => do
      callFunction f args reg
      return reg

def Meaning.foundValue (f : Function) (args : List Meaning) (env : Env) : Option Value :=
  if f.flags.coalesce then firstNotNull env args
  else
    match f.flags.unlikely, args with
    | true, first :: _ => first.value env
    | _, _ => do env.call f (args.map (·.expr)) (← args.mapM (·.value env))

theorem Targets.callFound (hlands : σ.Unmerged → ∀ item ∈ args, item.expr.Lands σ)
    (hrandom : f.body ≠ .random) (hlen : args.length ≤ 32)
    (h : Arguments σ K args μs) : Targets σ K (itemIds args) (callFound f name args) (foundValue f μs) := by
  unfold Gen.callFound Meaning.foundValue
  cases f.flags.coalesce with
  | true =>
    simp only [if_true]
    match h with
    | .nil => exact fun _ _ _ _ hmakes => (makes_throw.1 hmakes).elim
    | .cons _ .nil => exact fun _ _ _ _ hmakes => (makes_throw.1 hmakes).elim
    | .cons h1 (.cons h2 hrest) =>
      have hload := Targets.of_loads (Loads.coalesce h1.1 (.cons h2.1 (hrest.imp fun _ _ hitem => hitem.1)))
      simpa only [bind_assoc] using hload
  | false =>
    have hexprs : args.map (·.expr.expr) = μs.map (·.expr) := by
      clear hlands hlen
      induction h with
      | nil => rfl
      | cons hitem _ ih => rw [List.map_cons, List.map_cons, hitem.2, ih]
    have hvalues : List.Forall₂ (fun item d => item.expr.Realizes σ K d) args (μs.map (·.value)) :=
      List.forall₂_map_right_iff.2 (h.imp fun _ _ hitem => hitem.1)
    have hload := Targets.of_loads (Loads.callFunction hlands hrandom hlen hvalues)
    rw [hexprs] at hload
    simp only [List.mapM_map, Function.comp_def] at hload
    cases f.flags.unlikely with
    | false => exact hload
    | true =>
      cases h with
      | nil => exact hload
      | cons h1 _ =>
        intro c c' reg r hmakes hc hreg hids
        obtain ⟨s, hfound, hrun⟩ := h1.1.target hmakes hc hreg hids.left
        exact ⟨s.mono fun _ => List.mem_append_left _, hfound, hrun⟩

/-- A call: a constant one is set aside, any other calls the function that is found. -/
theorem Gen.makes_call {r : Int} (h : (call e name args none reg).Makes c r c') (hc : c.Good σ) :
    (c.hoisting ∧ e.isConstant .notJoin ∧ (hoist e none).Makes c r c') ∨
      ∃ f, σ.functions.find? name args.length = some f ∧ (callFound f name args reg).Makes c r c' := by
  simp only [call, makes_bind, makes_hoists] at h
  obtain ⟨_, _, ⟨rfl, rfl⟩, h⟩ := h
  split at h
  · rename_i hhoists
    exact .inl ⟨(Bool.and_eq_true_iff.1 hhoists).1, (Bool.and_eq_true_iff.1 hhoists).2, h⟩
  · obtain ⟨_, _, hget, h⟩ := makes_bind.1 h
    obtain ⟨rfl, rfl⟩ := makes_get.1 hget
    split at h
    · obtain ⟨_, _, hthrow, -⟩ := makes_bind.1 h
      exact (makes_throw.1 hthrow).elim
    · obtain ⟨f, c1, hfind, hcall⟩ := makes_bind.1 h
      obtain ⟨rfl, hfound⟩ := makes_findFunction hfind hc
      exact .inr ⟨f, hfound, hcall⟩

theorem Targets.call (hlands : σ.Unmerged → ∀ item ∈ args, item.expr.Lands σ)
    (hconst : e.isConstant .notJoin → e.Plain σ ∧ callValue name μs = e.meaning.value)
    (hids : e.identities = itemIds args) (hlen : args.length ≤ 32)
    (hrandom : ∀ f, σ.functions.find? name args.length = some f → f.body ≠ .random) (h : Arguments σ K args μs) :
    Targets σ K e.identities (call e name args none) (callValue name μs) := by
  intro c c' reg r hmakes hc hreg hunused
  rcases makes_call hmakes hc with ⟨hhoisting, hconstant, hhoist⟩ | ⟨f, hfound, hcall⟩
  · obtain ⟨hplain, hvalue⟩ := hconst hconstant
    obtain ⟨hstep, hb, hshared, hrun⟩ := hoist_yields (K := K) hhoist hc hhoisting hconstant hplain hunused
    rw [hvalue]
    exact ⟨hstep, .inr ⟨hshared, hb⟩, fun w _ => hrun w _⟩
  · rw [hids] at hunused ⊢
    obtain ⟨s, hwhere, hrun⟩ := Targets.callFound hlands (hrandom f hfound) hlen h hcall hc hreg hunused
    refine ⟨s, hwhere, fun w havoid m ready => (hrun w havoid m ready).congr ?_⟩
    rw [callValue, w.functions, ← h.length_eq, hfound]
    rfl

end

end ScalarSql
