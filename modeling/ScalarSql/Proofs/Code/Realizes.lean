import ScalarSql.Proofs.Code.Patches

/-!
# Code that realizes a meaning

The code of an expression offers several ways to use it, and each has one property: `Targets` for a
value in a wanted register, `Temps` for a value in any register, `Jumps` for a branch. They say what
the compilation does to the state of the compiler, and what every run of the code computes.

Code that only serves as an operand must be able to give its value (`Coded.Computes`); the code of an
expression can do all of it (`Coded.Realizes`).
-/

namespace ScalarSql

open Coded Compiler Gen

/-! ## Where values are -/

/-- The value is in the wanted register; or it is a constant that was set aside, and there is no
code. -/
def Found (c c' : Compiler) (reg r : Int) : Prop :=
  r = reg ∨ c'.HoldsShared r ∧ c'.builder = c.builder

/-- The value is in a register that is to be released, in that of a constant, or in one of `K`. -/
def Borrowed (K : Known) (c c' : Compiler) (p : Int × Option Int) : Prop :=
  Taken c c' p.1 ∧ p.2 = some p.1 ∨ p.2 = none ∧ (c'.HoldsShared p.1 ∨ ∃ v, (p.1, v) ∈ K)

section

variable {σ : Scope} {w : World σ} {K : Known} {c c1 c2 : Compiler} {m : Machine} {ids : List Identity}
  {p : Int × Option Int} {r : Int} {pins extra : Int → Prop}

theorem Borrowed.lends (h : Borrowed K c c1 p) : Lends c c1 p.2 := by
  intro r hr
  rcases h with ⟨ht, hp⟩ | ⟨hp, -⟩
  · rw [hp] at hr
    cases hr
    exact ht
  · rw [hp] at hr
    cases hr

theorem Placed.holds (h : Placed w c c2) (e : Extends pins extra c1 c2) (hr : c1.HoldsConstant r) : w.Holds r := by
  obtain ⟨x, hx, rfl⟩ := hr
  exact ⟨x, h.known x (e.mem_hoisted hx), rfl⟩

/-- The value stays where it is until it is released. -/
theorem Ready.steady (h : Ready w K c c2 m) (s1 : Step σ ids c c1) (e : Extends pins extra c1 c2)
    (hp : Borrowed K c c1 p) : ¬ c1.Free p.1 ∧ ¬ w.lent p.1 := by
  rcases hp with ⟨ht, -⟩ | ⟨-, hs | ⟨v, hv⟩⟩
  · exact ⟨ht.taken, fun hl => (h.lent p.1 hl).1 ht.free⟩
  · have hconst := hs.holdsConstant
    exact ⟨fun hf => s1.good.not_holdsConstant hf hconst, fun hl => (h.lent p.1 hl).2 (h.holds e hconst)⟩
  · obtain ⟨hf, hl, -⟩ := h.held _ hv
    exact ⟨s1.not_free hf, hl⟩

theorem Ready.apart (h : Ready w K c c2 m) (e : Extends pins extra c1 c2) (hp : Borrowed K c c1 p) (hr : ¬ c.Free r)
    (havoid : w.Avoids K r) : p.1 ≠ r := by
  rintro rfl
  rcases hp with ⟨ht, -⟩ | ⟨-, hs | ⟨v, hv⟩⟩
  · exact hr ht.free
  · exact havoid.constant (h.holds e hs.holdsConstant)
  · exact havoid.held _ hv rfl

end

/-! ## What code can do -/

section

variable (σ : Scope) (K : Known) (ids : List Identity)

/-- The step loads a value into the given register. -/
def Loads (g : Int → Gen Unit) (d : Reading) : Prop :=
  ∀ ⦃c c' reg⦄, (g reg).Makes c () c' → c.Good σ → c.Open reg → Unused ids c →
    Step σ ids c c' ∧ ∀ w : World σ, w.Avoids K reg → Yields w K (· = reg) c c' d reg

/-- The step computes a value, into the given register if it is not in another one already. -/
def Targets (g : Int → Gen Int) (d : Reading) : Prop :=
  ∀ ⦃c c' reg r⦄, (g reg).Makes c r c' → c.Good σ → c.Open reg → Unused ids c → Step σ ids c c' ∧ Found c c' reg r ∧
      ∀ w : World σ, w.Avoids K reg → Yields w K (· = reg) c c' d r

/-- The step computes a value into some register. -/
def Temps (g : Gen (Int × Option Int)) (d : Reading) : Prop :=
  ∀ ⦃c c' p⦄, g.Makes c p c' → c.Good σ → Unused ids c →
    Step σ ids c c' ∧ Borrowed K c c' p ∧ ∀ w : World σ, Yields w K nowhere c c' d p.1

/-- The step computes a field of a row value, which is compared as `x`, into some register. -/
def Fields (g : Gen (Int × Expr × Option Int)) (x : Expr) (d : Reading) : Prop :=
  ∀ ⦃c c' r y free⦄, g.Makes c (r, y, free) c' → c.Good σ → Unused ids c →
    Step σ ids c c' ∧ Borrowed K c c' (r, free) ∧ y.TypedAlike x ∧ ∀ w : World σ, Yields w K nowhere c c' d r

/-- The step jumps to the label or goes on. -/
def Jumps (g : Label → Gen Unit) (d : Env → Option Bool) : Prop :=
  ∀ ⦃c c' l⦄, (g l).Makes c () c' → c.Good σ → c.Made l →
    Unused ids c → Step σ ids c c' ∧ ∀ w : World σ, Branches w K c c' d l

end

structure Code.Realizes (σ : Scope) (K : Known) (code : Code) (d : Reading) : Prop where
  constant : code.expr.isConstant .notJoin = true → code.expr.Plain σ ∧ d = code.expr.meaning.value
  target : Targets σ K code.expr.identities code.target d
  temp : Temps σ K code.expr.identities code.temp d

/-- The fields of a row value can be computed into some registers, or they stand in registers from the
base on. -/
def Coded.FieldsFrom (σ : Scope) (K : Known) (code : Coded) (μ : Meaning) (base : Int) : Prop :=
  ∀ i < code.expr.vectorSize, Fields σ K ((code.expr.fieldIdentities[i]?).getD []) (rowField code i base)
    (μ.expr.vectorField i) (μ.field i)

/-- The code can serve as an operand of a comparison. -/
structure Coded.Computes (σ : Scope) (K : Known) (code : Coded) (μ : Meaning) : Prop where
  alike : code.expr.Alike μ.expr
  temp : Temps σ K code.expr.identities code.temp μ.value
  /-- The nodes below a row value are those below its fields. -/
  split : code.expr.isVector = true → code.expr.identities = code.expr.fieldIdentities.flatten
  base : code.expr.isVector = true → rowBase code = pure 0
  field : code.expr.isVector = true → code.FieldsFrom σ K μ 0

/-- The code can do all that the meaning says. -/
structure Coded.Realizes (σ : Scope) (K : Known) (code : Coded) (μ : Meaning) : Prop where
  alike : code.expr.Alike μ.expr
  literal : code.expr.SameLiteral μ.expr
  value : code.toCode.Realizes σ K μ.value
  nonempty : code.expr.vectorSize ≠ 0
  vector : code.expr.isVector = true → ∃ info items, code.expr = .node info (.vector items) ∧
    code.fields.map (·.expr) = items.map (·.expr)
  fields : List.Forall₂ (Code.Realizes σ K) code.fields μ.fields
  jump : ∀ wanted jumpIfNull, Jumps σ K code.expr.identities
    (fun l => code.jump wanted l jumpIfNull) (μ.jump wanted jumpIfNull)
  /-- A branch can be taken, with AND and OR with a literal reduced. -/
  branch : ∀ wanted jumpIfNull, Jumps σ K code.expr.identities
    (fun l => code.branch wanted l jumpIfNull) (μ.branch wanted jumpIfNull)

section

variable {σ : Scope} {K : Known} {ids : List Identity} {d : Reading} {code : Code}
  {g : Gen (Int × Option Int)} {c c1 : Compiler}

theorem Targets.of_loads {g : Int → Gen Unit} (h : Loads σ K ids g d) :
    Targets σ K ids (fun reg => do g reg; return reg) d := by
  intro c c' reg r hmakes hc hreg hids
  simp only [makes_bind, makes_pure] at hmakes
  obtain ⟨⟨⟩, c1, hg, rfl, rfl⟩ := hmakes
  obtain ⟨hstep, hrun⟩ := h hg hc hreg hids
  exact ⟨hstep, .inl rfl, hrun⟩

theorem hoist_yields {e : Expr} {r : Int} (h : (hoist e none).Makes c r c1) (hc : c.Good σ)
    (hhoisting : c.hoisting) (hconst : e.isConstant .notJoin) (hplain : e.Plain σ) (hids : Unused e.identities c) :
    Step σ e.identities c c1 ∧ c1.builder = c.builder ∧ c1.HoldsShared r ∧
      ∀ (w : World σ) T, Yields w K T c c1 e.meaning.value r := by
  obtain ⟨hstep, hb, x, hx, hshared, rfl, hmatch⟩ := hoist_none_spec h hc hhoisting hconst hplain hids
  refine ⟨hstep, hb, ⟨x, hx, hshared, rfl⟩, fun w T m ready => ?_⟩
  have hvalue := ready.constants x (ready.known x hx)
  have hsame : e.meaning.value w.env = x.expr.meaning.value w.env := by
    rcases hmatch with rfl | hmatch
    · rfl
    · have hfixed : x.expr.Fixed σ := ⟨(hstep.good.constant x hx).2, (hstep.good.constant x hx).1⟩
      exact (Expr.same_of_matches w.caseBlind x.expr e hfixed ⟨hplain, hconst⟩ hmatch).1.value.symm
  exact .done (by simp [size, hb]) (hsame.trans hvalue) rfl rfl

/-- A value can be computed into some register if it can be computed into a wanted one: a constant is
set aside, any other value gets a register for a short time. -/
theorem Temps.of_targets {e : Expr} {target : Int → Gen Int} (hreg : isRegister e = false)
    (hconst : e.isConstant .notJoin → e.Plain σ ∧ d = e.meaning.value) (ht : Targets σ K e.identities target d) :
    Temps σ K e.identities (tempOf e target) d := by
  intro c c' p hmakes hc hids
  simp only [tempOf, hreg, Bool.not_false, Bool.true_and, makes_bind, makes_hoists] at hmakes
  obtain ⟨b, _, ⟨rfl, rfl⟩, hmakes⟩ := hmakes
  split at hmakes
  · rename_i hhoists
    simp only [Bool.and_eq_true] at hhoists
    obtain ⟨hplain, rfl⟩ := hconst hhoists.2
    simp only [makes_bind, makes_pure] at hmakes
    obtain ⟨r, c1, hhoist, rfl, rfl⟩ := hmakes
    obtain ⟨hstep, -, hshared, hrun⟩ := hoist_yields (K := K) hhoist hc hhoists.1 hhoists.2 hplain hids
    exact ⟨hstep, .inr ⟨rfl, .inl hshared⟩, fun w => hrun w _⟩
  · simp only [makes_bind] at hmakes
    obtain ⟨temp, c1, htemp, reg, c2, htarget, hmakes⟩ := hmakes
    obtain ⟨s1, htaken⟩ := getTemp_spec htemp hc
    obtain ⟨s2, hfound, hrun⟩ := ht htarget s1.good htaken.isOpen (hids.step s1)
    have hsize : c1.size = c.size := by rw [size, getTemp_builder htemp, size]
    split at hmakes
    · rename_i heq
      subst heq
      obtain ⟨rfl, rfl⟩ := hmakes
      refine ⟨s1.trans s2, .inl ⟨htaken.trans s2, rfl⟩, fun w m ready => ?_⟩
      have hinto := ready.silent s1 s2.grows hsize (hrun w (ready.avoids htaken s2.grows) m)
      refine hinto.mono fun r hr => .inr ?_
      rw [hr]
      exact ready.scratch htaken s2.grows
    · rename_i hne
      simp only [makes_bind, makes_pure] at hmakes
      obtain ⟨⟨⟩, c3, hrelease, rfl, rfl⟩ := hmakes
      obtain ⟨hshared, hb⟩ := hfound.resolve_left hne
      have hextends {extra : Int → Prop} : Extends nowhere extra c2 c3 := releaseTemp_extends hrelease
      have hkept : c3.HoldsShared reg := (hextends : Extends _ nowhere c2 c3).holdsShared hshared
      have hsize2 : c2.size = c1.size := by rw [size, hb, size]
      have hsize3 : c3.size = c2.size := by rw [size, releaseTemp_builder hrelease, size]
      refine ⟨releaseTemp_step (s1.trans s2) (htaken.trans s2) hrelease, .inr ⟨rfl, .inl hkept⟩, fun w m ready => ?_⟩
      have hgrows : Extends nowhere c1.Free c1 c3 := s2.grows.trans hextends fun _ _ h => h
      refine ready.silent s1 hgrows hsize fun ready1 => ?_
      have ready2 := ready1.first s2 hextends (.inl hsize2)
      obtain ⟨v, hv, hreg⟩ := (hrun w (ready.avoids htaken hgrows) m ready2).of_silent hsize2
      exact .done (hsize3.trans hsize2) hv rfl hreg

/-- A value can be loaded into a register if it can be computed into a wanted one: what is elsewhere
is copied. -/
theorem Loads.of_targets {g : Int → Gen Int} {op : Opcode} (hop : op = .copyOne ∨ op = .copy)
    (h : Targets σ K ids g d) :
    Loads σ K ids (fun reg => do
      let found ← g reg
      if found ≠ reg then emit (.of op found reg)) d := by
  intro c c' reg hmakes hc hreg hids
  simp only [makes_bind] at hmakes
  obtain ⟨found, c1, hg, hmakes⟩ := hmakes
  obtain ⟨s1, hfound, hrun⟩ := h hg hc hreg hids
  split at hmakes
  · rename_i hne
    obtain ⟨hshared, -⟩ := hfound.resolve_left hne
    obtain ⟨s2, e2⟩ := emitCopy_spec hop hmakes s1.good (fun _ => .inl hshared) (hreg.step s1)
    refine ⟨(s1.trans s2).mono (by simp), fun w havoid m ready => ?_⟩
    have hholds : w.Holds found := ready.holds s2.grows hshared.holdsConstant
    have hsteady : ¬ c1.Free found := fun hf => s1.good.not_holdsConstant hf hshared.holdsConstant
    refine ready.bindValue s1 s2.continues (hrun w havoid) havoid.only hsteady
      (fun hl => (ready.lent _ hl).2 hholds) id fun v hv m1 ready1 => ?_
    have hvalue : d w.env = some (m1.register found) := by
      rw [hv, (ready1.held _ List.mem_cons_self).2.2]
    exact ready1.emitCopy hop s2 e2 hreg.nonneg hvalue
  · rename_i heq
    simp only [makes_pure, true_and] at hmakes
    subst hmakes
    have heq : found = reg := by simpa using heq
    subst heq
    exact ⟨s1, hrun⟩

theorem Code.Realizes.exact (h : code.Realizes σ K d) : Loads σ K code.expr.identities code.exact d := by
  obtain ⟨op, hop, hexact⟩ : ∃ op : Opcode, (op = .copyOne ∨ op = .copy) ∧ code.exact = (fun reg => do
        let found ← code.target reg
        if found ≠ reg then emit (.of op found reg)) := by
    unfold Code.exact
    cases code.expr.kind with
    | collate => exact ⟨.copy, .inr rfl, rfl⟩
    | _ => exact ⟨.copyOne, .inl rfl, rfl⟩
  rw [hexact]
  exact .of_targets hop h.target

/-! ## Using values -/

theorem Ready.bindTemp {α : Type} {w : World σ} {T : Int → Prop} {c2 : Compiler} {m : Machine} {p : Int × Option Int}
    {d1 : Reading} {d : Env → Option α} {goes : α → Option Label} {holds : α → Machine → Prop}
    (h : Ready w K c c2 m) (s1 : Step σ ids c c1) (k : Continues c1 c2) (hp : Borrowed K c c1 p)
    (h1 : Yields w K nowhere c c1 d1 p.1) (hnone : d1 w.env = none → d w.env = none)
    (hnext : ∀ v, d1 w.env = some v → Runs w ((p.1, v) :: K) T c1 c2 d goes holds) :
    RunsFrom w T c c2 d goes holds m := by
  obtain ⟨hfree, hlent⟩ := h.steady s1 k.grows hp
  exact h.bindValue s1 k h1 (fun _ hf => hf.elim) hfree hlent hnone hnext

/-! ## Branches -/

theorem Jumps.always : Jumps σ K ids goto fun _ => some true := by
  intro c c' l hmakes hc hl hids
  obtain ⟨s, e⟩ := emitJump_spec hmakes hc (by simp) hl
  exact ⟨s.mono (by simp), fun w m ready => ready.emitGoto e rfl rfl trivial⟩

theorem Jumps.never : Jumps σ K ids (fun _ => pure ()) fun _ => some false := by
  intro c c' l hmakes hc hl hids
  obtain ⟨-, rfl⟩ := makes_pure.1 hmakes
  exact ⟨(Step.refl hc).mono (by simp), fun w m ready => .done rfl rfl rfl trivial⟩

theorem Jumps.ofTest (h : Temps σ K ids g d) {i : Int → Instr} {test : Value → Bool} (hop : ∀ r, (i r).opcode ≠ .copy)
    (hstep : ∀ r l a m, (({ i r with p2 := l } : Instr).step a).outcome m = (.ok (.jumpIf (test (m.register r))), m)) :
    Jumps σ K ids (fun l => do
      let p ← g
      emitJump (i p.1) l
      release p.2) fun env => (d env).map test := by
  intro c c' l hmakes hc hl hids
  simp only [makes_bind] at hmakes
  obtain ⟨p, c1, hg, ⟨⟩, c2, hemit, hrelease⟩ := hmakes
  obtain ⟨s1, hp, hrun⟩ := h hg hc hids
  obtain ⟨s2, e2⟩ := emitJump_spec hemit s1.good (hop p.1) (s1.made hl)
  refine ⟨release_step ((s1.trans s2).mono (by simp)) (hp.lends.trans s2) hrelease, fun w m ready => ?_⟩
  have hcontinues : Continues c1 c' := s2.continues.extend (by rw [e2.size]; omega) fun _ =>
    release_extends hrelease
  refine ready.bindTemp s1 hcontinues hp (hrun w) (by simp +contextual) fun v hv m1 ready1 => ?_
  have hvalue := (ready1.held _ List.mem_cons_self).2.2
  refine ready1.emitBranch (e2.of_builder (release_builder hrelease)) (hop p.1)
    (hstep p.1 _ _ m1) rfl (by rw [hv]; rfl) ?_ trivial (.refl w _ _ _ m1)
  rw [hvalue]

theorem Jumps.ofTruth (h : Temps σ K ids g d) (wanted jumpIfNull : Bool) : Jumps σ K ids (fun l => do
      let p ← g
      emitJump (.of (if wanted then .ifTrue else .ifFalse) p.1 0 (if jumpIfNull then 1 else 0)) l
      release p.2) fun env => (d env).map fun v => takes wanted jumpIfNull v.truth := by
  refine .ofTest h (i := fun r => .of (if wanted then .ifTrue else .ifFalse) r 0
    (if jumpIfNull then 1 else 0)) (fun r => by cases wanted <;> simp) fun r l a m => ?_
  have hbranches (i : Instr) (hi : i.p3 = if jumpIfNull then 1 else 0) (v : Value) :
      i.branches wanted v = takes wanted jumpIfNull v.truth := by
    unfold Instr.branches takes
    rw [hi]
    cases v.truth <;> cases jumpIfNull <;> rfl
  cases wanted
  · rw [Instr.step_ifFalse rfl, hbranches _ rfl]
    rfl
  · rw [Instr.step_ifTrue rfl, hbranches _ rfl]
    rfl

/-- A branch on the truth of a value; that of a literal is not computed. -/
theorem Jumps.onTruth {e x : Expr} (hlit : e.SameLiteral x) (h : Temps σ K ids g d) (wanted jumpIfNull : Bool) :
    Jumps σ K ids (fun l => jumpOnTruth e g wanted l jumpIfNull) (Meaning.onTruth x d wanted jumpIfNull) := by
  have hjump := Jumps.ofTruth h wanted jumpIfNull
  unfold jumpOnTruth Meaning.onTruth
  rw [hlit.alwaysTrue, hlit.alwaysFalse]
  cases wanted <;> cases x.isAlwaysTrue <;> cases x.isAlwaysFalse <;>
    first
    | exact .always
    | exact .never
    | exact hjump

/-! ## Ways of building code -/

theorem Targets.checked {e : Expr} {body : Int → Gen Int} (h : Targets σ K ids body d) :
    Targets σ K ids (fun reg => do checkHeight e; body reg) d := by
  intro c c' reg r hmakes hc hreg hids
  simp only [makes_bind] at hmakes
  obtain ⟨_, _, hcheck, hmakes⟩ := hmakes
  cases makes_checkHeight hcheck
  exact h hmakes hc hreg hids

theorem Jumps.checked {e : Expr} {jump : Label → Gen Unit} {d : Env → Option Bool}
    (h : Jumps σ K ids jump d) : Jumps σ K ids (fun l => do checkHeight e; jump l) d := by
  intro c c' l hmakes hc hl hids
  simp only [makes_bind] at hmakes
  obtain ⟨_, _, hcheck, hmakes⟩ := hmakes
  cases makes_checkHeight hcheck
  exact h hmakes hc hl hids

/-- The node has a single value `d` and is compared as `x`; `ids` are the identities below it. -/
structure Expr.Stands (σ : Scope) (e x : Expr) (ids : List Identity) (d : Reading) : Prop where
  alike : e.Alike x
  literal : e.SameLiteral x
  single : e.vectorSize = 1
  register : isRegister e = false
  identities : e.identities = ids
  constant : e.isConstant .notJoin = true → e.Plain σ ∧ d = e.meaning.value

variable {e x : Expr} {body : Int → Gen Int}

theorem Code.realizes_of (he : e.Stands σ x ids d) (h : Targets σ K ids body d) : (Code.of e body).Realizes σ K d := by
  rw [← he.identities] at h
  exact ⟨he.constant, h.checked, .of_targets he.register he.constant h.checked⟩

section

variable (he : code.expr.Stands σ x ids d) (hcode : code.Realizes σ K d)

include he hcode

theorem Coded.realizes_ofJump {jump : Bool → Label → Bool → Gen Unit} {jumps : Bool → Bool → Env → Option Bool}
    (hjump : ∀ wanted jumpIfNull, Jumps σ K ids (fun l => jump wanted l jumpIfNull) (jumps wanted jumpIfNull)) :
    (ofJump code jump).Realizes σ K (.ofJump x d jumps) := by
  rw [← he.identities] at hjump
  exact
    { alike := he.alike
      literal := he.literal
      value := hcode
      nonempty := by
        rw [show (ofJump code jump).expr = code.expr from rfl, he.single]
        decide
      vector := fun hv => by
        rw [show (ofJump code jump).expr = code.expr from rfl, Expr.isVector, he.single] at hv
        cases hv
      fields := .nil
      jump := hjump
      branch := fun wanted jumpIfNull => (hjump wanted jumpIfNull).checked }

theorem Coded.realizes_ofCode : (ofCode code).Realizes σ K (.ofValue x d) :=
  realizes_ofJump he hcode (Jumps.onTruth he.literal (he.identities ▸ hcode.temp))

end

theorem Coded.realizes_of (he : e.Stands σ x ids d) (h : Targets σ K ids body d) :
    (of e body).Realizes σ K (.ofValue x d) :=
  realizes_ofCode he (Code.realizes_of he h)

theorem Coded.realizes_load {body : Int → Gen Unit} (he : e.Stands σ x ids d)
    (h : Loads σ K ids body d) : (load e body).Realizes σ K (.ofValue x d) :=
  realizes_of he (.of_loads h)

/-! ## What more is held -/

section

variable {K' : Known} (hK : ∀ p ∈ K, p ∈ K') {w : World σ} {c c' : Compiler}
include hK

theorem World.Avoids.forget {r : Int} (h : w.Avoids K' r) : w.Avoids K r :=
  ⟨h.constant, h.lent, fun p hp => h.held p (hK p hp)⟩

theorem Borrowed.mono {p : Int × Option Int} (h : Borrowed K c c' p) : Borrowed K' c c' p :=
  h.imp_right fun ⟨hnone, hp⟩ => ⟨hnone, hp.imp_right fun ⟨v, hv⟩ => ⟨v, hK _ hv⟩⟩

theorem Runs.hold {α : Type} {T : Int → Prop} {d : Env → Option α} {goes : α → Option Label}
    {holds : α → Machine → Prop} (h : Runs w K T c c' d goes holds) : Runs w K' T c c' d goes holds :=
  fun m ready => h m (ready.forget hK)

theorem Loads.hold {g : Int → Gen Unit} (h : Loads σ K ids g d) : Loads σ K' ids g d := by
  intro c c' reg hmakes hc hreg hids
  obtain ⟨s, hrun⟩ := h hmakes hc hreg hids
  exact ⟨s, fun w havoid => (hrun w (havoid.forget hK)).hold hK⟩

theorem Targets.hold {g : Int → Gen Int} (h : Targets σ K ids g d) : Targets σ K' ids g d := by
  intro c c' reg r hmakes hc hreg hids
  obtain ⟨s, hfound, hrun⟩ := h hmakes hc hreg hids
  exact ⟨s, hfound, fun w havoid => (hrun w (havoid.forget hK)).hold hK⟩

theorem Temps.hold (h : Temps σ K ids g d) : Temps σ K' ids g d := by
  intro c c' p hmakes hc hids
  obtain ⟨s, hp, hrun⟩ := h hmakes hc hids
  exact ⟨s, hp.mono hK, fun w => (hrun w).hold hK⟩

theorem Jumps.hold {g : Label → Gen Unit} {d : Env → Option Bool} (h : Jumps σ K ids g d) : Jumps σ K' ids g d := by
  intro c c' l hmakes hc hl hids
  obtain ⟨s, hrun⟩ := h hmakes hc hl hids
  exact ⟨s, fun w => (hrun w).hold hK⟩

theorem Code.Realizes.hold (h : code.Realizes σ K d) : code.Realizes σ K' d :=
  ⟨h.constant, h.target.hold hK, h.temp.hold hK⟩

theorem Coded.Realizes.hold {code : Coded} {μ : Meaning} (h : code.Realizes σ K μ) : code.Realizes σ K' μ :=
  ⟨h.alike, h.literal, h.value.hold hK, h.nonempty, h.vector, h.fields.imp fun _ _ hf => hf.hold hK,
    fun w j => (h.jump w j).hold hK, fun w j => (h.branch w j).hold hK⟩

end

end

end ScalarSql
