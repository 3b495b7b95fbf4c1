import ScalarSql.Proofs.Code.Rules

/-!
# What follows the rules keeps to the registers that it may use

An `Access` says which registers code may read and which it may write: given ones, and those that are taken while the
code is made. `Compiler.Abides` says of a compilation that its code keeps to an access, and that it holds no register
that code made later could not use. `Gen.Uses` says of a step that it keeps this, and what it returns. What follows the
rules on terms that suit the access does so (`Gen.Follows.uses`).

A fact about registers that holds at some state holds at every later one (`Compiler.Precedes`), since registers are
never given back and instructions keep their opcodes.
-/

namespace ScalarSql

open Builder Instr

variable {A : Access} {c : Compiler}

/-! ## Registers that may be used -/

/-- The registers that code may use, from an address on. -/
structure Access where
  /-- What identities and the own row stand for. -/
  allotment : Allotment
  reads : Int → Prop
  writes : Int → Prop
  /-- Registers above this one may be used once they are taken. -/
  top : Int
  /-- The address from which on code keeps to this. -/
  first : Nat
  reads_of_writes : ∀ r, writes r → reads r
  /-- Register zero, which is never taken, may be named by an instruction whose register is not known yet. -/
  reads_zero : reads 0
  writes_nonneg : ∀ r, writes r → 0 ≤ r
  top_nonneg : 0 ≤ top

/-- Whether `p2` may be given a new address. -/
def Instr.patchable (i : Instr) : Bool := i.canJump || i.opcode == .noop

/-- The second instruction may come to stand in the place of the first one: one that runs once may be removed, all
others keep their opcodes and flags. -/
def Instr.Becomes (i j : Instr) : Prop :=
  j.opcode = i.opcode ∧ j.p5 = i.p5 ∨ (i.opcode = .once ∨ i.opcode = .noop) ∧ j.opcode = .noop

namespace Instr

variable {i j k : Instr}

theorem Becomes.refl (i : Instr) : i.Becomes i := .inl ⟨rfl, rfl⟩

theorem Becomes.trans (h : i.Becomes j) (h' : j.Becomes k) : i.Becomes k := by
  rcases h with ⟨ho, hp⟩ | ⟨ho, hn⟩
  · rcases h' with ⟨ho', hp'⟩ | ⟨ho', hn'⟩
    · exact .inl ⟨ho'.trans ho, hp'.trans hp⟩
    · rw [ho] at ho'
      exact .inr ⟨ho', hn'⟩
  · rcases h' with ⟨ho', -⟩ | ⟨-, hn'⟩
    · exact .inr ⟨ho, ho'.trans hn⟩
    · exact .inr ⟨ho, hn'⟩

theorem Becomes.patchable (h : i.Becomes j) (hi : i.patchable) : j.patchable := by
  rcases h with ⟨ho, hp⟩ | ⟨-, hn⟩
  · rw [← hi]
    simp only [Instr.patchable, canJump, mode, ho, hp]
  · simp [Instr.patchable, hn]

end Instr

namespace Compiler

/-- What stays true of the registers and instructions of a compilation as it goes on. -/
structure Precedes (c c' : Compiler) : Prop where
  highest : c.highest ≤ c'.highest
  ops : ∀ (n : Nat) i, c.builder.ops[n]? = some i → ∃ j, c'.builder.ops[n]? = some j ∧ i.Becomes j

variable {c c1 c' : Compiler}

theorem Precedes.refl (c : Compiler) : c.Precedes c := ⟨Int.le_refl _, fun _ i hi => ⟨i, hi, .refl i⟩⟩

theorem Precedes.trans (h : c.Precedes c1) (h' : c1.Precedes c') : c.Precedes c' := by
  refine ⟨Int.le_trans h.highest h'.highest, fun n i hi => ?_⟩
  obtain ⟨j, hj, hij⟩ := h.ops n i hi
  obtain ⟨k, hk, hjk⟩ := h'.ops n j hj
  exact ⟨k, hk, hij.trans hjk⟩

theorem Precedes.of_builder (hbuilder : c'.builder = c.builder) (h : c.highest ≤ c'.highest) : c.Precedes c' := by
  refine ⟨h, fun n i hi => ⟨i, ?_, .refl i⟩⟩
  rw [hbuilder]
  exact hi

/-- At the address stands an instruction of the opcode; one that runs once may have been removed. -/
def At (c : Compiler) (a : Int) (o : Opcode) : Prop :=
  ∃ (n : Nat) (i : Instr), a = n ∧ c.builder.ops[n]? = some i ∧ (i.opcode = o ∨ o = .once ∧ i.opcode = .noop)

theorem At.mono {a : Int} {o : Opcode} (h : c.At a o) (hc : c.Precedes c') : c'.At a o := by
  obtain ⟨n, i, rfl, hi, ho⟩ := h
  obtain ⟨j, hj, hij⟩ := hc.ops n i hi
  refine ⟨n, j, rfl, hj, ?_⟩
  rcases hij with ⟨hopcode, -⟩ | ⟨hremoved, hnoop⟩
  · rw [hopcode]
    exact ho
  · rcases ho with rfl | ⟨rfl, -⟩
    · rcases hremoved with honce | hnoop'
      · exact .inr ⟨honce, hnoop⟩
      · exact .inl (hnoop.trans hnoop'.symm)
    · exact .inr ⟨rfl, hnoop⟩

/-- The registers that the compilation holds are among the given ones. -/
structure Refers (ν : Allotment) (R : Int → Prop) (c : Compiler) : Prop where
  hoisted : ∀ h ∈ c.hoisted.toList, R h.reg ∧ h.expr.Allotted ν R
  routines : ∀ q ∈ c.routines, R q.2.ret ∧ ∀ k < ν.width q.1, R (q.2.result + (k : Nat))
  shared : ∀ q ∈ c.sharedResults, ∀ k < ν.shared q.1, R (q.2 + (k : Nat))
  windows : ∀ q ∈ c.windowResults, R q.2
  aggColumns : ∀ r ∈ c.aggColumns, R r
  aggCalls : ∀ r ∈ c.aggCalls, R r
  ownRow : c.ownRow = ν.ownRow

theorem Refers.mono {ν : Allotment} {R S : Int → Prop} (h : c.Refers ν R) (hR : ∀ r, R r → S r) : c.Refers ν S where
  hoisted x hx := ⟨hR _ (h.hoisted x hx).1, (h.hoisted x hx).2.mono hR⟩
  routines q hq := ⟨hR _ (h.routines q hq).1, fun k hk => hR _ ((h.routines q hq).2 k hk)⟩
  shared q hq k hk := hR _ (h.shared q hq k hk)
  windows q hq := hR _ (h.windows q hq)
  aggColumns r hr := hR _ (h.aggColumns r hr)
  aggCalls r hr := hR _ (h.aggCalls r hr)
  ownRow := h.ownRow

end Compiler

namespace Access

variable {A : Access} {c c' : Compiler} {r first : Int} {n : Nat} {i : Instr} {source target : Int}

def Reads (A : Access) (c : Compiler) (r : Int) : Prop := A.reads r ∨ A.top < r ∧ r ≤ c.highest

def Writes (A : Access) (c : Compiler) (r : Int) : Prop := A.writes r ∨ A.top < r ∧ r ≤ c.highest

def Allows (A : Access) (c : Compiler) (i : Instr) : Prop := i.Within (A.Reads c) (A.Writes c)

theorem Writes.reads (h : A.Writes c r) : A.Reads c r := h.imp_left (A.reads_of_writes r)

theorem Writes.nonneg (h : A.Writes c r) : 0 ≤ r := by
  have := A.top_nonneg
  rcases h with h | ⟨h, -⟩
  · exact A.writes_nonneg r h
  · omega

theorem Reads.mono (h : A.Reads c r) (hc : c.Precedes c') : A.Reads c' r :=
  h.imp_right fun h => ⟨h.1, Int.le_trans h.2 hc.highest⟩

theorem Writes.mono (h : A.Writes c r) (hc : c.Precedes c') : A.Writes c' r :=
  h.imp_right fun h => ⟨h.1, Int.le_trans h.2 hc.highest⟩

theorem Allows.none (hread : i.read = []) (hwritten : i.written = []) : A.Allows c i := by
  refine ⟨?_, ?_⟩
  · rw [hread]
    exact List.forall_mem_nil _
  · rw [hwritten]
    exact List.forall_mem_nil _

theorem Allows.raise (h : A.Allows c i) (hle : c.highest ≤ c'.highest) : A.Allows c' i :=
  h.mono (fun _ => .imp_right fun h => ⟨h.1, Int.le_trans h.2 hle⟩)
    fun _ => .imp_right fun h => ⟨h.1, Int.le_trans h.2 hle⟩

theorem Allows.patch (h : A.Allows c i) (hi : i.patchable) (x : Int) : A.Allows c { i with p2 := x } := by
  have hread : ({ i with p2 := x } : Instr).read = i.read := by
    obtain ⟨opcode, p1, p2, p3, p4, p5⟩ := i
    cases opcode <;> first | rfl | cases hi
  have hwritten : ({ i with p2 := x } : Instr).written = i.written := by
    obtain ⟨opcode, p1, p2, p3, p4, p5⟩ := i
    cases opcode with
    | eq | ne | lt | le | gt | ge =>
      have hstore : CompareMode.store (.ofBits p5) = false := by
        simpa [patchable, canJump, mode, Opcode.jumps, Opcode.isComparison] using hi
      simp [written, mode, hstore]
    | _ => first | rfl | cases hi
  exact ⟨hread ▸ h.read, hwritten ▸ h.written⟩

theorem Allows.copy (m : ListMode) (hs : A.Reads c source) (ht : A.Writes c target) :
    A.Allows c (.of m.copyOpcode source target) := by
  unfold ListMode.copyOpcode
  split
  · refine ⟨?_, ?_⟩
    · simpa [Instr.read, registerRow] using hs
    · simpa [Instr.written, registerRow, Opcode.inPlace] using ht
  · exact ⟨List.forall_mem_singleton.2 hs, List.forall_mem_singleton.2 ht⟩

theorem Allows.widen {p1 p2 p3 : Int} {p4 : Operand} {p5 : UInt16} (h : A.Allows c ⟨.copy, p1, p2, p3, p4, p5⟩)
    (hsource : p1 + p3 + 1 = source) (htarget : p2 + p3 + 1 = target) (hs : A.Reads c source) (ht : A.Writes c target) :
    A.Allows c ⟨.copy, p1, p2, p3 + 1, p4, p5⟩ := by
  refine ⟨fun r hr => ?_, fun r hr => ?_⟩
  · obtain ⟨k, hk, rfl⟩ := mem_registerRow.1 hr
    have hk : k < (p3 + 1).toNat + 1 := hk
    rcases Nat.lt_or_ge k (p3.toNat + 1) with hlt | hge
    · exact h.read _ (mem_registerRow.2 ⟨k, hlt, rfl⟩)
    · show A.Reads c (p1 + k)
      rwa [show p1 + (k : Int) = source by omega]
  · obtain ⟨k, hk, rfl⟩ := mem_registerRow.1 hr
    have hk : k < (p3 + 1).toNat + 1 := hk
    rcases Nat.lt_or_ge k (p3.toNat + 1) with hlt | hge
    · exact h.written _ (mem_registerRow.2 ⟨k, hlt, rfl⟩)
    · show A.Writes c (p2 + k)
      rwa [show p2 + (k : Int) = target by omega]

end Access

/-- The code keeps to the access, and the compilation holds no register that later code could not use. -/
structure Compiler.Abides (A : Access) (c : Compiler) : Prop where
  top_le : A.top ≤ c.highest
  code : ∀ (n : Nat) i, A.first ≤ n → c.builder.ops[n]? = some i → A.Allows c i
  waits : ∀ w ∈ c.builder.fixups, A.first ≤ w.1 → ∃ i, c.builder.ops[w.1]? = some i ∧ i.patchable = true
  pool : ∀ r, c.Pooled r → A.Writes c r
  /-- Registers that hold something may be read. -/
  refers : c.Refers A.allotment (A.Reads c)

namespace Compiler.Abides

variable {A : Access} {c c' : Compiler}

variable (h : c.Abides A)

include h

theorem update (hbuilder : c'.builder = c.builder) (hle : c.highest ≤ c'.highest)
    (hpool : ∀ r, c'.Pooled r → A.Writes c' r) (hrefers : c'.Refers A.allotment (A.Reads c')) : c'.Abides A := by
  refine ⟨Int.le_trans h.top_le hle, ?_, ?_, hpool, hrefers⟩
  · rw [hbuilder]
    exact fun n i hn hi => (h.code n i hn hi).raise hle
  · rw [hbuilder]
    exact h.waits

theorem push {k : Hoisted} (hreg : A.Reads c k.reg) (hexpr : k.expr.Allotted A.allotment (A.Reads c)) :
    { c with hoisted := c.hoisted.push k }.Abides A := by
  refine h.update rfl (Int.le_refl _) h.pool { h.refers with hoisted := ?_ }
  rw [Array.toList_push]
  exact List.forall_mem_append.2 ⟨h.refers.hoisted, List.forall_mem_singleton.2 ⟨hreg, hexpr⟩⟩

theorem draw {back : Int → Prop} (hdraws : c.Draws back c') (hback : ∀ r, back r → A.Writes c r) :
    c'.Abides A ∧ c.Precedes c' := by
  have hle := hdraws.highest
  have hpooled := hdraws.pooled
  rw [hdraws.same] at hle hpooled ⊢
  refine ⟨h.update rfl hle (fun r hr => ?_) { h.refers.mono ?_ with }, .of_builder rfl hle⟩
  · exact ((hpooled r hr).elim (h.pool r) (hback r)).imp_right fun h => ⟨h.1, Int.le_trans h.2 hle⟩
  · exact fun r hr => hr.imp_right fun h => ⟨h.1, Int.le_trans h.2 hle⟩

theorem supply {r : Int} (hr : c.Supplies c' r) (hle : c.Precedes c') : A.Writes c' r := by
  rcases hr with hpooled | ⟨hlt, hr⟩
  · exact (h.pool r hpooled).mono hle
  · exact .inr ⟨Int.lt_of_le_of_lt h.top_le hlt, hr⟩

theorem rebuild {b : Builder} (hcode : ∀ (n : Nat) i, A.first ≤ n → b.ops[n]? = some i → A.Allows c i)
    (hwaits : ∀ w ∈ b.fixups, A.first ≤ w.1 → ∃ i, b.ops[w.1]? = some i ∧ i.patchable) :
    { c with builder := b }.Abides A :=
  { h with
    code n i hn hi := (hcode n i hn hi).raise (Int.le_refl _)
    waits := hwaits
    refers := { h.refers with } }

end Compiler.Abides

namespace Gen

variable {α β : Type} {A : Access} {c c' : Compiler} {g : Gen α} {f : α → Gen β} {Q Q' : α → Compiler → Prop}
  {S : β → Compiler → Prop} {i : Instr} {a r : Int} {o : Opcode}

/-- The step keeps to the access; `Q` says of the registers that it returns how they may be used. -/
def Uses (A : Access) (c : Compiler) (g : Gen α) (Q : α → Compiler → Prop) : Prop :=
  ∀ a c', g.Makes c a c' → c.Abides A → c'.Abides A ∧ c.Precedes c' ∧ Q a c'

def Any (_ : α) (_ : Compiler) : Prop := True

namespace Uses

variable {k : Instr → Instr} {n : Nat} {e : Expr}

/-! ## Ways of building a step -/

theorem bind (hg : Uses A c g Q) (hf : ∀ a c1, c.Precedes c1 → Q a c1 → Uses A c1 (f a) S) : Uses A c (g >>= f) S := by
  intro b c' hmake hc
  obtain ⟨a, c1, hfirst, hsecond⟩ := makes_bind.1 hmake
  obtain ⟨hc1, hle, hQ⟩ := hg a c1 hfirst hc
  obtain ⟨hc', hle', hS⟩ := hf a c1 hle hQ b c' hsecond hc1
  exact ⟨hc', hle.trans hle', hS⟩

theorem imp (hg : Uses A c g Q) (h : ∀ a c', c.Precedes c' → Q a c' → Q' a c') : Uses A c g Q' := by
  intro a c' hmake hc
  obtain ⟨hc', hle, hQ⟩ := hg a c' hmake hc
  exact ⟨hc', hle, h a c' hle hQ⟩

theorem pure {a : α} (h : Q a c) : Uses A c (pure a) Q := by
  intro b c' hmake hc
  obtain ⟨rfl, rfl⟩ := makes_pure.1 hmake
  exact ⟨hc, .refl c, h⟩

theorem throw (e : CompileError) : Uses A c (throw e : Gen α) Q := fun _ _ hmake _ => (makes_throw.1 hmake).elim

theorem withState {k : Compiler → Gen β} (hk : c.Abides A → Uses A c (k c) S) : Uses A c (get >>= k) S := by
  intro b c' hmake hc
  rw [makes_get_bind] at hmake
  exact hk hc b c' hmake hc

/-! ## Writing instructions -/

theorem emit (hi : A.Allows c i) : Uses A c (emit i) Any := by
  intro u c' hmake hc
  obtain rfl := makes_emit.1 hmake
  refine ⟨hc.rebuild (fun n x hn hx => ?_) fun w hw hfirst => ?_,
    ⟨Int.le_refl _, fun n x hx => ⟨x, ?_, .refl x⟩⟩, trivial⟩
  · rcases emit_getElem?.1 hx with hx | ⟨-, rfl⟩
    · exact hc.code n x hn hx
    · exact hi
  · obtain ⟨x, hx, hpatch⟩ := hc.waits w hw hfirst
    exact ⟨x, emit_getElem?.2 (.inl hx), hpatch⟩
  · exact emit_getElem?.2 (.inl hx)

theorem emitAt (hi : A.Allows c i) : Uses A c (emitAt i) fun a c' => c'.At a i.opcode := by
  intro a c' hmake hc
  obtain ⟨rfl, rfl⟩ := makes_emitAt.1 hmake
  obtain ⟨hc', hle, -⟩ := emit hi () _ (makes_emit.2 rfl) hc
  exact ⟨hc', hle, c.builder.ops.size, i, rfl, by simp [Builder.emit], .inl rfl⟩

theorem emitJump (l : Label) (hjump : i.canJump) (hi : A.Allows c i) : Uses A c (emitJump i l) Any := by
  have hpatch : i.patchable := by simp [Instr.patchable, hjump]
  intro u c' hmake hc
  obtain rfl := makes_emitJump.1 hmake
  cases haddress : c.builder.address? l with
  | some x =>
    rw [Builder.emitJump_of_address haddress]
    exact emit (hi.patch hpatch x) () _ (makes_emit.2 rfl) hc
  | none =>
    -- The jump waits, so the label is noted besides.
    obtain ⟨hc', hle, -⟩ := emit (hi.patch hpatch (-1)) () _ (makes_emit.2 rfl) hc
    rw [Builder.emitJump_of_none haddress]
    refine ⟨hc'.rebuild hc'.code (List.forall_mem_append.2 ⟨hc'.waits, List.forall_mem_singleton.2 fun _ => ?_⟩),
      ⟨hle.highest, hle.ops⟩, trivial⟩
    exact ⟨{ i with p2 := -1 }, by simp [Builder.emit], hpatch⟩

theorem label : Uses A c label Any := by
  intro l c' hmake hc
  obtain ⟨rfl, rfl⟩ := makes_label.1 hmake
  exact ⟨hc.rebuild hc.code hc.waits, ⟨Int.le_refl _, fun n i hi => ⟨i, hi, .refl i⟩⟩, trivial⟩

theorem withHere {k : Int → Gen β} (hk : Uses A c (k c.builder.here) S) : Uses A c (here >>= k) S := by
  intro b c' hmake hc
  simp only [makes_bind, makes_here] at hmake
  obtain ⟨_, _, ⟨rfl, rfl⟩, hmake⟩ := hmake
  exact hk b c' hmake hc

/-- Instructions are changed into ones that may come to stand in their place. -/
theorem ofBuilder {k : Builder → Builder} (hfixups : ∀ w ∈ (k c.builder).fixups, w ∈ c.builder.fixups)
    (hops : c.Abides A → ∀ n : Nat, (k c.builder).ops[n]? = c.builder.ops[n]? ∨
      ∃ i j, c.builder.ops[n]? = some i ∧ (k c.builder).ops[n]? = some j ∧ i.Becomes j ∧
      (A.first ≤ n → A.Allows c i → A.Allows c j)) : Uses A c (build k) Any := by
  intro u c' hmake hc
  obtain rfl := makes_build.1 hmake
  have hstays (n : Nat) (i : Instr) (hi : c.builder.ops[n]? = some i) :
      ∃ j, (k c.builder).ops[n]? = some j ∧ i.Becomes j := by
    rcases hops hc n with heq | ⟨x, j, hx, hj, hbecomes, -⟩
    · exact ⟨i, heq.trans hi, .refl i⟩
    · cases hx.symm.trans hi
      exact ⟨j, hj, hbecomes⟩
  refine ⟨hc.rebuild (fun n j hn hj => ?_) fun w hw hfirst => ?_, ⟨Int.le_refl _, hstays⟩, trivial⟩
  · rcases hops hc n with heq | ⟨i, x, hi, hx, -, hallows⟩
    · exact hc.code n j hn (heq.symm.trans hj)
    · cases hx.symm.trans hj
      exact hallows hn (hc.code n i hn hi)
  · obtain ⟨i, hi, hpatch⟩ := hc.waits w (hfixups w hw) hfirst
    obtain ⟨j, hj, hbecomes⟩ := hstays w.1 i hi
    exact ⟨j, hj, hbecomes.patchable hpatch⟩

theorem resolve (l : Label) : Uses A c (resolve l) Any := by
  refine ofBuilder (fun w hw => (mem_resolve_fixups.1 hw).1) fun hc n => ?_
  rw [resolve_getElem?]
  split
  · rename_i hmem
    cases hi : c.builder.ops[n]? with
    | none => exact .inl rfl
    | some i =>
      refine .inr ⟨i, { i with p2 := c.builder.here }, rfl, rfl, .inl ⟨rfl, rfl⟩, fun hfirst hallows => ?_⟩
      obtain ⟨x, hx, hpatch⟩ := hc.waits _ hmem hfirst
      cases hx.symm.trans hi
      exact hallows.patch hpatch _
  · exact .inl rfl

theorem modifyThe (hi : c.builder.ops[n]? = some i) (hbecomes : i.Becomes (k i))
    (hallows : A.Allows c i → A.Allows c (k i)) : Uses A c (Gen.modifyAt n k) Any := by
  refine ofBuilder (fun w hw => by simpa using hw) fun _ m => ?_
  by_cases hm : (m : Int) = n
  · obtain rfl := Int.ofNat.inj hm
    exact .inr ⟨i, k i, hi, by rw [modifyAt_getElem?_self, hi]; rfl, hbecomes, fun _ => hallows⟩
  · exact .inl (modifyAt_getElem?_ne hm)

/-- The instruction at an address is changed, of which the opcode is known. -/
theorem modifyAt (ha : c.At a o)
    (hk : ∀ i, (i.opcode = o ∨ o = .once ∧ i.opcode = .noop) → i.Becomes (k i) ∧ (A.Allows c i → A.Allows c (k i))) :
    Uses A c (modifyAt a k) Any := by
  obtain ⟨n, i, rfl, hi, ho⟩ := ha
  exact modifyThe hi (hk i ho).1 (hk i ho).2

theorem jumpHere (ha : c.At a o) (hjumps : o.jumps) (hcompares : o.isComparison = false) :
    Uses A c (jumpHere a) Any := by
  intro u c' hmake
  refine modifyAt (k := fun i => { i with p2 := c.builder.here }) ha
    (fun i ho => ⟨.inl ⟨rfl, rfl⟩, fun hallows => hallows.patch ?_ _⟩) u c' (makes_modifyAt.2 (makes_jumpHere.1 hmake))
  rcases ho with rfl | ⟨-, hnoop⟩
  · simp [patchable, canJump, hjumps, hcompares]
  · simp [patchable, hnoop]

/-! ## Registers -/

theorem update {k : Compiler → Compiler} (hbuilder : (k c).builder = c.builder) (hle : c.highest ≤ (k c).highest)
    (hkeep : c.Abides A → (∀ r, (k c).Pooled r → A.Writes (k c) r) ∧ (k c).Refers A.allotment (A.Reads (k c))) :
    Uses A c (modify k : Gen PUnit) Any := by
  intro u c' hmake hc
  obtain rfl := makes_modify.1 hmake
  obtain ⟨hpool, hrefers⟩ := hkeep hc
  exact ⟨hc.update hbuilder hle hpool hrefers, .of_builder hbuilder hle, trivial⟩

theorem allocRegs (n : Nat) : Uses A c (allocRegs n) fun first c' => ∀ k < n, A.Writes c' (first + (k : Nat)) := by
  intro first c' hmake hc
  obtain ⟨hdraws, hnew⟩ := allocRegs_draws hmake
  obtain ⟨hc', hle⟩ := hc.draw hdraws (by simp)
  exact ⟨hc', hle, fun k hk => hc.supply (.inr (hnew k hk)) hle⟩

theorem getTemp : Uses A c getTemp fun r c' => A.Writes c' r := by
  intro r c' hmake hc
  obtain ⟨hdraws, hr⟩ := getTemp_draws hmake
  obtain ⟨hc', hle⟩ := hc.draw hdraws (by simp)
  exact ⟨hc', hle, hc.supply hr hle⟩

theorem releaseTemp (hr : A.Writes c r) : Uses A c (releaseTemp r) Any := by
  intro _ c' hmake hc
  obtain ⟨hc', hle⟩ := hc.draw (releaseTemp_draws hmake) (by rintro _ rfl; exact hr)
  exact ⟨hc', hle, trivial⟩

theorem getTempRange (n : Nat) : Uses A c (getTempRange n) fun first c' =>
    ∀ k < n, A.Writes c' (first + (k : Nat)) := by
  intro first c' hmake hc
  obtain ⟨hdraws, hrow⟩ := getTempRange_draws hmake
  obtain ⟨hc', hle⟩ := hc.draw hdraws (by simp)
  exact ⟨hc', hle, fun k hk => hc.supply (hrow k hk) hle⟩

theorem releaseTempRange {first : Int} (h : ∀ k < n, A.Writes c (first + (k : Nat))) :
    Uses A c (releaseTempRange first n) Any := by
  intro _ c' hmake hc
  obtain ⟨hc', hle⟩ := hc.draw (releaseTempRange_draws hmake) (by rintro _ ⟨k, hk, rfl⟩; exact h k hk)
  exact ⟨hc', hle, trivial⟩

theorem clearTemps : Uses A c clearTemps Any := by
  intro _ c' hmake hc
  obtain ⟨hc', hle⟩ := hc.draw (clearTemps_draws hmake) (by simp)
  exact ⟨hc', hle, trivial⟩

/-! ## Constants -/

theorem hoistInto (he : e.Allotted A.allotment (A.Reads c)) (hr : A.Reads c r) : Uses A c (hoist e (some r)) Any := by
  intro _ c' hmake hc
  obtain rfl := hoistAt_makes hmake
  exact ⟨hc.push hr he, .of_builder rfl (Int.le_refl _), trivial⟩

/-- A constant is set aside, or shares the register of an equal one. -/
theorem hoist (he : e.Allotted A.allotment (A.Reads c)) : Uses A c (hoist e none) fun r c' => A.Reads c' r := by
  intro r c' hmake hc
  rcases hoist_makes hmake with ⟨rfl, k, hk, -, rfl, -⟩ | ⟨-, rfl, rfl⟩
  · exact ⟨hc, .refl _, (hc.refers.hoisted k hk).1⟩
  · obtain ⟨hc1, hle, hnew⟩ := allocRegs (A := A) 1 (c.highest + 1) _ (makes_modifyGet.2 ⟨rfl, rfl⟩) hc
    have hreg : A.Reads _ (c.highest + 1) := (by simpa using hnew 0 Nat.one_pos : A.Writes _ _).reads
    refine ⟨hc1.push hreg (he.mono fun r hr => hr.mono hle), hle.trans (.of_builder rfl (Int.le_refl _)), hreg⟩

end Uses

theorem Still.uses (hg : Still g) : Uses A c g Any := by
  intro a c' hmake hc
  obtain ⟨_, _, _, rfl⟩ := hg c a c' hmake
  exact ⟨hc.update rfl (Int.le_refl _) hc.pool { hc.refers with }, .of_builder rfl (Int.le_refl _), trivial⟩

end Gen

/-! ## Terms that suit an access -/

/-- What a fact says of the registers and instructions of a compilation. -/
def Fact.Granted (A : Access) (c : Compiler) : Fact → Prop
  | reads r => A.Reads c r
  | writes r | scratch r | fixed r => A.Writes c r
  | stands a o => c.At a o
  | given p => p
  | _ => True

theorem Fact.Granted.mono {c' : Compiler} {f : Fact} (h : f.Granted A c) (hc : c.Precedes c') : f.Granted A c' := by
  cases f with
  | reads r => exact Access.Reads.mono h hc
  | writes r | scratch r | fixed r => exact Access.Writes.mono h hc
  | stands a o => exact Compiler.At.mono h hc
  | given p => exact h
  | _ => trivial

namespace Terms

/-- What the terms give, the access has. -/
structure Suits (T : Terms) (A : Access) (c : Compiler) : Prop where
  strict : ¬T.free
  allotment : T.allotment = A.allotment
  reads : ∀ r, T.reads r → A.Reads c r

variable {A : Access} {T : Terms} {K : Facts} {c c' : Compiler} {r first : Int} {n : Nat} {i : Instr} {f : Fact}

theorem Suits.mono (h : T.Suits A c) (hc : c.Precedes c') : T.Suits A c' :=
  ⟨h.strict, h.allotment, fun r hr => (h.reads r hr).mono hc⟩

section

variable (hT : T.Suits A c) (hK : ∀ f ∈ K, f.Granted A c)

include hT hK

theorem Writes.granted (h : T.Writes K r) : A.Writes c r := by
  rcases h with hfree | h | h | h
  · exact absurd hfree hT.strict
  all_goals exact hK _ h

theorem Reads.granted (h : T.Reads K r) : A.Reads c r := by
  rcases h with rfl | h | h | h
  · exact .inl A.reads_zero
  · exact hT.reads r h
  · exact hK _ h
  · exact (h.granted hT hK).reads

theorem Allows.granted (h : T.Allows K i) : A.Allows c i :=
  h.mono (fun _ hr => hr.granted hT hK) fun _ hr => hr.granted hT hK

theorem Knows.granted (h : T.Knows K f) : f.Granted A c := by
  cases f with
  | reads r => exact Reads.granted hT hK h
  | writes r => exact Writes.granted hT hK h
  | given p => exact h.elim (hK _) id
  | scratch | fixed | begun | stands | mark | entry => exact hK _ h

theorem Suits.grant (h : T.ReadsRow K first n) : (T.grant first n).Suits A c := by
  refine ⟨hT.strict, hT.allotment, fun r hr => ?_⟩
  rcases hr with hr | hr
  · exact hT.reads r hr
  · obtain ⟨k, hk, rfl⟩ := mem_registerRow.1 hr
    exact (h k hk).granted hT hK

end

theorem Covers.allotted {e : Expr} (h : T.Covers e) (hT : T.Suits A c) : e.Allotted A.allotment (A.Reads c) := by
  have htree (t : Tree) (ht : t.Covered T) : t.Allotted A.allotment (A.Reads c) := by
    induction ht with
    | intro here _ ih =>
      refine .intro (fun x hx => ?_) ih
      exact hT.allotment ▸ ((here x hx).1.1.resolve_left hT.strict).mono hT.reads
  exact htree _ h

end Terms

/-! ## Rules -/

namespace Gen

variable {α : Type} {A : Access} {L : List Label} {T : Terms} {K : Facts} {E : Ends} {E' : α → Ends} {Q : α → Facts}
  {g : Gen α} {c : Compiler}

theorem Rule.uses (h : Rule L T K E g E' Q) (hT : T.Suits A c) (hK : ∀ f ∈ K, f.Granted A c) :
    Uses A c g fun a c' => ∀ f ∈ Q a, f.Granted A c' := by
  have hplain {β : Type} {g : Gen β} (hg : Uses A c g Any) : Uses A c g fun _ c' => ∀ f ∈ (∅ : Facts), f.Granted A c' :=
    hg.imp fun _ _ _ _ => by simp
  cases h with
  | idle h => exact hplain h.still.uses
  | checkHeight => exact hplain (Still.checkHeight _).uses
  | emit hj hi | emitBack hj hi => exact hplain (.emit (hi.granted hT hK))
  | @emitNull reg h =>
    have hreg := h.granted hT hK
    have hnonneg := hreg.nonneg
    have hwritten : (of .null 0 reg).written = [reg] := by
      simp only [written, of, show (0 - reg).toNat + 1 = 1 by omega]
      simp [registerRow]
    refine hplain (.emit ⟨List.forall_mem_nil _, ?_⟩)
    rw [hwritten]
    exact List.forall_mem_singleton.2 hreg
  | emitAt hj hi =>
    refine (Uses.emitAt (hi.granted hT hK)).imp fun a c' _ ha => ?_
    rintro f (rfl | rfl)
    · exact ha
    · trivial
  | emitLoose hi =>
    refine (Uses.emitAt (hi.granted hT hK)).imp fun a c' _ ha => ?_
    rintro f (rfl | rfl | ⟨rfl, -⟩)
    · exact ha
    · trivial
    · trivial
  | emitJump hl hj hi =>
    refine (Uses.emitJump _ hj (hi.granted hT hK)).imp fun _ _ _ _ => ?_
    rintro f ⟨⟩
    trivial
  | here h =>
    intro a c' hmake hc
    obtain ⟨rfl, rfl⟩ := makes_here.1 hmake
    refine ⟨hc, .refl c, ?_⟩
    rintro f ⟨⟩
    trivial
  | label => exact hplain .label
  | resolve hl => exact hplain (.resolve _)
  | jumpHere ha ho hcompares hrest => exact hplain (.jumpHere (hK _ ha) ho hcompares)
  | cancel ha hrest =>
    refine hplain (.modifyAt (hK _ ha) fun i hi => ⟨.inr ⟨?_, rfl⟩, fun _ => .none rfl rfl⟩)
    exact hi.imp_right And.right
  | setRegister ha hr =>
    refine hplain (.modifyAt (hK _ ha) fun i hi => ⟨.inl ⟨rfl, rfl⟩, fun _ => ?_⟩)
    rcases hi with hi | ⟨honce, -⟩
    · obtain ⟨_, p1, p2, p3, p4, p5⟩ := i
      obtain rfl := hi
      exact ⟨List.forall_mem_nil _, List.forall_mem_singleton.2 (hr.granted hT hK)⟩
    · cases honce
  | setNumber ha =>
    refine hplain (.modifyAt (hK _ ha) fun i hi => ⟨.inl ⟨rfl, rfl⟩, fun hallows => ?_⟩)
    -- The number is not a register.
    cases i
    rcases hi with rfl | ⟨honce, -⟩
    · exact ⟨hallows.read, hallows.written⟩
    · cases honce
  | @listCopy m source target hs ht =>
    have hs := hs.granted hT hK
    have ht := ht.granted hT hK
    have hemit : Uses A c (Gen.emit (.of m.copyOpcode source target)) Any := .emit (.copy m hs ht)
    refine hplain (.withState fun _ => ?_)
    split
    · rename_i p1 p2 p3 p4 p5 hlast
      split
      · rename_i hnext
        simp only [Bool.and_eq_true, beq_iff_eq] at hnext
        refine .withHere ?_
        -- The last instruction stands one before the next address.
        have hpos : 0 < c.builder.ops.size :=
          Nat.lt_of_le_of_lt (Nat.zero_le _) (Array.getElem?_eq_some_iff.1 hlast).1
        rw [show c.builder.here - 1 = ((c.builder.ops.size - 1 : Nat) : Int) by simp only [Builder.here]; omega]
        exact .modifyThe hlast (.inl ⟨rfl, rfl⟩) fun hallows => hallows.widen hnext.1.2 hnext.2 hs ht
      · exact hemit
    · exact hemit
  | keepRoutine hentry hret hresult =>
    have hret : A.Reads c _ := hret.granted hT hK
    have hrow (k : Nat) (hk : k < A.allotment.width _) : A.Reads c _ := (hresult k (hT.allotment ▸ hk)).granted hT hK
    refine hplain (.update rfl (Int.le_refl _) fun hc => ⟨hc.pool, { hc.refers with routines := ?_ }⟩)
    exact List.forall_mem_cons.2 ⟨⟨hret, hrow⟩, hc.refers.routines⟩
  | keepShared hbase =>
    have hrow (k : Nat) (hk : k < A.allotment.shared _) : A.Reads c _ := (hbase k (hT.allotment ▸ hk)).granted hT hK
    refine hplain (.update rfl (Int.le_refl _) fun hc => ⟨hc.pool, { hc.refers with shared := ?_ }⟩)
    exact List.forall_mem_cons.2 ⟨hrow, hc.refers.shared⟩
  | allocRegs n =>
    refine (Uses.allocRegs n).imp fun first c' _ hrow => ?_
    rintro f ⟨k, hk, rfl⟩
    exact hrow k hk
  | getTemp =>
    refine Uses.getTemp.imp fun r c' _ hr => ?_
    rintro f ⟨⟩
    exact hr
  | releaseTemp h => exact hplain (.releaseTemp (hK _ h))
  | getTempRange n =>
    refine (Uses.getTempRange n).imp fun first c' _ hrow => ?_
    rintro f ⟨k, hk, rfl⟩
    exact hrow k hk
  | releaseTempRange h => exact hplain (.releaseTempRange fun k hk => hK _ (h k hk))
  | clearTemps => exact hplain .clearTemps
  | hoist he =>
    refine (Uses.hoist (he.allotted hT)).imp fun r c' _ hr => ?_
    rintro f ⟨⟩
    exact hr
  | hoistAt he hr hpins => exact hplain (.hoistInto (he.allotted hT) (hr.granted hT hK))

theorem Follows.uses (h : Follows L T K E g E' Q) (hT : T.Suits A c) (hK : ∀ f ∈ K, f.Granted A c) :
    Uses A c g fun a c' => ∀ f ∈ Q a, f.Granted A c' := by
  induction h generalizing c with
  | rule h => exact h.uses hT hK
  | bindMade hg hf ihg ihf =>
    intro b c' hmake hc
    obtain ⟨a, c1, hfirst, hsecond⟩ := makes_bind.1 hmake
    obtain ⟨hc1, hle, hQ⟩ := ihg hT hK a c1 hfirst hc
    have hK1 := Facts.forall_and hK (fun f hf => hf.mono hle) hQ
    obtain ⟨hc', hle', hQ'⟩ := ihf c a c1 hfirst (hT.mono hle) hK1 b c' hsecond hc1
    exact ⟨hc', hle.trans hle', hQ'⟩
  | pure hE h => exact .pure fun f hf => (h f hf).granted hT hK
  | throw => exact .throw _
  | image hmade _ h ih =>
    intro b c' hmake hc
    obtain ⟨a, ha, rfl⟩ := hmade c b c' hmake
    exact ih hT hK a c' ha hc
  | weaken h hlabels hjumps hQ ih =>
    refine (ih hT hK).imp fun a c' hle hfacts f hf => (hQ a f hf).granted (hT.mono hle) ?_
    exact Facts.forall_and hK (fun f hf => hf.mono hle) hfacts
  | withState h ih =>
    refine .withState fun hc => ih c ?_ hT (Facts.forall_and hK (fun _ => id) ?_)
    · exact .inr (hT.allotment ▸ hc.refers.ownRow)
    · intro f hf
      cases hf with
      | entry h => trivial
      | ret h => exact (hc.refers.routines _ h).1
      | result h hk => exact (hc.refers.routines _ h).2 _ (hT.allotment ▸ hk)
      | shared h hk => exact hc.refers.shared _ h _ (hT.allotment ▸ hk)
      | window h => exact hc.refers.windows _ h
      | aggColumn h => exact hc.refers.aggColumns _ h
      | aggCall h => exact hc.refers.aggCalls _ h
  | @hereJump _ _ _ _ i l _ _ _ hl hj hi h ih =>
    refine .withHere (.bind (.emitJump _ hj (hi.granted hT hK)) fun _ c1 h1 _ => ih _ (hT.mono h1) ?_)
    refine Facts.forall_and hK (fun f hf => hf.mono h1) ?_
    rintro f ⟨⟩
    trivial
  | use hp h ih => exact ih (hK _ hp) hT hK
  | grant hrow h ih => exact ih (.grant hT hK hrow) hK

end Gen

/-! ## The terms of an access -/

/-- Terms on which all is given that may be read. -/
def Access.terms (A : Access) (c : Compiler) : Terms where
  allotment := A.allotment
  reads := A.Reads c
  free := False
  pins := False

def Access.writable (A : Access) (c : Compiler) : Facts := {f | ∃ r, A.Writes c r ∧ f = .writes r}

theorem Access.terms_suits (A : Access) (c : Compiler) : (A.terms c).Suits A c := ⟨id, rfl, fun _ => id⟩

theorem Access.writable_granted (A : Access) (c : Compiler) : ∀ f ∈ A.writable c, f.Granted A c := by
  rintro _ ⟨r, hr, rfl⟩
  exact hr

theorem Terms.Writes.of_writes {r : Int} (h : A.Writes c r) : (A.terms c).Writes (A.writable c) r :=
  .inr (.inl ⟨r, h, rfl⟩)

theorem Expr.Allotted.covers {e : Expr} (h : e.Allotted A.allotment (A.Reads c)) : (A.terms c).Covers e := by
  have htree (t : Tree) (ht : t.Allotted A.allotment (A.Reads c)) : t.Covered (A.terms c) := by
    induction ht with
    | intro here _ ih => exact .intro (fun x hx => ⟨⟨.inr (here x hx), False.elim⟩, .of_unlimited rfl⟩) ih
  exact htree _ h

theorem Gen.Follows.usesAll {α : Type} {L : List Label} {E : Ends} {E' : α → Ends} {Q : α → Facts} {g : Gen α}
    (h : Follows L (A.terms c) (A.writable c) E g E' Q) : Uses A c g Any :=
  (h.uses (A.terms_suits c) (A.writable_granted c)).imp fun _ _ _ _ => trivial

end ScalarSql
