import ScalarSql.Proofs.Jumps
import ScalarSql.Proofs.Code.Access

/-!
# The registers of a program

A program has as many registers as its compilation took. If the caller names registers of the program only, and no arm
of a sub-query is wider than the sub-query, then no instruction names a register that the program does not have, and
the code of a sub-select changes registers that were taken or free while it was made (`Gen.registers_bounded`). A
sub-query with a wider arm writes registers behind its own (`Gen.register_above_count`).

Nothing is said of what the registers of a sub-query hold. They are not filled if its code stands in an arm of CASE
that is not taken (`Gen.shared_column_unfilled`), and IfNullRow puts NULL into the register of a result that was
computed once (`Gen.null_row_spoils`).
-/

namespace ScalarSql

open Compiler

def Program.Has (p : Program) (r : Int) : Prop := 0 ≤ r ∧ r ≤ p.registers

/-- The registers that a compilation holds, the free ones among them, are among the given ones. -/
structure Compiler.Owns (ν : Allotment) (R : Int → Prop) (c : Compiler) : Prop extends Refers ν R c where
  highest_nonneg : 0 ≤ c.highest
  pool : ∀ r, c.Pooled r → 0 ≤ r ∧ R r
  waits : ∀ w ∈ c.builder.fixups, w.1 < c.builder.ops.size

namespace Gen

variable {A : Access} {ν : Allotment} {R : Int → Prop} {labels : List Label} {c c' : Compiler} {p : Program}
  {requests : List Request}

/-- The registers that a request names are among the given ones. -/
def Request.Allotted (ν : Allotment) (R : Int → Prop) : Request → Prop
  | label | resolve _ => True
  | registers n => 0 ≤ n
  | write i _ => ∀ r ∈ i.read ++ i.written, R r
  | value e reg => R reg ∧ e.Allotted ν R
  | list mode items reg results =>
    (∀ k < items.length, R (reg + (k : Nat))) ∧ ∀ item ∈ items, item.expr.Allotted ν R ∧
      (mode.byReference = true → item.resultColumn ≠ 0 → R (results + item.resultColumn - 1))
  | branch e _ _ _ | member e _ _ => e.Allotted ν R

/-! ## The body -/

theorem Request.serve_uses {request : Request} (h : request.Allotted A.allotment R) (hR : ∀ r, R r → A.writes r) :
    Uses A c (request.serve labels) Any := by
  have hwrites (r : Int) (hr : R r) : (A.terms c).Writes (A.writable c) r := .of_writes (.inl (hR r hr))
  have hcovers {e : Expr} (he : e.Allotted A.allotment R) : (A.terms c).Covers e :=
    (he.mono fun r hr => (hwrites r hr).reads.granted (A.terms_suits c) (A.writable_granted c)).covers
  have hserved (hsuits : request.Suits (A.terms c) (A.writable c)) : Uses A c (request.serve labels) Any :=
    hsuits.works.usesAll
  cases request with
  | label => exact .bind .label fun _ _ _ _ => .pure trivial
  | resolve n =>
    exact .bind (labelOf_idle _ _).still.uses fun l _ _ _ => .bind (.resolve l) fun _ _ _ _ => .pure trivial
  | registers n => exact hserved h
  | write i hi =>
    refine hserved (.of_eq rfl rfl (fun r hr => ?_) fun r hr => ?_)
    · exact (hwrites r (h r (List.mem_append_left _ hr))).reads
    · exact hwrites r (h r (List.mem_append_right _ hr))
  | value e reg => exact hserved ⟨hcovers h.2, hwrites reg h.1⟩
  | list mode items reg results =>
    refine hserved ⟨fun k hk => hwrites _ (h.1 k hk), False.elim, fun item hitem => ?_⟩
    obtain ⟨hitem, hresult⟩ := h.2 item hitem
    exact ⟨hcovers hitem, fun hmode hne => (hwrites _ (hresult hmode hne)).reads⟩
  | branch e | member e => exact hserved (hcovers h)

theorem serveAll_uses (h : ∀ request ∈ requests, request.Allotted A.allotment R) (hR : ∀ r, R r → A.writes r) :
    Uses A c (serveAll labels requests) Any := by
  induction requests generalizing labels c with
  | nil => exact .pure trivial
  | cons request rest ih =>
    obtain ⟨hfirst, hrest⟩ := List.forall_mem_cons.1 h
    exact .bind (Request.serve_uses hfirst hR) fun _ _ _ _ => ih hrest

theorem start_uses : Uses A c start Any :=
  .bind (.emitAt (.none rfl rfl)) fun _ _ _ _ => .update rfl (Int.le_refl _) fun hc => ⟨hc.pool, { hc.refers with }⟩

/-! ## The constants -/

theorem computeHoisted_uses {hs : List Hoisted}
    (h : ∀ x ∈ hs, A.Writes c x.reg ∧ x.expr.Allotted A.allotment (A.Reads c)) : Uses A c (computeHoisted hs) Any := by
  have hworks : Works [] (A.terms c) (A.writable c) {} (computeHoisted hs) :=
    computeHoisted_works fun x hx => ⟨(h x hx).2.covers, .of_writes (h x hx).1⟩
  exact hworks.usesAll

theorem unloaded_abides (hc : c.Abides A) (hinit : c.At 0 .init) : c.unloaded.Abides A ∧ c.Precedes c.unloaded := by
  obtain ⟨hjump, hle, -⟩ := Uses.jumpHere hinit rfl rfl () _ (makes_jumpHere.2 rfl) hc
  refine ⟨hjump.update rfl (Int.le_refl _) hjump.pool ?_, hle.trans (.of_builder rfl (Int.le_refl _))⟩
  exact { hjump.refers with hoisted := List.forall_mem_nil _ }

theorem finish_uses (hstart : c.start = some 0) (hinit : c.At 0 .init) (hwrites : ∀ r, A.reads r → A.writes r) :
    Uses A c finish fun p c' => p.ops = c'.builder.ops ∧ p.registers = c'.highest := by
  intro p c' hmake hc
  obtain ⟨c1, c2, hfinish⟩ := finish_makes hmake hstart
  obtain ⟨hc1, h1, -⟩ := Uses.emit (.none rfl rfl) () _ hfinish.halt hc
  obtain ⟨hc2, h2⟩ := unloaded_abides hc1 (hinit.mono h1)
  have hconstants : Uses A c1.unloaded (computeHoisted c1.hoisted.toList) Any := by
    refine computeHoisted_uses fun x hx => ?_
    obtain ⟨hreg, hexpr⟩ := hc1.refers.hoisted x hx
    exact ⟨(hreg.mono h2).imp_left (hwrites x.reg), hexpr.mono fun r hr => hr.mono h2⟩
  obtain ⟨hc3, h3, -⟩ := hconstants () _ hfinish.constants hc2
  obtain ⟨hc4, h4, -⟩ := Uses.emit (.none rfl rfl) () _ hfinish.back hc3
  exact ⟨hc4, h1.trans (h2.trans (h3.trans h4)), hfinish.ops, hfinish.registers⟩

/-! ## The program -/

/-- The registers of a program, above those that the compilation started with. -/
def wholeAccess (ν : Allotment) (p : Program) (top : Int) (htop : 0 ≤ top) : Access where
  allotment := ν
  reads r := r = 0 ∨ p.Has r
  writes r := r = 0 ∨ p.Has r
  top := top
  first := 0
  reads_of_writes _ := id
  reads_zero := .inl rfl
  writes_nonneg _ h := h.elim (fun hzero => Int.le_of_eq hzero.symm) And.left
  top_nonneg := htop

/-- No instruction of a program names a register that the program does not have. -/
theorem registers_of_program (hbuilder : c.builder = {}) (hroutines : c.routines = []) (howns : c.Owns ν p.Has)
    (hrequests : ∀ request ∈ requests, request.Allotted ν p.Has) (h : (program requests).Makes c p c') :
    ∀ i ∈ p.ops, ∀ r ∈ i.read ++ i.written, p.Has r := by
  simp only [program, makes_bind] at h
  obtain ⟨⟨⟩, c1, hstart, ⟨⟩, c2, hserve, hfinish⟩ := h
  obtain ⟨labels, hserves⟩ := (serves_start hbuilder hroutines hstart).serveAll hserve
  let A := wholeAccess ν p c.highest howns.highest_nonneg
  have hc : c.Abides A := by
    refine ⟨Int.le_refl _, fun n i _ hi => ?_, fun w hw => ?_, fun r hr => .inl (.inr (howns.pool r hr).2), ?_⟩
    · simp [hbuilder] at hi
    · simp [hbuilder] at hw
    · exact howns.toRefers.mono fun r hr => .inl (.inr hr)
  obtain ⟨hc1, h1, -⟩ := start_uses () _ hstart hc
  obtain ⟨hc2, h2, -⟩ := serveAll_uses (A := A) hrequests (fun _ => Or.inr) () _ hserve hc1
  have hinit : c2.At 0 .init := ⟨0, _, rfl, hserves.init, .inl rfl⟩
  obtain ⟨hc', h3, hops, hregisters⟩ := finish_uses hserves.start hinit (fun _ => id) p _ hfinish hc2
  have hnonneg := howns.highest_nonneg
  have hle := (h1.trans (h2.trans h3)).highest
  -- What may be read or written at the end are registers of the program, since it has all that were taken.
  have hreads (r : Int) (hr : A.Reads c' r) : p.Has r := by
    rcases hr with (rfl | hr) | ⟨hlt, hr⟩
    · exact ⟨Int.le_refl 0, by omega⟩
    · exact hr
    · have hlt : c.highest < r := hlt
      exact ⟨by omega, by omega⟩
  intro i hi r hr
  obtain ⟨n, hn, rfl⟩ := Array.mem_iff_getElem.1 hi
  have hallows := hc'.code n p.ops[n] (Nat.zero_le n) (by rw [← hops]; exact Array.getElem?_eq_getElem hn)
  rcases List.mem_append.1 hr with hr | hr
  · exact hreads r (hallows.read r hr)
  · have hwritten := hallows.written r hr
    split at hwritten
    · exact hreads r hwritten
    · exact hreads r hwritten.reads

/-! ## Sub-selects -/

/-- The registers of code made from a state on: it may write free registers, and read the given ones. -/
def laterAccess (howns : c.Owns ν R) : Access where
  allotment := ν
  reads r := R r ∨ r = 0
  writes := c.Pooled
  top := c.highest
  first := c.builder.ops.size
  reads_of_writes r hr := .inl (howns.pool r hr).2
  reads_zero := .inr rfl
  writes_nonneg r hr := (howns.pool r hr).1
  top_nonneg := howns.highest_nonneg

theorem abides_laterAccess (howns : c.Owns ν R) : c.Abides (laterAccess howns) where
  top_le := Int.le_refl _
  code _ _ hn hi := absurd (Array.getElem?_eq_some_iff.1 hi).1 (Nat.not_lt.2 hn)
  waits w hw hfirst := absurd (howns.waits w hw) (Nat.not_lt.2 hfirst)
  pool _ hr := .inl hr
  refers := howns.toRefers.mono fun _ hr => .inl (.inl hr)

/-- The code of a sub-select writes registers that were taken or free while it was made. An instruction that changes
an operand where it is may do so with a given register too. -/
theorem written_of_subselect {e : Expr} {base : Int} (howns : c.Owns ν R) (he : e.Allotted ν R)
    (h : e.coded.subselect.Makes c base c') {a : Nat} {i : Instr} (ha : c.builder.ops.size ≤ a)
    (hi : c'.builder.ops[a]? = some i) :
    ∀ r ∈ i.written, c.highest < r ∧ r ≤ c'.highest ∨ c.Pooled r ∨ i.opcode.inPlace ∧ (R r ∨ r = 0) := by
  have hcovers : ((laterAccess howns).terms c).Covers e :=
    Expr.Allotted.covers (he.mono fun r hr => (.inl (.inl hr) : (laterAccess howns).Reads c r))
  have huses := ((Expr.coded_fits hcovers).subselect (L := []) (E := {})).usesAll
  obtain ⟨hc', -, -⟩ := huses base c' h (abides_laterAccess howns)
  intro r hr
  have hwritten := (hc'.code a i ha hi).written r hr
  split at hwritten
  · rename_i hplace
    rcases hwritten with hread | htaken
    · exact .inr (.inr ⟨hplace, hread⟩)
    · exact .inl htaken
  · rcases hwritten with hpooled | htaken
    · exact .inr (.inl hpooled)
    · exact .inl htaken

end Gen

/-! ## Runs -/

namespace Machine

variable {ops : Array Instr} {r : Int}

theorem register_next? {a b : Nat} {m m1 : Machine} (h : next? ops a m = some (b, m1))
    (hr : ∀ i ∈ ops, r ∉ i.written) : m1.register r = m.register r := by
  obtain ⟨i, flow, hi, hstep, -⟩ := eq_step_of_next? h
  have hframe := Instr.register_step i a m (hr i (Array.mem_of_getElem? hi))
  rwa [hstep] at hframe

theorem register_visits {steps : Nat} {q : Nat × Machine} (hr : ∀ i ∈ ops, r ∉ i.written) :
    ∀ v ∈ visits ops steps q, v.2.register r = q.2.register r := by
  induction steps generalizing q with
  | zero => exact List.forall_mem_singleton.2 rfl
  | succ steps ih =>
    cases hnext : next? ops q.1 q.2 with
    | none =>
      rw [visits_of_none hnext]
      exact List.forall_mem_singleton.2 rfl
    | some q' =>
      rw [visits_of_some hnext]
      refine List.forall_mem_cons.2 ⟨rfl, fun v hv => (ih v hv).trans ?_⟩
      exact register_next? hnext hr

end Machine

open Machine in
/-- If the caller names registers of the program only, every register that an instruction of the finished program
reads or writes is one of the program's, and a run leaves all others as they are. The code of a sub-select, no arm of
which is wider than it is, changes registers that were taken while it was made or were free then, and by Affinity,
IfNullRow and Gosub also operands and the return addresses of routines that were there before. -/
theorem Gen.registers_bounded (ν : Allotment) (c c' : Compiler) :
    (∀ (requests : List Request) (p : Program), c.builder = {} → c.routines = [] → c.Owns ν p.Has →
      (∀ request ∈ requests, request.Allotted ν p.Has) → (program requests).Makes c p c' →
      (∀ i ∈ p.ops, ∀ r ∈ i.read ++ i.written, 0 ≤ r ∧ r ≤ p.registers) ∧
        ∀ steps q, ∀ v ∈ visits p.ops steps q, ∀ r, p.registers < r → v.2.register r = q.2.register r) ∧
    ∀ (R : Int → Prop) (e : Expr) (base : Int), c.Owns ν R → e.Allotted ν R → e.coded.subselect.Makes c base c' →
      ∀ (a : Nat) i, c.builder.ops.size ≤ a → c'.builder.ops[a]? = some i →
        ∀ m r, ((i.step a).outcome m).2.register r ≠ m.register r →
          c.highest < r ∧ r ≤ c'.highest ∨ c.Pooled r ∨ i.opcode.inPlace = true ∧ (R r ∨ r = 0) := by
  refine ⟨fun requests p hbuilder hroutines howns hrequests h => ?_,
    fun R e base howns he h a i ha hi m r hne => ?_⟩
  · have hbound := registers_of_program hbuilder hroutines howns hrequests h
    refine ⟨hbound, fun steps q v hv r hr => register_visits (fun i hi hmem => ?_) v hv⟩
    have := (hbound i hi r (List.mem_append_right _ hmem)).2
    omega
  · by_contra hnot
    refine hne (Instr.register_step i a m fun hmem => hnot ?_)
    exact written_of_subselect howns he h ha hi r hmem

/-- Whether the registers that nodes of the tree refer to are among the given ones, down to the given depth, where the
tree ends. -/
def Tree.allots (ν : Allotment) (R : Int → Prop) [DecidablePred R] : (depth : Nat) → Tree → Bool
  | 0, _ => false
  | depth + 1, .expr e => decide (ν.Node R e.kind) && (Tree.expr e).below.all (allots ν R depth)
  | depth + 1, .select s => (Tree.select s).below.all (allots ν R depth)

theorem Tree.allotted_of_allots {ν : Allotment} {R : Int → Prop} [DecidablePred R] {depth : Nat} {t : Tree}
    (h : t.allots ν R depth) : t.Allotted ν R := by
  induction depth generalizing t with
  | zero => cases t <;> cases h
  | succ depth ih =>
    cases t with
    | expr e =>
      obtain ⟨hnode, hbelow⟩ := Bool.and_eq_true_iff.1 h
      refine .intro ?_ fun u hu => ih (List.all_eq_true.1 hbelow u hu)
      rintro x ⟨⟩
      exact of_decide_eq_true hnode
    | select s =>
      refine .intro ?_ fun u hu => ih (List.all_eq_true.1 h u hu)
      rintro x ⟨⟩

namespace Example

def pairArms : Expr :=
  .ofKind (.subquery 7 (selectOf 7 [literal 1, literal 2] [] (some (selectOf 8 [literal 3, literal 4] [] none))))

def pairEqual : Expr :=
  .ofKind (.binary .eq (.ofKind (.vector [⟨parameter, false, 0⟩, ⟨literal 4, false, 0⟩])) pairArms)

def heldBetween : Expr := .ofKind (.between (.ofKind (.register 1 parameter)) parameter (literal 5))

/-- The row of a comparison, of a value in a register, of IN and of two sub-queries. -/
def naming : List Gen.Request :=
  [.registers 5, .value pairEqual 1, .value heldBetween 2, .value inTable 3,
    .list { full := true, factor := true } [⟨firstRow, false, 0⟩, ⟨pairEqual, false, 0⟩] 4 0,
    .write (.of .resultRow 1 5) rfl]

/-- (SELECT r IN (SELECT a FROM t)), with r the value in register 1. -/
def heldIn : Expr :=
  .ofKind (.subquery 9 (selectOf 9 [.ofKind (.inSelect 10 (.ofKind (.register 1 parameter))
    (selectOf 11 [.ofKind (.column ⟨5, 0, some table, none⟩)] [⟨table, 5, none⟩] none))] [] none))

/-- A compilation that has taken five registers, of which the second one is free. -/
def released : Compiler := { new .empty {} with highest := 5, pool := [2] }

/-- The sub-queries have one or two registers, the right sides of IN have none. -/
def allotment : Allotment where
  width id := if id = 4 ∨ id = 9 then 1 else if id = 7 then 2 else 0
  shared _ := 0
  ownRow := none

theorem new_owns (R : Int → Prop) : (new .empty {}).Owns allotment R where
  hoisted := by simp [new]
  routines := by simp [new]
  shared := by simp [new]
  windows := by simp [new]
  aggColumns := by simp [new]
  aggCalls := by simp [new]
  ownRow := rfl
  highest_nonneg := Int.le_refl 0
  pool := by
    rintro r (hmem | ⟨hge, hlt⟩)
    · cases hmem
    · simp only [new] at hge hlt
      omega
  waits := by simp [new]

theorem released_owns : released.Owns allotment fun r => 1 ≤ r ∧ r ≤ 5 :=
  { new_owns fun r => 1 ≤ r ∧ r ≤ 5 with
    highest_nonneg := by decide
    pool := by
      rintro r (hmem | ⟨hge, hlt⟩)
      · obtain rfl := List.mem_singleton.1 hmem
        decide
      · simp only [released, new] at hge hlt
        omega }

theorem naming_allotted {R : Int → Prop} (hR : ∀ r, 1 ≤ r ∧ r ≤ 5 → R r) :
    ∀ request ∈ naming, request.Allotted allotment R := by
  have hexpr (e : Expr) (h : (Tree.expr e).allots allotment (fun r => 1 ≤ r ∧ r ≤ 5) 6) :
      e.Allotted allotment R := (show e.Allotted _ _ from Tree.allotted_of_allots h).mono hR
  have hequal : pairEqual.Allotted allotment R := hexpr _ (by decide +kernel)
  have hheld : heldBetween.Allotted allotment R := hexpr _ (by decide +kernel)
  have hin : inTable.Allotted allotment R := hexpr _ (by decide +kernel)
  have hfirst : firstRow.Allotted allotment R := hexpr _ (by decide +kernel)
  simp only [naming, List.forall_mem_cons, Gen.Request.Allotted]
  refine ⟨by decide, ⟨hR 1 (by decide), hequal⟩, ⟨hR 2 (by decide), hheld⟩, ⟨hR 3 (by decide), hin⟩,
    ⟨fun k hk => hR _ ?_, ⟨hfirst, by simp⟩, ⟨hequal, by simp⟩, List.forall_mem_nil _⟩, fun r hr => hR r ?_,
    List.forall_mem_nil _⟩
  · simp only [List.length_cons, List.length_nil] at hk
    omega
  · simp [Instr.read, Instr.written] at hr
    omega

end Example

open Example Gen Machine in
/-- A program of 61 instructions with 19 registers, of which the caller names the first five. The code of the
sub-query takes the registers 6 to 11 and uses register 2, which is free; Affinity converts the value in register 1
where it is. -/
theorem Gen.registers_bounded_naming :
    (∃ p c, (program naming).Makes (.new .empty {}) p c ∧ p.registers = 19 ∧ p.ops.size = 61 ∧
      (∀ i ∈ p.ops, ∀ r ∈ i.read ++ i.written, 0 ≤ r ∧ r ≤ 19) ∧
      ∀ steps q, ∀ v ∈ visits p.ops steps q, ∀ r, 19 < r → v.2.register r = q.2.register r) ∧
    ∃ base c, heldIn.coded.subselect.Makes released base c ∧
      c.builder.ops.toList.flatMap Instr.written = [6, 7, 7, 9, 2, 10, 8, 8, 1, 11, 7, 7] ∧
      ∀ (a : Nat) i, c.builder.ops[a]? = some i → ∀ m r, ((i.step a).outcome m).2.register r ≠ m.register r →
        5 < r ∧ r ≤ 11 ∨ released.Pooled r ∨ i.opcode.inPlace = true ∧ ((1 ≤ r ∧ r ≤ 5) ∨ r = 0) := by
  constructor
  · obtain ⟨p, c, h, htest⟩ := Gen.exists_of_test (program naming) (.new .empty {})
      (fun p => p.registers == 19 && p.ops.size == 61) (by decide +kernel)
    obtain ⟨hregisters, hsize⟩ := Bool.and_eq_true_iff.1 htest
    have hregisters : p.registers = 19 := beq_iff_eq.1 hregisters
    have hhas (r : Int) (hr : 1 ≤ r ∧ r ≤ 5) : p.Has r := ⟨by omega, by omega⟩
    obtain ⟨hbound, hruns⟩ :=
      (Gen.registers_bounded allotment _ c).1 naming p rfl rfl (new_owns p.Has) (naming_allotted hhas) h
    rw [hregisters] at hbound hruns
    exact ⟨p, c, h, hregisters, beq_iff_eq.1 hsize, hbound, hruns⟩
  · obtain ⟨base, c, h, -⟩ := Gen.exists_of_test heldIn.coded.subselect released (fun _ => true) (by decide +kernel)
    have hmade : ((heldIn.coded.subselect.run released).2.highest,
        (heldIn.coded.subselect.run released).2.builder.ops.toList.flatMap Instr.written) =
          (11, [6, 7, 7, 9, 2, 10, 8, 8, 1, 11, 7, 7]) := by decide +kernel
    rw [show heldIn.coded.subselect.run released = (.ok base, c) from h] at hmade
    obtain ⟨hhighest, hwritten⟩ := Prod.mk.inj hmade
    have hheld : heldIn.Allotted allotment fun r => 1 ≤ r ∧ r ≤ 5 :=
      Tree.allotted_of_allots (show (Tree.expr heldIn).allots allotment (fun r => 1 ≤ r ∧ r ≤ 5) 6 = true by
        decide +kernel)
    refine ⟨base, c, h, hwritten, fun a i hi m r hne => ?_⟩
    have hchanged := (Gen.registers_bounded allotment released c).2 _ heldIn base released_owns hheld h a i
      (Nat.zero_le a) hi m r hne
    rwa [hhighest] at hchanged

namespace Example

/-- (SELECT 1, 25, 3 UNION ALL SELECT 9): the first arm is wider than the sub-query. -/
def uneven : Expr :=
  .ofKind (.subquery 1 (selectOf 1 [literal 9] [] (some (selectOf 2 [literal 1, literal 25, literal 3] [] none))))

/-- CASE WHEN ?1 THEN x ELSE 0 END, x and ?2 + ?1, with x the same sub-query. -/
def overlapping : List Expr :=
  [.ofKind (.caseOf none [(parameter, uneven)] (some (literal 0))), uneven,
    .ofKind (.binary .add (.ofKind (.param 2 "?2")) parameter)]

end Example

open Example Gen in
/-- The result of the sub-query has one register, but its wider arm writes three in a row. By itself the code takes
two registers and writes the first four. In a program of seven registers the arm writes register 7, which ?2 is given
later, and register 8: with ?2 = 100, the sum of ?2 and 0 is 25. -/
theorem Gen.register_above_count :
    ((uneven.coded.subselect.run (.new .empty {})).2.highest,
        (uneven.coded.subselect.run (.new .empty {})).2.builder.ops.toList.flatMap Instr.written) =
      (2, [1, 2, 2, 3, 4, 2]) ∧
    ((evaluation {} overlapping).run (.new .empty {})).1.toOption.map (fun p =>
        (p.registers, p.ops.toList.flatMap Instr.written)) =
      some (7, [5, 6, 6, 7, 8, 6, 1, 1, 5, 2, 3, 4, 7]) ∧
    (evaluation {} overlapping).delivered? .empty {} .empty [.integer 0, .integer 100] =
      some #[[.integer 0, .integer 1, .integer 25]] := by
  refine ⟨?_, ?_, ?_⟩ <;> decide +kernel

namespace Example

def oneTwo : Expr := .ofKind (.subquery 1 (selectOf 1 [literal 1, literal 2] [] none))

def columnOf (column : Nat) : Expr := .ofKind (.selectColumn 2 oneTwo column 2)

/-- CASE WHEN ?1 THEN its first column ELSE 0 END. -/
def armWithColumn : Expr := .ofKind (.caseOf none [(parameter, columnOf 0)] (some (literal 0)))

end Example

open Example in
/-- The second column is 2 if the arm with the first one is taken, and NULL if it is not. -/
theorem Gen.shared_column_unfilled :
    (Gen.evaluation {} [armWithColumn, columnOf 1]).delivered? .empty {} .empty [.integer 1] =
        some #[[.integer 1, .integer 2]] ∧
      (Gen.evaluation {} [armWithColumn, columnOf 1]).delivered? .empty {} .empty [.integer 0] =
        some #[[.integer 0, .null]] := by
  decide +kernel

namespace Example

/-- (SELECT 5), which is NULL on the row of NULLs under the cursor 1. -/
def fiveOrNull : Expr := .ofKind (.ifNullRow 1 (.ofKind (.subquery 1 (selectOf 1 [literal 5] [] none))))

/-- For each row of the table the value of an expression, with the cursor 1 on its row of NULLs where the column is not
true. -/
def onNullRows (e : Expr) : Gen Program :=
  .forEachRow {} table 0 1 fun reg => do
    Gen.emit (.of .openRead 1 0 0 (.table table))
    let found ← Gen.label
    column.coded.branch true found false
    Gen.emit (.of .nullRow 1)
    Gen.resolve found
    e.coded.exact reg

end Example

open Example in
/-- The sub-select is run on the first row. On the second one its result becomes NULL, and stays so on the third. -/
theorem Gen.null_row_spoils : (onNullRows fiveOrNull).delivered? .empty {}
    ⟨[(1, [⟨1, [.integer 1]⟩, ⟨2, [.integer 0]⟩, ⟨3, [.integer 1]⟩])]⟩ [] =
      some #[[.integer 5], [.null], [.null]] := by
  decide +kernel

end ScalarSql
