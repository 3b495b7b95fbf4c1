import ScalarSql.Proofs.Branching
import ScalarSql.Proofs.Code.Landing
import ScalarSql.Proofs.Code.Selects

/-!
# Jumps of a finished program

A caller starts a program, asks for code (`Gen.Request`) and finishes the program. If all of this succeeds, every
instruction that can jump has a target inside the program, behind the first instruction, and the first instruction is
the only one whose target is the section of constants at the end (`Gen.jumps_patched`). The body ends with Halt, so a
run enters that section a second time only by a Return whose register holds the address of this Halt. That happens
where a sub-query overwrites the register of a routine (`Gen.constants_entered_by_return`).
-/

namespace ScalarSql

open Builder ScalarSql.Expr Gen Instr

/-! ## Regions of a program -/

/-- The body of a program stands behind its first instruction. -/
def Region.body : Region where
  first := 1
  closed a := a = 0
  barred a := a = 0
  first_pos := Nat.le_refl 1
  closed_le := by rintro a rfl; decide
  closed_of_barred _ := id

/-- The constants stand behind the Halt at the address. No jump leads to their first instruction. -/
def Region.constants (halt : Nat) : Region where
  first := halt + 1
  closed a := a = halt + 1
  barred a := a = halt + 1
  first_pos := Nat.le_add_left 1 halt
  closed_le := by rintro a rfl; exact Int.le_refl _
  closed_of_barred _ := id

theorem Builder.aimed_start : ({ ops := #[.of .init 0 1] } : Builder).Aimed .body fun _ => False := by
  -- The target of the first instruction is written as 1, which is right behind it.
  have hone (n : Nat) (i : Instr) (hi : #[of .init 0 1][n]? = some i) : i = .of .init 0 1 := by
    cases n with
    | zero => simpa using hi.symm
    | succ n => simp at hi
  refine ⟨Nat.le_refl 1, fun n i hi _ => ?_, fun l x hx => ?_, List.forall_mem_nil _⟩
  · rw [hone n i hi]
    exact .inr (.inr (.inl ⟨Int.le_refl 1, Int.le_refl 1, Int.one_ne_zero⟩))
  · simp [address?] at hx

/-- The body ends and the program is sent behind it: what was a target of a jump still is one. -/
theorem Builder.Aimed.halted {z : Region} {b : Builder} (h : b.Aimed .body fun _ => False)
    (hfirst : z.first ≤ b.ops.size + 1) (hclosed : ∀ x : Int, 1 ≤ x → x ≤ b.ops.size → ¬ z.closed x)
    (hwaits : ∀ w ∈ b.fixups, z.first ≤ w.1) : ((b.emit (.of .halt)).jumpHere 0).Aimed z fun a => a = 0 where
  first_le := by
    simp only [jumpHere, modifyAt_size, emit_size]
    exact hfirst
  jumps n i hi hj := by
    by_cases hn : (n : Int) = 0
    · exact .inl hn
    · rw [jumpHere, modifyAt_getElem?_ne hn] at hi
      rcases emit_getElem?.1 hi with hi | ⟨-, rfl⟩
      · rcases h.jumps n i hi hj with hnone | hwait | hland
        · exact hnone.elim
        · exact .inr (.inl (by simpa [jumpHere, Builder.emit] using hwait))
        · have hland := hland.bounds
          refine .inr (.inr (.inl ⟨hland.1, ?_, hclosed _ hland.1 hland.2⟩))
          simp only [jumpHere, modifyAt_size, emit_size]
          omega
      · cases hj
  labels l x hx := by
    have := h.labels l x (by simpa [jumpHere, Builder.emit, address?] using hx)
    simp only [jumpHere, modifyAt_size, emit_size]
    omega
  waits w hw := by
    obtain ⟨-, hlt, hmade, hnone⟩ := h.waits w hw
    refine ⟨.inr (hwaits w hw), ?_, ?_, ?_⟩
    · simp only [jumpHere, modifyAt_size, emit_size]
      omega
    · simpa [jumpHere, Builder.emit] using hmade
    · simpa [jumpHere, Builder.emit, address?] using hnone

namespace Gen

/-! ## Requests -/

/-- What a caller asks for between the start and the end of a program. Labels are named by their numbers, in the
order in which the caller made them. -/
inductive Request where
  | label
  | resolve (label : Nat)
  | registers (n : Int)
  /-- An instruction of the caller's own. -/
  | write (i : Instr) (h : i.canJump = false)
  | value (e : Expr) (reg : Int)
  | list (mode : ListMode) (items : List (Item Expr)) (reg results : Int)
  /-- A jump to the label if the expression is as wanted, or if it is NULL and NULL is to jump. -/
  | branch (e : Expr) (wanted : Bool) (label : Nat) (jumpIfNull : Bool)
  | member (e : Expr) (ifFalse ifNull : Nat)

def labelOf (labels : List Label) (n : Nat) : Gen Label :=
  match labels[n]? with
  | some l => return l
  | none => throw (.internal "no such label")

/-- Serves a request; returns the labels made so far. -/
def Request.serve (labels : List Label) : Request → Gen (List Label)
  | .label => do
    let l ← Gen.label
    return labels ++ [l]
  | .resolve n => do
    Gen.resolve (← labelOf labels n)
    return labels
  | .registers n => do
    discard (allocRegs n)
    return labels
  | .write i _ => do
    emit i
    return labels
  | .value e reg => do
    e.coded.exact reg
    return labels
  | .list mode items reg results => do
    discard (exprList mode ((itemsCoded items).map Item.toCode) reg results)
    return labels
  | .branch e wanted n jumpIfNull => do
    e.coded.branch wanted (← labelOf labels n) jumpIfNull
    return labels
  | .member e ifFalse ifNull => do
    e.coded.member (← labelOf labels ifFalse) (← labelOf labels ifNull)
    return labels

def serveAll : (labels : List Label) → List Request → Gen Unit
  | _, [] => return ()
  | labels, request :: rest => do serveAll (← request.serve labels) rest

def program (requests : List Request) : Gen Program := do
  start
  serveAll [] requests
  finish

variable {α : Type} {z : Region} {labels labels' : List Label} {c c' : Compiler} {p : Program} {l : Label} {T : Terms}
  {K : Facts} {request : Request} {L : List Label}

theorem labelOf_idle (labels : List Label) (n : Nat) : Idle (labelOf labels n) := by
  unfold labelOf
  split
  · exact .pure _
  · exact .throw (by simp)

theorem mem_of_labelOf {n : Nat} (h : (labelOf labels n).Makes c l c') : l ∈ labels ∧ c' = c := by
  unfold labelOf at h
  split at h
  · rename_i k hk
    obtain ⟨rfl, rfl⟩ := makes_pure.1 h
    exact ⟨List.mem_of_getElem? hk, rfl⟩
  · exact (makes_throw.1 h).elim

/-- The request is not about a label of its own, and can be served on the terms. -/
def Request.Suits (T : Terms) (K : Facts) : Request → Prop
  | .label | .resolve _ => False
  | .registers n => 0 ≤ n
  | .write i _ => T.Allows K i
  | .value e reg => T.Covers e ∧ T.Writes K reg
  | .list mode items reg results =>
    T.WritesRow K reg items.length ∧ (T.pins → mode.factor = false) ∧ ∀ item ∈ items, T.Covers item.expr ∧
      (mode.byReference = true → item.resultColumn ≠ 0 → T.Reads K (results + item.resultColumn - 1))
  | .branch e .. | .member e .. => T.Covers e

theorem mem_itemCodes {items : List (Item Expr)} {item : Item Code} (h : item ∈ (itemsCoded items).map Item.toCode) :
    ∃ x ∈ items, x.expr.coded.toCode = item.expr ∧ x.resultColumn = item.resultColumn := by
  rw [itemsCoded_eq_map, List.map_map] at h
  obtain ⟨x, hx, rfl⟩ := List.mem_map.1 h
  exact ⟨x, hx, rfl, rfl⟩

theorem Request.Suits.works (h : request.Suits T K) : Works labels T K {} (request.serve labels) := by
  cases request with
  | label | resolve n => exact h.elim
  | registers n =>
    obtain ⟨n, rfl⟩ := Int.eq_ofNat_of_zero_le h
    exact .next (.discard (.rule (.allocRegs n))) fun _ => .done _
  | write i hi => exact .pass (.emit hi h) fun _ => .done _
  | value e reg => exact .next ((coded_fits h.1).exact h.2) fun _ => .done _
  | list mode items reg results =>
    obtain ⟨hreg, hpins, hitems⟩ := h
    refine .next (.discard (exprList_works mode ?_ ?_ (fun hp hfactor => ?_) ?_)) fun _ => .done _
    · intro item hitem
      obtain ⟨x, hx, hexpr, -⟩ := mem_itemCodes hitem
      exact hexpr ▸ (coded_fits (hitems x hx).1).toFits
    · intro hmode item hitem hne
      obtain ⟨x, hx, -, hcolumn⟩ := mem_itemCodes hitem
      rw [← hcolumn] at hne ⊢
      exact (hitems x hx).2 hmode hne
    · rw [hpins hp] at hfactor
      cases hfactor
    · rwa [List.length_map, length_itemsCoded]
  | branch e wanted n jumpIfNull =>
    refine .idleMade (labelOf_idle labels n) fun _ l _ hl => ?_
    exact .next ((coded_fits h).branch wanted l jumpIfNull (.inl (mem_of_labelOf hl).1)) fun _ => .done _
  | member e ifFalse ifNull =>
    refine .idleMade (labelOf_idle labels ifFalse) fun _ l _ hl => ?_
    refine .idleMade (labelOf_idle labels ifNull) fun _ l' _ hl' => ?_
    exact .next ((coded_fits h).member (.inl (mem_of_labelOf hl).1) (.inl (mem_of_labelOf hl').1)) fun _ => .done _

theorem Request.Suits.labels_eq (h : request.Suits T K) (hmake : (request.serve labels).Makes c labels' c') :
    labels' = labels := by
  cases request with
  | label | resolve n => exact h.elim
  | registers | write | value | list =>
    obtain ⟨_, _, -, hmake⟩ := makes_bind.1 hmake
    exact (makes_pure.1 hmake).1.symm
  | branch =>
    simp only [Request.serve, makes_bind, makes_pure] at hmake
    obtain ⟨_, _, -, _, _, -, rfl, -⟩ := hmake
    rfl
  | member =>
    simp only [Request.serve, makes_bind, makes_pure] at hmake
    obtain ⟨_, _, -, _, _, -, _, _, -, rfl, -⟩ := hmake
    rfl

/-! ## The body -/

/-- The state of a compilation whose caller has made the labels. -/
structure Serves (labels : List Label) (c : Compiler) : Prop where
  aimed : c.Aimed .body fun _ => False
  made : ∀ l ∈ labels, l.index < c.builder.labels.size
  start : c.start = some 0
  init : c.builder.ops[0]? = some (.of .init 0 1)

section

variable (h : Serves labels c)

include h

theorem Serves.offers (hl : l ∈ labels) : c.builder.Offers .body l := by
  refine ⟨h.made l hl, fun x hx hzero => ?_⟩
  have hpos := (h.aimed.code.labels l x hx).1
  rw [hzero] at hpos
  cases hpos

theorem Serves.aims {g : Gen α} {a : α} (hg : Aims .body L g) (hL : ∀ l ∈ L, l ∈ labels)
    (hmake : g.Makes c a c') : Serves labels c' ∧ c.Grows c' := by
  have hspan := hg _ c a c' h.aimed (fun l hl => h.offers (hL l hl)) hmake
  refine ⟨?_, hspan.grows⟩
  exact
    { aimed := ⟨hspan.code.aimed.mono fun _ ha => ha.elim id (List.not_mem_nil · |>.elim), hspan.routines⟩
      made := fun l hl => Nat.lt_of_lt_of_le (h.made l hl) hspan.code.labels_le
      start := hspan.start.trans h.start
      init := hspan.code.kept.getElem? Nat.one_pos h.init Opcode.noConfusion }

def Request.Regular (request : Request) : Prop := ∀ n, request = .registers n → 0 ≤ n

/-- A request that is served leaves all jumps with targets, or waiting for them, and keeps the constants that were set
aside. -/
theorem Serves.serve (hmake : (request.serve labels).Makes c labels' c') :
    Serves labels' c' ∧ (request.Regular → c.Grows c') := by
  have hcode (hsuits : request.Suits .lax ∅) : Serves labels' c' ∧ (request.Regular → c.Grows c') := by
    obtain rfl := hsuits.labels_eq hmake
    exact (h.aims hsuits.works.aims (fun _ => id) hmake).imp_right (Function.const _)
  cases request with
  | label =>
    simp only [Request.serve, makes_bind, makes_label, makes_pure] at hmake
    obtain ⟨_, _, ⟨rfl, rfl⟩, rfl, rfl⟩ := hmake
    refine ⟨{ h with aimed := ⟨h.aimed.code.label, h.aimed.routines⟩, made := ?_ }, fun _ => .of_le rfl (Int.le_refl _)⟩
    refine List.forall_mem_append.2 ⟨fun l hl => ?_, List.forall_mem_singleton.2 ?_⟩
    · have := h.made l hl
      simp only [label_size]
      omega
    · simp [Builder.label]
  | resolve n =>
    simp only [Request.serve, makes_bind, makes_resolve, makes_pure] at hmake
    obtain ⟨l, _, hl, _, _, rfl, rfl, rfl⟩ := hmake
    obtain ⟨hmem, rfl⟩ := mem_of_labelOf hl
    refine ⟨{ h with aimed := ⟨h.aimed.code.resolve (h.made l hmem), ?_⟩, made := ?_, init := ?_ },
      fun _ => .of_le rfl (Int.le_refl _)⟩
    · exact fun q hq => (h.aimed.routines q hq).mono (by simp)
    · simpa using h.made
    · refine (resolve_getElem?_lt (fun w hw _ => ?_) Nat.one_pos).trans h.init
      exact (h.aimed.code.waits w hw).1.resolve_left id
  | registers n =>
    obtain ⟨_, _, ⟨_, -, rfl⟩, rfl, rfl⟩ := hmake
    refine ⟨⟨⟨h.aimed.code, h.aimed.routines⟩, h.made, h.start, h.init⟩, fun hregular => .of_le rfl ?_⟩
    exact Int.le_add_of_nonneg_right (hregular n rfl)
  | write i hi => exact hcode (.of_free trivial)
  | value e reg => exact hcode ⟨e.covers_lax, .of_free trivial⟩
  | list mode items reg results =>
    exact hcode ⟨.of_free trivial, False.elim, fun item _ =>
      ⟨item.expr.covers_lax, fun _ _ => .of_free trivial⟩⟩
  | branch e | member e => exact hcode e.covers_lax

theorem Serves.serveAll {requests : List Request}
    (hmake : (serveAll labels requests).Makes c () c') : ∃ labels', Serves labels' c' := by
  induction requests generalizing labels c with
  | nil =>
    obtain ⟨-, rfl⟩ := makes_pure.1 hmake
    exact ⟨labels, h⟩
  | cons request rest ih =>
    obtain ⟨labels1, c₁, hfirst, hrest⟩ := makes_bind.1 hmake
    exact ih (h.serve hfirst).1 hrest

end

theorem serves_start (hbuilder : c.builder = {}) (hroutines : c.routines = []) (hmake : start.Makes c () c') :
    Serves [] c' := by
  simp only [start, makes_bind, makes_emitAt, makes_modify] at hmake
  obtain ⟨_, _, ⟨rfl, rfl⟩, rfl⟩ := hmake
  have hbuilt : c.builder.emit (.of .init 0 1) = { ops := #[.of .init 0 1] } := by rw [hbuilder]; rfl
  refine ⟨⟨hbuilt ▸ aimed_start, ?_⟩, List.forall_mem_nil _, ?_, ?_⟩
  · rw [hroutines]
    exact List.forall_mem_nil _
  · rw [hbuilder]
    rfl
  · simp only [hbuilt]
    rfl

/-! ## The constants -/

theorem computeHoisted_works {E : Ends} {hs : List Hoisted} (h : ∀ x ∈ hs, T.Covers x.expr ∧ T.Writes K x.reg) :
    Works L T K E (computeHoisted hs) := by
  induction hs with
  | nil => exact .done _
  | cons x rest ih =>
    obtain ⟨⟨hexpr, hreg⟩, hrest⟩ := List.forall_mem_cons.1 h
    exact .next ((coded_fits hexpr).exact hreg) fun _ => ih hrest

theorem computeHoisted_aims (hs : List Hoisted) : Aims z [] (computeHoisted hs) :=
  Follows.aims (computeHoisted_works fun x _ => ⟨x.expr.covers_lax, .of_free trivial⟩)

/-- What a finished program looks like: the instructions of the body up to a Halt, the constants behind it, and a
jump back. -/
structure Patched (halt : Nat) (p : Program) : Prop where
  init : p.ops[0]? = some (.of .init 0 (halt + 1))
  halts : p.ops[halt]? = some (.of .halt)
  target : ∀ (a : Nat) i, p.ops[a]? = some i → i.canJump = true → 1 ≤ i.p2 ∧ i.p2 < p.ops.size
  /-- No other jump leads to the constants. -/
  entered : ∀ (a : Nat) i, p.ops[a]? = some i → i.canJump = true → i.p2 = halt + 1 → a = 0

section

variable (h : Serves labels c)

include h

theorem Serves.unloaded (hfirst : z.first ≤ c.builder.ops.size + 1)
    (hclosed : ∀ x : Int, 1 ≤ x → x ≤ c.builder.ops.size → ¬ z.closed x)
    (hwaits : ∀ w ∈ c.builder.fixups, z.first ≤ w.1) :
    { c with builder := c.builder.emit (.of .halt) }.unloaded.Aimed z fun a => a = 0 := by
  refine ⟨h.aimed.code.halted hfirst hclosed hwaits, fun q hq => ?_⟩
  obtain ⟨hpos, hle, -⟩ := h.aimed.routines q hq
  refine ⟨hpos, ?_, fun hbarred => hclosed _ hpos hle (z.closed_of_barred _ hbarred)⟩
  show q.2.entry ≤ ((c.builder.emit (.of .halt)).jumpHere 0).ops.size
  simp only [Builder.jumpHere, Builder.modifyAt_size, Builder.emit_size]
  omega

theorem Serves.init_halted :
    ((c.builder.emit (.of .halt)).jumpHere 0).ops[0]? = some (.of .init 0 (c.builder.ops.size + 1)) := by
  have hpos : 0 < c.builder.ops.size := h.aimed.code.first_le
  have hinit : (c.builder.emit (.of .halt)).ops[0]? = some (.of .init 0 1) :=
    (Builder.emit_getElem?_lt hpos).trans h.init
  refine (Builder.modifyAt_getElem?_self 0 _).trans ?_
  rw [hinit]
  simp [Instr.of, Builder.here]

theorem Serves.halt_halted : ((c.builder.emit (.of .halt)).jumpHere 0).ops[c.builder.ops.size]? = some (.of .halt) := by
  have hpos : 0 < c.builder.ops.size := h.aimed.code.first_le
  rw [Builder.jumpHere, Builder.modifyAt_getElem?_ne (by omega)]
  simp [Builder.emit]

theorem Serves.unloaded_body :
    { c with builder := c.builder.emit (.of .halt) }.unloaded.Aimed .body fun a => a = 0 := by
  refine h.unloaded (Nat.le_add_left 1 _) (fun x hx _ hzero => ?_) fun w hw =>
    (h.aimed.code.waits w hw).1.resolve_left id
  rw [show x = 0 from hzero] at hx
  cases hx

/-- If no jump of the body waits, the address of the constants can be closed to jumps. -/
theorem Serves.unloaded_constants (hfixups : c.builder.fixups = []) :
    { c with builder := c.builder.emit (.of .halt) }.unloaded.Aimed (.constants c.builder.ops.size)
      fun a => a = 0 := by
  refine h.unloaded (Nat.le_refl _) (fun x _ hx heq => ?_) fun w hw => ?_
  · simp only [Region.constants] at heq
    omega
  · rw [hfixups] at hw
    cases hw

end

section

variable {c₂ : Compiler} (h : Serves labels c)
  (hfinish : Finishes c { c with builder := c.builder.emit (.of .halt) } c₂ c' p) {i : Instr}

include h hfinish

/-- Where a program could be finished, no jump of the body has been waiting. -/
theorem Serves.fixups_eq_nil : c.builder.fixups = [] := by
  -- The constants are first taken as part of the body: jumps of the body that wait go on waiting in them.
  have hspan := computeHoisted_aims _ _ _ _ _ h.unloaded_body (List.forall_mem_nil _) hfinish.constants
  refine List.eq_nil_iff_forall_not_mem.2 fun w hw => ?_
  have hpending := hspan.code.pending w (by simpa [Compiler.unloaded, Compiler.patch, Builder.emit] using hw)
  rw [hfinish.fixups_eq_nil] at hpending
  exact List.not_mem_nil hpending

theorem Serves.spans_constants : { c with builder := c.builder.emit (.of .halt) }.unloaded.Spans
    (.constants c.builder.ops.size) (fun a => a = 0) [] {} c₂ :=
  computeHoisted_aims _ _ _ _ _ (h.unloaded_constants (h.fixups_eq_nil hfinish)) (List.forall_mem_nil _)
    hfinish.constants

theorem Serves.finished_getElem? {n : Nat} (hn : n < c.builder.ops.size + 1)
    (hi : ((c.builder.emit (.of .halt)).jumpHere 0).ops[n]? = some i) (hcopy : i.opcode ≠ .copy) :
    p.ops[n]? = some i := by
  have hspan := h.spans_constants hfinish
  have hsize : c.builder.ops.size + 1 ≤ c₂.builder.ops.size := hspan.code.aimed.first_le
  rw [hfinish.ops_eq_push, Array.getElem?_push, if_neg (by omega)]
  exact hspan.code.kept.getElem? hn hi hcopy

/-- A jump of the finished program is its first instruction, or its target is in the program and not closed. -/
theorem Serves.finished_lands {a : Nat} (hi : p.ops[a]? = some i) (hj : i.canJump) :
    a = 0 ∨ c₂.builder.Lands (.constants c.builder.ops.size) i.p2 := by
  have hspan := h.spans_constants hfinish
  have hpos : 1 ≤ c.builder.ops.size := h.aimed.code.first_le
  have hsize : c.builder.ops.size + 1 ≤ c₂.builder.ops.size := hspan.code.aimed.first_le
  rw [hfinish.ops_eq_push, Array.getElem?_push] at hi
  split at hi
  · -- The jump back to the body.
    cases hi
    refine .inr ⟨Int.le_refl 1, ?_, ?_⟩
    · show (1 : Int) ≤ _
      omega
    · show (1 : Int) ≠ c.builder.ops.size + 1
      omega
  · rcases hspan.code.aimed.jumps a i hi hj with (hzero | hnone) | hwait | hland
    · exact .inl (Int.ofNat.inj hzero)
    · cases hnone
    · simp [hfinish.fixups_eq_nil] at hwait
    · exact .inr (hland.elim id fun hcall => hcall.2)

end

theorem Serves.finish (h : Serves labels c) (hmake : finish.Makes c p c') : ∃ halt, Patched halt p := by
  obtain ⟨c₁, c₂, hfinish⟩ := finish_makes hmake h.start
  obtain rfl := makes_emit.1 hfinish.halt
  have hinit := h.finished_getElem? hfinish (Nat.succ_pos _) h.init_halted Opcode.noConfusion
  have hhalt := h.finished_getElem? hfinish (Nat.lt_succ_self _) h.halt_halted Opcode.noConfusion
  refine ⟨c.builder.ops.size, hinit, hhalt, fun a i hi hj => ?_, fun a i hi hj hentry => ?_⟩
  · have hsize : p.ops.size = c₂.builder.ops.size + 1 := by rw [hfinish.ops_eq_push, Array.size_push]
    have hgrown : c.builder.ops.size + 1 ≤ c₂.builder.ops.size := (h.spans_constants hfinish).code.aimed.first_le
    rcases h.finished_lands hfinish hi hj with rfl | ⟨hge, hle, -⟩
    · cases hinit.symm.trans hi
      simp only [of]
      omega
    · omega
  · exact (h.finished_lands hfinish hi hj).resolve_right fun hland => hland.2.2 hentry

end Gen

/-! ## Runs -/

namespace Machine

variable {ops : Array Instr} {q : Nat × Machine}

/-- Where a Return at the address leads to. -/
def returnAddress? (ops : Array Instr) (a : Nat) (m : Machine) : Option Nat :=
  match ops[a]? with
  | some i => if i.opcode = .ret then some ((m.register i.p1).asInteger.toInt + 1).toNat else none
  | none => none

/-- The step of a run at an address: where it leads to; none if the run ends there. -/
def next? (ops : Array Instr) (a : Nat) (m : Machine) : Option (Nat × Machine) :=
  match ops[a]? with
  | none => none
  | some i =>
    match (i.step a).outcome m with
    | (.error _, _) => none
    | (.ok flow, m1) => (nextAddress a i flow).map (·, m1)

/-- The addresses that a run comes to in so many steps at most, with the machine at each of them. -/
def visits (ops : Array Instr) : (steps : Nat) → Nat × Machine → List (Nat × Machine)
  | 0, q => [q]
  | steps + 1, q =>
    q :: match next? ops q.1 q.2 with
      | none => []
      | some q' => visits ops steps q'

theorem visits_of_none (h : next? ops q.1 q.2 = none) (steps : Nat) : visits ops (steps + 1) q = [q] := by
  rw [visits, h]

theorem visits_of_some {q' : Nat × Machine} (h : next? ops q.1 q.2 = some q') (steps : Nat) :
    visits ops (steps + 1) q = q :: visits ops steps q' := by
  rw [visits, h]

theorem visits_eq_cons (ops : Array Instr) (steps : Nat) (q : Nat × Machine) :
    visits ops steps q = q :: (visits ops steps q).tail := by
  cases steps <;> rfl

theorem eq_step_of_next? {a b : Nat} {m m1 : Machine} (h : next? ops a m = some (b, m1)) :
    ∃ i flow, ops[a]? = some i ∧ (i.step a).outcome m = (.ok flow, m1) ∧ nextAddress a i flow = some b := by
  unfold next? at h
  split at h
  · cases h
  · rename_i i hi
    split at h
    · cases h
    · rename_i flow m' hstep
      obtain ⟨_, hb, ⟨⟩⟩ := Option.map_eq_some_iff.1 h
      exact ⟨i, flow, hi, hstep, hb⟩

end Machine

namespace Gen

open Machine

variable {halt : Nat} {p : Program}

/-- A step that leads to the start of the program or to its constants is that of the first instruction, or a
Return. -/
theorem Patched.step {a b : Nat} {m m1 : Machine} (h : Patched halt p) (hnext : next? p.ops a m = some (b, m1))
    (hentry : b = 0 ∨ b = halt + 1) : a = 0 ∨ returnAddress? p.ops a m = some b := by
  obtain ⟨i, flow, hi, hstep, hb⟩ := eq_step_of_next? hnext
  cases flow with
  | next =>
    -- The instruction before the constants halts, so no step leads on to them.
    cases hb
    obtain rfl : a = halt := by omega
    cases h.halts.symm.trans hi
    cases hstep
  | jump =>
    cases hb
    have hjump := canJump_of_jump hstep
    have hpos := (h.target a i hi hjump).1
    exact .inl (h.entered a i hi hjump (by omega))
  | goto target =>
    cases hb
    have hret := (flows_step i a m _ m1 hstep).2 b rfl
    cases i
    cases hret
    cases hstep
    exact .inr (by simp [returnAddress?, hi])
  | halt => cases hb

/-- Once it has left the start of the program, a run comes to the constants only if a Return leads there, or back to
the start. -/
theorem Patched.visits_tail_ne (h : Patched halt p) {steps : Nat} {q : Nat × Machine} (hzero : q.1 ≠ 0)
    (hreturns : ∀ v ∈ visits p.ops steps q, ∀ b, returnAddress? p.ops v.1 v.2 = some b → b ≠ 0 ∧ b ≠ halt + 1) :
    ∀ v ∈ (visits p.ops steps q).tail, v.1 ≠ halt + 1 := by
  induction steps generalizing q with
  | zero => exact List.forall_mem_nil _
  | succ steps ih =>
    cases hnext : next? p.ops q.1 q.2 with
    | none =>
      rw [visits_of_none hnext]
      exact List.forall_mem_nil _
    | some q' =>
      rw [visits_of_some hnext] at hreturns ⊢
      obtain ⟨hreturn, hrest⟩ := List.forall_mem_cons.1 hreturns
      have hstep (hb : q'.1 = 0 ∨ q'.1 = halt + 1) : False := by
        obtain ⟨hne, hne'⟩ := hreturn _ ((h.step hnext hb).resolve_left hzero)
        exact hb.elim hne hne'
      rw [List.tail_cons, visits_eq_cons]
      exact List.forall_mem_cons.2 ⟨fun hb => hstep (.inr hb), ih (fun hb => hstep (.inl hb)) hrest⟩

theorem Patched.next_zero (h : Patched halt p) (m : Machine) : next? p.ops 0 m = some (halt + 1, m) := by
  unfold next?
  rw [h.init]
  rfl

end Gen

section

open Gen Machine

variable {requests : List Request} {c c' : Compiler} {p : Program}

/-- In the program of any requests, every instruction that can jump has its target in the program, behind the first
instruction. The first instruction leads to the constants, right behind the Halt that ends the body, and no other
jump does. A run comes to them by its first step, and a second time only if a Return leads there, or to the start. -/
theorem Gen.jumps_patched (hbuilder : c.builder = {}) (hroutines : c.routines = [])
    (h : (program requests).Makes c p c') :
    (∀ (a : Nat) i, p.ops[a]? = some i → i.canJump = true → 1 ≤ i.p2 ∧ i.p2 < p.ops.size) ∧
      ∃ halt : Nat, p.ops[0]? = some (.of .init 0 (halt + 1)) ∧ p.ops[halt]? = some (.of .halt) ∧
        (∀ (a : Nat) i, p.ops[a]? = some i → i.canJump = true → i.p2 = halt + 1 → a = 0) ∧
        ∀ steps m, (∀ v ∈ visits p.ops steps (0, m), ∀ b, returnAddress? p.ops v.1 v.2 = some b →
            b ≠ 0 ∧ b ≠ halt + 1) →
          ∀ v ∈ (visits p.ops steps (0, m)).drop 2, v.1 ≠ halt + 1 := by
  simp only [program, makes_bind] at h
  obtain ⟨⟨⟩, c₁, hstart, ⟨⟩, c₂, hserve, hfinish⟩ := h
  obtain ⟨labels, hserves⟩ := (serves_start hbuilder hroutines hstart).serveAll hserve
  obtain ⟨halt, hpatched⟩ := hserves.finish hfinish
  refine ⟨hpatched.target, halt, hpatched.init, hpatched.halts, hpatched.entered, fun steps m hreturns => ?_⟩
  cases steps with
  | zero => exact List.forall_mem_nil _
  | succ steps =>
    have hvisits := visits_of_some (hpatched.next_zero m) steps (q := (0, m))
    rw [hvisits] at hreturns ⊢
    rw [List.drop_succ_cons, List.drop_one]
    exact hpatched.visits_tail_ne (Nat.succ_ne_zero halt) (List.forall_mem_cons.1 hreturns).2

end

namespace Example

/-- A sub-select of expressions, behind another arm. -/
def selectOf (id : Identity) (es : List Expr) (sources : List Source) (prior : Option Select) : Select :=
  .mk { id, columns := es.map fun e => { expr := e }, sources, prior }

def parameter : Expr := .ofKind (.param 1 "?1")

def inTable : Expr :=
  .ofKind (.inSelect 1 parameter (selectOf 2 [.ofKind (.column ⟨5, 0, some table, none⟩)] [⟨table, 5, none⟩] none))

def inItems : Expr :=
  .ofKind (.inList 3 parameter [⟨literal 1, false, 0⟩, ⟨literal 2, false, 0⟩, ⟨parameter, false, 0⟩])

def firstRow : Expr :=
  .ofKind (.subquery 4 (selectOf 5 [.ofKind (.column ⟨6, 0, some table, none⟩)] [⟨table, 6, none⟩] none))

/-- A value, a branch, a test for membership and a list, with two labels of the caller behind the row. -/
def asked : List Request :=
  [.label, .label, .registers 3, .value inTable 1,
    .branch (.ofKind (.binary .and inTable (.ofKind (.unary .notNull firstRow)))) false 0 true, .member inItems 0 1,
    .list { full := true, factor := true } [⟨firstRow, false, 0⟩, ⟨parameter, false, 0⟩] 2 0,
    .write (.of .resultRow 1 3) rfl, .resolve 0, .resolve 1]

end Example

open Example Gen Machine in
/-- A program of 72 instructions, with routines that are shared by a value and a branch. Its jumps lead into it, and
its run on ?1 = 2 comes to the constants, at the address 69, once. -/
theorem Gen.jumps_patched_asked :
    ∃ p c m, (program asked).Makes (.new .empty {}) p c ∧ p.run .empty store [.integer 2] = (.ok (), m) ∧
      m.rows = #[[.integer 1, .integer 1, .integer 2]] ∧ p.ops.size = 72 ∧
      (∀ (a : Nat) i, p.ops[a]? = some i → i.canJump = true → 1 ≤ i.p2 ∧ i.p2 < 72 ∧ (i.p2 = 69 → a = 0)) ∧
      ∀ v ∈ (visits p.ops 100 (0, .start p .empty store [.integer 2])).drop 2, v.1 ≠ 69 := by
  obtain ⟨p, c, m, h, hrun, hrows⟩ := Gen.of_delivered?
    (show (program asked).delivered? .empty {} store [.integer 2] = some #[[.integer 1, .integer 1, .integer 2]] by
      decide +kernel)
  have htest := Gen.test_of_makes h (show ((program asked).run (.new .empty {})).1.toOption.all (fun p =>
    p.ops.size == 72 && p.ops[0]?.map (·.p2) == some 69 &&
      (visits p.ops 100 (0, .start p .empty store [.integer 2])).all fun v =>
        (returnAddress? p.ops v.1 v.2).all fun b => b != 0 && b != 69) = true by decide +kernel)
  simp only [Bool.and_eq_true, beq_iff_eq, List.all_eq_true, Option.all_eq_true, bne_iff_ne] at htest
  obtain ⟨⟨hsize, hentry⟩, hreturns⟩ := htest
  obtain ⟨htarget, halt, hinit, -, hentered, hvisits⟩ := Gen.jumps_patched rfl rfl h
  obtain rfl : halt = 68 := by
    rw [hinit] at hentry
    have hentry : (halt : Int) + 1 = 69 := Option.some.inj hentry
    omega
  refine ⟨p, c, m, h, hrun, hrows, hsize, fun a i hi hj => ?_, hvisits 100 _ hreturns⟩
  obtain ⟨hpos, hlt⟩ := htarget a i hi hj
  exact ⟨hpos, by omega, hentered a i hi hj⟩

namespace Example

/-- (SELECT 1, 23, 3 UNION ALL SELECT 9): the first arm is wider than the sub-query. -/
def widened : Expr :=
  .ofKind (.subquery 1 (selectOf 1 [literal 9] [] (some (selectOf 2 [literal 1, literal 23, literal 3] [] none))))

/-- CASE WHEN ?1 THEN x ELSE 0 END and (SELECT x + 1), with x the same sub-query. -/
def overwriting : List Request :=
  [.registers 2, .value (.ofKind (.caseOf none [(parameter, widened)] (some (literal 0)))) 1,
    .value (.ofKind (.subquery 3 (selectOf 3 [.ofKind (.binary .add widened (literal 1))] [] none))) 2]

end Example

open Example Gen Machine in
/-- The wider arm of the sub-query writes the register of the return address of the routine that calls it: the Return
at the address 21 leads to the constants, at the address 24, which are computed twice. -/
theorem Gen.constants_entered_by_return :
    ((program overwriting).run (.new .empty {})).1.toOption.map (fun p =>
        (p.ops[0]?.map (·.p2), (visits p.ops 40 (0, .start p .empty .empty [.integer 0])).map Prod.fst)) =
      some (some 24, [0, 24, 25, 26, 1, 14, 15, 16, 17, 18, 3, 4, 5, 6, 7, 8, 11, 19, 20, 21, 24, 25, 26, 1, 14, 15, 16,
        21, 22, 23]) := by
  decide +kernel

end ScalarSql
