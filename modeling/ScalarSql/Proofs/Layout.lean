import ScalarSql.Proofs.Jumps

/-!
# The layout of a finished program

The section of constants at the end of a program holds the code of one constant behind that of the other. No jump
leads from the code of a constant anywhere but into it or right behind it, and no jump leads out of the body
(`Gen.Laid`). Only calls of routines lead elsewhere. So a run whose calls all return passes through the code of each
constant once, in their order, and then stays in the body (`Gen.Laid.passes`).
-/

namespace ScalarSql

open Instr

variable {blocks : List Block} {first last : Nat} {i : Instr}

/-- The code of a constant from an address on. No jump leads before it or to its first instruction. -/
def Region.constant (first : Nat) (h : 1 ≤ first) : Region where
  first := first
  closed a := a ≤ first
  barred _ := False
  first_pos := h
  closed_le _ := id
  closed_of_barred _ := False.elim

/-- The code of a constant in a program, from an address up to another one. -/
structure Block where
  constant : Hoisted
  first : Nat
  last : Nat

/-- Blocks stand in a row between two addresses. -/
def Block.InRow : List Block → (first last : Nat) → Prop
  | [], first, last => first = last
  | b :: rest, first, last => b.first = first ∧ b.first ≤ b.last ∧ InRow rest b.last last

/-- The instructions of the block are those that computing the constant writes, but for copies that were made wider
afterwards. Jumps that are no calls lead into the block, behind its first instruction, or right behind it. -/
structure Block.Computes (ops : Array Instr) (b : Block) : Prop where
  /-- Computing the constant writes the instructions. -/
  code : ∃ c c', (b.constant.expr.coded.exact b.constant.reg).Makes c () c' ∧ c.builder.ops.size = b.first ∧
    c'.builder.ops.size = b.last ∧ ∀ a < b.last, ∀ i, c'.builder.ops[a]? = some i →
      ∃ j, ops[a]? = some j ∧ i.Widens (fun _ => True) j
  jumps : ∀ (a : Nat) i, b.first ≤ a → a < b.last → ops[a]? = some i → i.canJump = true → i.opcode ≠ .gosub →
    b.first < i.p2 ∧ i.p2 ≤ b.last

theorem Block.InRow.le (h : InRow blocks first last) : first ≤ last := by
  induction blocks generalizing first with
  | nil => exact Nat.le_of_eq h
  | cons b rest ih => exact h.1 ▸ Nat.le_trans h.2.1 (ih h.2.2)

theorem Block.InRow.last_le (h : InRow blocks first last) : ∀ b ∈ blocks, b.last ≤ last := by
  induction blocks generalizing first with
  | nil => exact List.forall_mem_nil _
  | cons b rest ih => exact List.forall_mem_cons.2 ⟨h.2.2.le, ih h.2.2⟩

theorem Instr.Widens.eq_of_canJump {extra : Int → Prop} {j : Instr} (h : i.Widens extra j) (hjump : j.canJump) :
    j = i := by
  refine h.eq_of_ne fun hcopy => ?_
  rw [canJump, h.opcode_eq, hcopy] at hjump
  cases hjump

theorem Block.Computes.push {ops ops' : Array Instr} {b : Block} (h : b.Computes ops) (hlast : b.last ≤ ops.size)
    (hops : ops' = ops.push i) : b.Computes ops' := by
  have hget {a : Nat} (ha : a < b.last) : ops'[a]? = ops[a]? := by
    rw [hops, Array.getElem?_push, if_neg (by omega)]
  obtain ⟨⟨c, c', hmake, hfirst, hend, hcode⟩, hjumps⟩ := h
  refine ⟨⟨c, c', hmake, hfirst, hend, fun a ha => ?_⟩, fun a i hge hlt hi => ?_⟩
  · rw [hget ha]
    exact hcode a ha
  · rw [hget hlt] at hi
    exact hjumps a i hge hlt hi

namespace Gen

variable {c c' : Compiler} {loose : Int → Prop} {labels : List Label} {p : Program}

section

variable (h : c.Aimed .body loose)

include h

theorem aimed_constant : c.Aimed (.constant c.builder.ops.size h.code.first_le) fun a => a < c.builder.ops.size where
  code :=
    { first_le := Nat.le_refl _
      jumps := fun _ _ hi _ => .inl (Int.ofNat_lt.2 (Array.getElem?_eq_some_iff.1 hi).1)
      labels := h.code.labels
      waits := fun w hw => have hwaits := (h.code.waits w hw).2; ⟨.inl (Int.ofNat_lt.2 hwaits.1), hwaits⟩ }
  routines q hq := ⟨(h.routines q hq).1, (h.routines q hq).2.1, id⟩

/-- Behind a step of the constants, the jumps so far can be followed as those of the body. -/
theorem aimed_of_aims {α : Type} {g : Gen α} {a : α} (hg : Aims .body [] g)
    (hmake : g.Makes c a c') : c'.Aimed .body loose := by
  have hspan := hg loose c a c' h (List.forall_mem_nil _) hmake
  exact ⟨hspan.code.aimed.mono fun _ ha => ha.elim id (List.not_mem_nil · |>.elim), hspan.routines⟩

theorem fixups_of_aims {α : Type} {g : Gen α} {a : α} (hg : Aims .body [] g)
    (hmake : g.Makes c a c') (hfixups : c'.builder.fixups = []) : c.builder.fixups = [] := by
  refine List.eq_nil_iff_forall_not_mem.2 fun w hw => ?_
  have hpending := (hg loose c a c' h (List.forall_mem_nil _) hmake).code.pending w hw
  rw [hfixups] at hpending
  exact List.not_mem_nil hpending

theorem computeHoisted_blocks {hs : List Hoisted} (hmake : (computeHoisted hs).Makes c () c')
    (hfixups : c'.builder.fixups = []) : ∃ blocks : List Block, blocks.map Block.constant = hs ∧
      Block.InRow blocks c.builder.ops.size c'.builder.ops.size ∧ ∀ b ∈ blocks, b.Computes c'.builder.ops := by
  induction hs generalizing c with
  | nil =>
    obtain ⟨-, rfl⟩ := makes_pure.1 hmake
    exact ⟨[], rfl, rfl, List.forall_mem_nil _⟩
  | cons x rest ih =>
    obtain ⟨⟨⟩, c1, hfirst, hrest⟩ := makes_bind.1 hmake
    have hx (z : Region) : Aims z [] (x.expr.coded.exact x.reg) :=
      Follows.aims (x.expr.coded_fits_lax.exact (.of_free trivial))
    have h1 := aimed_of_aims h (hx _) hfirst
    have hfixups1 := fixups_of_aims h1 (computeHoisted_aims rest) hrest hfixups
    -- The code of the first constant, and what is left of it behind the rest.
    have hspan := hx _ _ _ _ _ (aimed_constant h) (List.forall_mem_nil _) hfirst
    have hspan1 := computeHoisted_aims rest _ _ _ _ (aimed_constant h1) (List.forall_mem_nil _) hrest
    have hkept := hspan1.code.kept
    obtain ⟨blocks, hblocks, hrow, hcomputes⟩ := ih h1 hrest
    refine ⟨⟨x, c.builder.ops.size, c1.builder.ops.size⟩ :: blocks, by simp [hblocks], ⟨rfl, hspan.code.size_le, hrow⟩,
      List.forall_mem_cons.2 ⟨⟨⟨c, c1, hfirst, rfl, rfl, hkept⟩, fun a j hge hlt hj hjump hcall => ?_⟩, hcomputes⟩⟩
    -- A jump is no copy, so it is what it was behind the constant.
    obtain ⟨i, hi⟩ : ∃ i, c1.builder.ops[a]? = some i := ⟨_, Array.getElem?_eq_getElem hlt⟩
    obtain ⟨j', hj', hwidens⟩ := hkept a hlt i hi
    cases hj.symm.trans hj'
    obtain rfl := hwidens.eq_of_canJump hjump
    rcases hspan.code.aimed.jumps a j hi hjump with (hloose | hnone) | hwait | hland | hgosub
    · exact absurd (Int.ofNat_lt.1 hloose) (Nat.not_lt.2 hge)
    · cases hnone
    · simp [hfixups1] at hwait
    · exact ⟨Int.not_le.1 hland.2.2, hland.2.1⟩
    · exact absurd hgosub.1 hcall

end

theorem Serves.finished_body {c2 : Compiler} (h : Serves labels c)
    (hfinish : Finishes c { c with builder := c.builder.emit (.of .halt) } c2 c' p) {a : Nat} {j : Instr}
    (hpos : 1 ≤ a) (hlt : a < c.builder.ops.size) (hj : p.ops[a]? = some j) (hjump : j.canJump) :
    1 ≤ j.p2 ∧ j.p2 ≤ c.builder.ops.size := by
  have hspan := h.spans_constants hfinish
  have hsize : c.builder.ops.size + 1 ≤ c2.builder.ops.size := hspan.code.aimed.first_le
  obtain ⟨i, hi⟩ : ∃ i, c.builder.ops[a]? = some i := ⟨_, Array.getElem?_eq_getElem hlt⟩
  have hhalted : ((c.builder.emit (.of .halt)).jumpHere 0).ops[a]? = some i := by
    rw [Builder.jumpHere, Builder.modifyAt_getElem?_ne (by omega), Builder.emit_getElem?_lt hlt, hi]
  obtain ⟨j', hj', hwidens⟩ := hspan.code.kept a (Nat.lt_succ_of_lt hlt) i hhalted
  rw [hfinish.ops_eq_push, Array.getElem?_push, if_neg (by omega)] at hj
  cases hj.symm.trans hj'
  obtain rfl := hwidens.eq_of_canJump hjump
  rcases h.aimed.code.jumps a j hi hjump with hnone | hwait | hland
  · exact hnone.elim
  · simp [h.fixups_eq_nil hfinish] at hwait
  · exact hland.bounds

/-- What a finished program looks like: a body up to a Halt, blocks of constants in a row behind it, and a jump back.
Jumps of the body lead into it. -/
structure Laid (halt : Nat) (blocks : List Block) (last : Nat) (ops : Array Instr) : Prop where
  init : ops[0]? = some (.of .init 0 (halt + 1))
  halts : ops[halt]? = some (.of .halt)
  halt_pos : 1 ≤ halt
  body : ∀ (a : Nat) i, 1 ≤ a → a < halt → ops[a]? = some i → i.canJump = true → 1 ≤ i.p2 ∧ i.p2 ≤ halt
  row : Block.InRow blocks (halt + 1) last
  computes : ∀ b ∈ blocks, b.Computes ops
  back : ops[last]? = some (.of .goto 0 1)
  size : ops.size = last + 1

/-- A finished program has a layout, with a block for each constant that was set aside. -/
theorem Serves.laid (h : Serves labels c) (hmake : Gen.finish.Makes c p c') :
    ∃ blocks last, blocks.map Block.constant = c.hoisted.toList ∧ Laid c.builder.ops.size blocks last p.ops := by
  obtain ⟨c1, c2, hfinish⟩ := finish_makes hmake h.start
  obtain rfl := makes_emit.1 hfinish.halt
  obtain ⟨blocks, hblocks, hrow, hcomputes⟩ :=
    computeHoisted_blocks h.unloaded_body hfinish.constants hfinish.fixups_eq_nil
  have hsize : ({ c with builder := c.builder.emit (.of .halt) } : Compiler).unloaded.builder.ops.size =
      c.builder.ops.size + 1 := by
    simp [Compiler.unloaded, Compiler.patch]
  rw [hsize] at hrow
  have hops := hfinish.ops_eq_push
  refine ⟨blocks, c2.builder.ops.size, hblocks, ?_⟩
  exact
    { init := h.finished_getElem? hfinish (Nat.succ_pos _) h.init_halted Opcode.noConfusion
      halts := h.finished_getElem? hfinish (Nat.lt_succ_self _) h.halt_halted Opcode.noConfusion
      halt_pos := h.aimed.code.first_le
      body := fun a i hpos hlt hi hjump => h.finished_body hfinish hpos hlt hi hjump
      row := hrow
      computes := fun b hb => (hcomputes b hb).push (hrow.last_le b hb) hops
      back := by rw [hops, Array.getElem?_push_size]
      size := by rw [hops, Array.size_push] }

end Gen

/-! ## Runs whose calls return -/

/-- A place in a run: an address, and the addresses that the open calls return to, the last call first. -/
structure Place where
  address : Nat
  calls : List Nat
deriving DecidableEq

/-- The addresses that are come to outside of calls. -/
def Place.outside (places : List Place) : List Nat := (places.filter (·.calls.isEmpty)).map (·.address)

theorem Place.outside_append (ps qs : List Place) : outside (ps ++ qs) = outside ps ++ outside qs := by
  simp [outside]

theorem Place.outside_cons (a : Nat) (ps : List Place) : outside (⟨a, []⟩ :: ps) = a :: outside ps := rfl

theorem Place.outside_eq_nil {ps : List Place} (h : ∀ v ∈ ps, v.calls ≠ []) : outside ps = [] := by
  simpa [outside] using h

namespace Machine

/-- The open calls behind a step from `a` to `b`. A call is opened by Gosub. A Return leads to the instruction behind
it, or it ends the last call; if it leads elsewhere there is no answer. -/
def openCalls? (ops : Array Instr) (a b : Nat) (calls : List Nat) : Option (List Nat) :=
  match ops[a]?.map opcode with
  | some .gosub => some ((a + 1) :: calls)
  | some .ret =>
    if b = a + 1 then some calls
    else if calls.head? = some b then some calls.tail
    else none
  | _ => some calls

/-- The places that a run comes to up to the end of the body, the Halt at the given address. There is no answer if it
does not come there in so many steps with no call open, or if a Return leads elsewhere than a call comes from. -/
def trace? (ops : Array Instr) (halt : Nat) : (steps : Nat) → Nat × Machine → (calls : List Nat) → Option (List Place)
  | 0, _, _ => none
  | steps + 1, (a, m), calls =>
    if a = halt then if calls = [] then some [⟨halt, []⟩] else none
    else
      match next? ops a m with
      | none => none
      | some (b, m1) =>
        match openCalls? ops a b calls with
        | none => none
        | some calls1 => (trace? ops halt steps (b, m1) calls1).map (⟨a, calls⟩ :: ·)

variable {ops : Array Instr} {halt steps a : Nat} {m : Machine} {calls : List Nat} {trace : List Place}

theorem step_of_trace? (h : trace? ops halt steps (a, m) calls = some trace) (hne : a ≠ halt) :
    ∃ steps1 b m1 calls1 rest, steps = steps1 + 1 ∧ next? ops a m = some (b, m1) ∧
      openCalls? ops a b calls = some calls1 ∧ trace? ops halt steps1 (b, m1) calls1 = some rest ∧
      trace = ⟨a, calls⟩ :: rest := by
  cases steps with
  | zero => cases h
  | succ steps =>
    rw [trace?, if_neg hne] at h
    split at h
    · cases h
    · rename_i b m1 hnext
      split at h
      · cases h
      · rename_i calls1 hcalls
        obtain ⟨rest, hrest, rfl⟩ := Option.map_eq_some_iff.1 h
        exact ⟨steps, b, m1, calls1, rest, rfl, hnext, hcalls, hrest, rfl⟩

theorem calls_of_trace? (h : trace? ops halt steps (halt, m) calls = some trace) :
    calls = [] ∧ trace = [⟨halt, []⟩] := by
  cases steps with
  | zero => cases h
  | succ steps =>
    rw [trace?, if_pos rfl] at h
    split at h
    · rename_i hcalls
      cases h
      exact ⟨hcalls, rfl⟩
    · cases h

/-- Where a step leads to: a call is opened or ended, or the run goes on to the next instruction or by a jump. -/
theorem openCalls?_cases {b : Nat} {m1 : Machine} {calls1 : List Nat} (hnext : next? ops a m = some (b, m1))
    (hcalls : openCalls? ops a b calls = some calls1) :
    (calls1 = (a + 1) :: calls ∧ (b = a + 1 ∨ ∃ i, ops[a]? = some i ∧ i.canJump ∧ b = i.p2.toNat)) ∨
      calls = b :: calls1 ∨
      calls1 = calls ∧ (b = a + 1 ∨ ∃ i, ops[a]? = some i ∧ i.canJump ∧ i.opcode ≠ .gosub ∧ b = i.p2.toNat) := by
  obtain ⟨i, flow, hi, hstep, hb⟩ := eq_step_of_next? hnext
  -- Without a Return, a step leads to the next instruction or to the target of the jump.
  have hflow (hret : i.opcode ≠ .ret) : b = a + 1 ∨ i.canJump ∧ b = i.p2.toNat := by
    cases flow with
    | next =>
      cases hb
      exact .inl rfl
    | jump =>
      cases hb
      exact .inr ⟨canJump_of_jump hstep, rfl⟩
    | goto target => exact absurd ((flows_step i a m _ m1 hstep).2 target rfl) hret
    | halt => cases hb
  unfold openCalls? at hcalls
  rw [hi, Option.map_some] at hcalls
  split at hcalls
  · rename_i hcall
    cases hcalls
    have hgosub : i.opcode = .gosub := Option.some.inj hcall
    exact .inl ⟨rfl, (hflow (by rw [hgosub]; exact Opcode.noConfusion)).imp_right fun hjump => ⟨i, hi, hjump⟩⟩
  · split at hcalls
    · rename_i hb
      cases hcalls
      exact .inr (.inr ⟨rfl, .inl hb⟩)
    · split at hcalls
      · rename_i hhead
        cases hcalls
        exact .inr (.inl (List.eq_cons_of_mem_head? hhead))
      · cases hcalls
  · rename_i hcall hret
    cases hcalls
    refine .inr (.inr ⟨rfl, (hflow fun h => hret (congrArg some h)).imp_right fun hjump => ?_⟩)
    exact ⟨i, hi, hjump.1, fun h => hcall (congrArg some h), hjump.2⟩

/-- A call that is open returns, and until then the run is inside of it. -/
theorem trace?_returns {q : Nat × Machine} {r : Nat} (inner : List Nat)
    (h : trace? ops halt steps q (inner ++ r :: calls) = some trace) :
    ∃ before rest steps1 m1, trace = before ++ rest ∧ (∀ v ∈ before, v.calls ≠ []) ∧ steps1 < steps ∧
      trace? ops halt steps1 (r, m1) calls = some rest := by
  induction steps generalizing q inner trace with
  | zero => cases h
  | succ steps ih =>
    obtain ⟨a, m⟩ := q
    have hopen : inner ++ r :: calls ≠ [] := by simp
    have hne : a ≠ halt := by
      rintro rfl
      exact hopen (calls_of_trace? h).1
    obtain ⟨steps1, b, m1, calls1, rest, hsteps, hnext, hcalls, hrest, rfl⟩ := step_of_trace? h hne
    obtain rfl := Nat.succ.inj hsteps
    -- Unless this step returns from the call, it is still open behind it.
    have hinside (inner1 : List Nat) (heq : calls1 = inner1 ++ r :: calls) :
        ∃ before rest' steps1 m1, ⟨a, inner ++ r :: calls⟩ :: rest = before ++ rest' ∧ (∀ v ∈ before, v.calls ≠ []) ∧
          steps1 < steps + 1 ∧ trace? ops halt steps1 (r, m1) calls = some rest' := by
      rw [heq] at hrest
      obtain ⟨before, rest', steps1, m1, rfl, hbefore, hlt, hrest'⟩ := ih inner1 hrest
      exact ⟨⟨a, inner ++ r :: calls⟩ :: before, rest', steps1, m1, rfl, List.forall_mem_cons.2 ⟨hopen, hbefore⟩,
        Nat.lt_succ_of_lt hlt, hrest'⟩
    rcases openCalls?_cases hnext hcalls with ⟨hcall, -⟩ | hreturn | ⟨hsame, -⟩
    · exact hinside ((a + 1) :: inner) hcall
    · cases inner with
      | nil =>
        cases hreturn
        exact ⟨[⟨a, r :: calls⟩], rest, steps, m1, rfl, by simp, Nat.lt_succ_self _, hrest⟩
      | cons _ inner =>
        cases hreturn
        exact hinside inner rfl
    · exact hinside inner hsame

end Machine

/-- Control has passed through a block by way of the given addresses: it has come in at the first instruction. -/
def Block.Passed (b : Block) (part : List Nat) : Prop :=
  (∀ a ∈ part, b.first ≤ a ∧ a < b.last) ∧ (b.first < b.last → part.head? = some b.first)

namespace Gen

open Machine

variable {ops : Array Instr} {halt steps last a : Nat} {m : Machine} {calls : List Nat} {trace : List Place}
  {blocks : List Block}

theorem passes_block {b : Block} (hb : b.Computes ops) (hhalt : halt < b.first)
    (h : trace? ops halt steps (a, m) [] = some trace) (hge : b.first ≤ a) (hle : a ≤ b.last) :
    ∃ before rest steps1 m1, trace = before ++ rest ∧ trace? ops halt steps1 (b.last, m1) [] = some rest ∧
      (∀ x ∈ Place.outside before, b.first ≤ x ∧ x < b.last) ∧
      (a < b.last → (Place.outside before).head? = some a) := by
  induction steps using Nat.strongRecOn generalizing a m trace with
  | ind steps ih =>
    rcases Nat.lt_or_eq_of_le hle with hlt | rfl
    · obtain ⟨steps1, x, m1, calls1, rest, rfl, hnext, hcalls, hrest, rfl⟩ := step_of_trace? h (by omega)
      -- Wherever the run goes on outside of calls, the rest of its way through the block is known.
      have hon {steps2 x : Nat} {m2 : Machine} {rest' : List Place} (inside : List Place) (hlt : steps2 < steps1 + 1)
          (hinside : Place.outside inside = []) (hx : b.first ≤ x) (hx' : x ≤ b.last)
          (htrace : trace? ops halt steps2 (x, m2) [] = some rest') :
          ∃ before rest steps1 m1, ⟨a, []⟩ :: (inside ++ rest') = before ++ rest ∧
            trace? ops halt steps1 (b.last, m1) [] = some rest ∧
            (∀ x ∈ Place.outside before, b.first ≤ x ∧ x < b.last) ∧
            (a < b.last → (Place.outside before).head? = some a) := by
        obtain ⟨before, rest, steps3, m3, rfl, htrace', hbefore, -⟩ := ih steps2 hlt htrace hx hx'
        refine ⟨⟨a, []⟩ :: (inside ++ before), rest, steps3, m3, by simp, htrace', ?_, fun _ => ?_⟩
        · rw [Place.outside_cons, Place.outside_append, hinside]
          exact List.forall_mem_cons.2 ⟨⟨hge, by assumption⟩, hbefore⟩
        · rw [Place.outside_cons]
          rfl
      rcases openCalls?_cases hnext hcalls with ⟨rfl, -⟩ | hreturn | ⟨rfl, rfl | ⟨i, hi, hjump, hcall, rfl⟩⟩
      · obtain ⟨before, rest', steps2, m2, rfl, hbefore, hsteps, hrest'⟩ := trace?_returns [] hrest
        exact hon before (Nat.lt_succ_of_lt hsteps) (Place.outside_eq_nil hbefore) (by omega) hlt hrest'
      · cases hreturn
      · exact hon [] (Nat.lt_succ_self _) rfl (by omega) hlt hrest
      · obtain ⟨hfirst, hlast⟩ := hb.jumps a i hge hlt hi hjump hcall
        exact hon [] (Nat.lt_succ_self _) rfl (by omega) (by omega) hrest
    · exact ⟨[], trace, steps, m, rfl, h, List.forall_mem_nil _, fun hlt => absurd hlt (Nat.lt_irrefl _)⟩

theorem passes_row {first : Nat} (hrow : Block.InRow blocks first last) (hblocks : ∀ b ∈ blocks, b.Computes ops)
    (hhalt : halt < first) (h : trace? ops halt steps (first, m) [] = some trace) :
    ∃ before rest steps1 m1 parts, trace = before ++ rest ∧ trace? ops halt steps1 (last, m1) [] = some rest ∧
      Place.outside before = List.flatten parts ∧ List.Forall₂ Block.Passed blocks parts := by
  induction blocks generalizing first steps m trace with
  | nil =>
    obtain rfl : first = last := hrow
    exact ⟨[], trace, steps, m, [], rfl, h, rfl, .nil⟩
  | cons b blocks ih =>
    obtain ⟨rfl, hle, hrow⟩ := hrow
    obtain ⟨hb, hblocks⟩ := List.forall_mem_cons.1 hblocks
    obtain ⟨before, rest, steps1, m1, rfl, hrest, hinside, hhead⟩ := passes_block hb hhalt h (Nat.le_refl _) hle
    obtain ⟨before', rest', steps2, m2, parts, rfl, hrest', hparts, hpassed⟩ :=
      ih hrow hblocks (Nat.lt_of_lt_of_le hhalt hle) hrest
    refine ⟨before ++ before', rest', steps2, m2, Place.outside before :: parts, by simp, hrest', ?_, ?_⟩
    · rw [Place.outside_append, hparts, List.flatten_cons]
    · exact .cons ⟨hinside, hhead⟩ hpassed

theorem Laid.stays (h : Laid halt blocks last ops) (ha : 1 ≤ a ∧ a ≤ halt) (hcalls : ∀ r ∈ calls, 1 ≤ r ∧ r ≤ halt)
    (htrace : trace? ops halt steps (a, m) calls = some trace) : ∀ v ∈ trace, 1 ≤ v.address ∧ v.address ≤ halt := by
  induction steps generalizing a m calls trace with
  | zero => cases htrace
  | succ steps ih =>
    rcases Nat.lt_or_eq_of_le ha.2 with hlt | rfl
    · obtain ⟨steps1, b, m1, calls1, rest, hsteps, hnext, hopen, hrest, rfl⟩ := step_of_trace? htrace (by omega)
      obtain rfl := Nat.succ.inj hsteps
      have hbody {i : Instr} (hi : ops[a]? = some i) (hjump : i.canJump) : 1 ≤ i.p2.toNat ∧ i.p2.toNat ≤ halt := by
        have := h.body a i ha.1 hlt hi hjump
        omega
      have hnext' : 1 ≤ a + 1 ∧ a + 1 ≤ halt := by omega
      refine List.forall_mem_cons.2 ⟨ha, ?_⟩
      rcases openCalls?_cases hnext hopen with
        ⟨rfl, rfl | ⟨i, hi, hjump, rfl⟩⟩ | rfl | ⟨rfl, rfl | ⟨i, hi, hjump, -, rfl⟩⟩
      · exact ih hnext' (List.forall_mem_cons.2 ⟨hnext', hcalls⟩) hrest
      · exact ih (hbody hi hjump) (List.forall_mem_cons.2 ⟨hnext', hcalls⟩) hrest
      · obtain ⟨hb, hcalls⟩ := List.forall_mem_cons.1 hcalls
        exact ih hb hcalls hrest
      · exact ih hnext' hcalls hrest
      · exact ih (hbody hi hjump) hcalls hrest
    · obtain ⟨-, rfl⟩ := calls_of_trace? htrace
      exact List.forall_mem_singleton.2 ⟨h.halt_pos, Nat.le_refl _⟩

/-- A run to the end of the body passes through the blocks of the constants, one after the other, before it comes to
the body, and then it stays there. -/
theorem Laid.passes (h : Laid halt blocks last ops) (htrace : trace? ops halt steps (0, m) [] = some trace) :
    ∃ constants body parts, trace = ⟨0, []⟩ :: (constants ++ ⟨last, []⟩ :: body) ∧
      Place.outside constants = List.flatten parts ∧ List.Forall₂ Block.Passed blocks parts ∧
      ∀ v ∈ body, 1 ≤ v.address ∧ v.address ≤ halt := by
  have hhalt := h.halt_pos
  obtain ⟨steps1, b, m1, calls1, rest, rfl, hnext, hopen, hrest, rfl⟩ := step_of_trace? htrace (by omega)
  have hinit : next? ops 0 m = some (halt + 1, m) := by
    unfold next?
    rw [h.init]
    rfl
  cases hinit.symm.trans hnext
  obtain rfl : [] = calls1 := by simpa [openCalls?, h.init] using hopen
  obtain ⟨constants, rest, steps2, m2, parts, rfl, hrest, hparts, hpassed⟩ :=
    passes_row h.row h.computes (Nat.lt_succ_self halt) hrest
  have hlast : halt < last := h.row.le
  obtain ⟨steps3, b, m3, calls3, body, rfl, hnext, hopen, hbody, rfl⟩ := step_of_trace? hrest (by omega)
  have hback : next? ops last m2 = some (1, m2) := by
    unfold next?
    rw [h.back]
    rfl
  cases hback.symm.trans hnext
  obtain rfl : [] = calls3 := by simpa [openCalls?, h.back] using hopen
  exact ⟨constants, body, parts, rfl, hparts, hpassed, h.stays ⟨Nat.le_refl 1, hhalt⟩ (List.forall_mem_nil _) hbody⟩

end Gen

end ScalarSql
