import ScalarSql.Proofs.Jumps

/-!
# Constants and the registers of the pool

A constant that is set aside keeps its register to the end, so the register must be no scratch
register. A ledger holds the registers that were taken for good: those of constants are among them,
and free registers are not. Each rule of generators keeps the ledger, and so does all that a caller
may do, as long as no call has more arguments than the mask of its constant ones has bits
(`Gen.constants_never_scratch`). The constant of a wider call may get a scratch register, which other
code overwrites (`Gen.constant_in_scratch`).
-/

namespace ScalarSql

variable {T : Terms} {l : Ledger} {c : Compiler} {f : Fact}

/-- Terms on which constants are set aside in registers that were taken for good. -/
def Terms.pinning : Terms := { Terms.lax with pins := True }

/-- All calls in the expression, also those in sub-selects, have at most 32 arguments. -/
def Expr.Narrow (e : Expr) : Prop := Terms.pinning.Covers e

theorem Terms.Covers.narrow {e : Expr} (h : T.Covers e) (hpins : T.pins) : e.Narrow := by
  have htree (t : Tree) (ht : t.Covered T) : t.Covered .pinning := by
    induction ht with
    | intro here _ ih =>
      exact .intro (fun x hx => ⟨⟨.inl trivial, fun _ => (here x hx).1.2 hpins⟩, .of_unlimited rfl⟩) ih
  exact htree _ h

/-! ## Ledgers -/

abbrev Ledger := Int → Prop

namespace Ledger

/-- The ledger is that of a compilation in the given state. -/
structure Keeps (l : Ledger) (c : Compiler) : Prop where
  taken : ∀ r, l r → ¬ c.Free r
  pooled : ∀ r, c.Pooled r → r ≤ c.highest
  /-- The registers of constants that are set aside were taken for good. -/
  hoisted : ∀ k ∈ c.hoisted.toList, l k.reg ∧ k.expr.Narrow

/-- The compilation goes on from the state and the ledger `l` to another state and the ledger `l'`. -/
structure Becomes (l : Ledger) (c : Compiler) (l' : Ledger) (c' : Compiler) : Prop where
  keeps : l'.Keeps c'
  highest : c.highest ≤ c'.highest
  fixed : ∀ r, l r → l' r
  new : ∀ r, l' r → l r ∨ c.highest < r

/-- The register was taken, but not for good. -/
def Scratch (l : Ledger) (c : Compiler) (r : Int) : Prop := ¬ l r ∧ r ≤ c.highest

variable {l l₁ l' : Ledger} {c c₁ c' : Compiler} {r : Int}

theorem Becomes.trans (h : l.Becomes c l₁ c₁) (h' : l₁.Becomes c₁ l' c') : l.Becomes c l' c' where
  keeps := h'.keeps
  highest := Int.le_trans h.highest h'.highest
  fixed r hr := h'.fixed r (h.fixed r hr)
  new r hr := (h'.new r hr).elim (h.new r) fun hlt => .inr (Int.lt_of_le_of_lt h.highest hlt)

theorem Becomes.scratch (h : l.Becomes c l' c') (hr : l.Scratch c r) : l'.Scratch c' r :=
  ⟨fun hfixed => (h.new r hfixed).elim hr.1 (Int.not_lt.2 hr.2), Int.le_trans hr.2 h.highest⟩

namespace Keeps

variable {back : Int → Prop}

theorem idle (h : l.Keeps c) (hhighest : c'.highest = c.highest) (hpool : c'.pool = c.pool)
    (hrange : c'.poolRange = c.poolRange) (hhoisted : ∀ k ∈ c'.hoisted.toList, l k.reg ∧ k.expr.Narrow) :
    l.Becomes c l c' := by
  have hpooled (r : Int) : c'.Pooled r ↔ c.Pooled r := by rw [Compiler.Pooled, hpool, hrange, Compiler.Pooled]
  refine ⟨⟨fun r hr hfree => h.taken r hr ?_, fun r hr => ?_, hhoisted⟩, Int.le_of_eq hhighest.symm, fun _ => id,
    fun _ => .inl⟩
  · exact hfree.imp (hpooled r).1 (hhighest ▸ id)
  · exact hhighest ▸ h.pooled r ((hpooled r).1 hr)

theorem build {b : Builder} (h : l.Keeps c) (hc' : c' = { c with builder := b }) : l.Becomes c l c' := by
  subst hc'
  exact h.idle rfl rfl rfl h.hoisted

/-- Registers are taken, some of the new ones for good, and scratch registers are released. -/
theorem draw (new : Int → Prop) (h : l.Keeps c) (hdraws : c.Draws back c') (hback : ∀ r, back r → l.Scratch c r)
    (hnew : ∀ r, new r → c.highest < r ∧ r ≤ c'.highest) : l.Becomes c (fun r => l r ∨ new r) c' where
  keeps :=
    { taken := by
        rintro r hr (hpooled | hlt)
        · rcases hr with hr | hr <;> rcases hdraws.pooled r hpooled with hpooled | hreleased
          · exact h.taken r hr (.inl hpooled)
          · exact (hback r hreleased).1 hr
          · exact absurd (hnew r hr).1 (Int.not_lt.2 (h.pooled r hpooled))
          · exact absurd (hnew r hr).1 (Int.not_lt.2 (hback r hreleased).2)
        · rcases hr with hr | hr
          · exact h.taken r hr (.inr (Int.lt_of_le_of_lt hdraws.highest hlt))
          · exact absurd (hnew r hr).2 (Int.not_le.2 hlt)
      pooled := fun r hr =>
        Int.le_trans ((hdraws.pooled r hr).elim (h.pooled r) fun hr => (hback r hr).2) hdraws.highest
      hoisted := by
        rw [hdraws.same]
        exact fun k hk => (h.hoisted k hk).imp_left .inl }
  highest := hdraws.highest
  fixed _ := .inl
  new r hr := hr.imp_right fun hr => (hnew r hr).1

theorem lend (h : l.Keeps c) (hdraws : c.Draws back c') (hback : ∀ r, back r → l.Scratch c r) : l.Becomes c l c' := by
  have hbecomes := h.draw (fun _ => False) hdraws hback (fun _ => False.elim)
  simpa using hbecomes

theorem supply (h : l.Keeps c) (hdraws : c.Draws (fun _ => False) c') (hr : c.Supplies c' r) : l.Scratch c' r := by
  rcases hr with hpooled | ⟨hlt, hle⟩
  · exact ⟨fun hfixed => h.taken r hfixed (.inl hpooled), Int.le_trans (h.pooled r hpooled) hdraws.highest⟩
  · exact ⟨fun hfixed => h.taken r hfixed (.inr hlt), hle⟩

theorem push {k : Hoisted} (h : l.Keeps c) (hreg : l k.reg) (hexpr : k.expr.Narrow) :
    l.Becomes c l { c with hoisted := c.hoisted.push k } := by
  refine h.idle rfl rfl rfl ?_
  rw [Array.toList_push]
  exact List.forall_mem_append.2 ⟨h.hoisted, List.forall_mem_singleton.2 ⟨hreg, hexpr⟩⟩

end Keeps

end Ledger

/-- What a fact says of the kinds of registers. -/
def Fact.Noted (l : Ledger) (c : Compiler) : Fact → Prop
  | scratch r => l.Scratch c r
  | fixed r => l r
  | given p => p
  | _ => True

theorem Fact.Noted.mono {l' : Ledger} {c' : Compiler} (h : f.Noted l c) (hl : l.Becomes c l' c') : f.Noted l' c' := by
  cases f with
  | scratch r => exact hl.scratch h
  | fixed r => exact hl.fixed r h
  | given p => exact h
  | _ => trivial

theorem Terms.Knows.noted {K : Facts} (h : T.Knows K f) (hK : ∀ f ∈ K, f.Noted l c) : f.Noted l c := by
  cases f with
  | given p => exact h.elim (hK _) id
  | scratch | fixed => exact hK _ h
  | _ => trivial

namespace Gen

variable {α : Type} {L : List Label} {T : Terms} {K : Facts} {E : Ends} {E' : α → Ends} {Q : α → Facts} {g : Gen α}
  {l : Ledger} {c c' : Compiler} {a : α} {r first : Int} {n : Nat}

/-! ## Rules -/

theorem Rule.becomes (h : Rule L T K E g E' Q) (hpins : T.pins) (hK : ∀ f ∈ K, f.Noted l c) (hl : l.Keeps c)
    (hmake : g.Makes c a c') : ∃ l', l.Becomes c l' c' ∧ ∀ f ∈ Q a, f.Noted l' c' := by
  cases h with
  | idle h =>
    obtain ⟨_, _, _, rfl⟩ := h.still c a c' hmake
    exact ⟨l, hl.idle rfl rfl rfl hl.hoisted, by simp⟩
  | checkHeight =>
    cases makes_checkHeight hmake
    exact ⟨l, hl.idle rfl rfl rfl hl.hoisted, by simp⟩
  | emit | emitBack | emitNull => exact ⟨l, hl.build (makes_emit.1 hmake), by simp⟩
  | emitAt =>
    refine ⟨l, hl.build (makes_emitAt.1 hmake).2, ?_⟩
    rintro f (rfl | rfl) <;> trivial
  | emitLoose =>
    refine ⟨l, hl.build (makes_emitAt.1 hmake).2, ?_⟩
    rintro f (rfl | rfl | ⟨rfl, -⟩) <;> trivial
  | emitJump =>
    refine ⟨l, hl.build (makes_emitJump.1 hmake), ?_⟩
    rintro f ⟨⟩
    trivial
  | here =>
    obtain ⟨rfl, rfl⟩ := makes_here.1 hmake
    refine ⟨l, hl.build rfl, ?_⟩
    rintro f ⟨⟩
    trivial
  | label => exact ⟨l, hl.build (makes_label.1 hmake).2, by simp⟩
  | resolve => exact ⟨l, hl.build (makes_resolve.1 hmake), by simp⟩
  | jumpHere => exact ⟨l, hl.build (makes_jumpHere.1 hmake), by simp⟩
  | cancel | setRegister | setNumber => exact ⟨l, hl.build (makes_modifyAt.1 hmake), by simp⟩
  | listCopy m =>
    rcases listCopy_cases hmake with hemit | ⟨-, _, -, -, -, -, hwidened⟩
    · exact ⟨l, hl.build (makes_emit.1 hemit), by simp⟩
    · exact ⟨l, hl.build hwidened, by simp⟩
  | keepRoutine | keepShared =>
    obtain rfl := makes_modify.1 hmake
    exact ⟨l, hl.idle rfl rfl rfl hl.hoisted, by simp⟩
  | allocRegs n =>
    obtain ⟨hdraws, hnew⟩ := allocRegs_draws hmake
    refine ⟨_, hl.draw (fun r => ∃ k < n, r = a + (k : Nat)) hdraws (by simp) ?_, ?_⟩
    · rintro _ ⟨k, hk, rfl⟩
      exact hnew k hk
    · rintro f ⟨k, hk, rfl⟩
      exact .inr ⟨k, hk, rfl⟩
  | getTemp =>
    obtain ⟨hdraws, hr⟩ := getTemp_draws hmake
    refine ⟨l, hl.lend hdraws (by simp), ?_⟩
    rintro f ⟨⟩
    exact hl.supply hdraws hr
  | releaseTemp h => exact ⟨l, hl.lend (releaseTemp_draws hmake) (by rintro _ rfl; exact hK _ h), by simp⟩
  | getTempRange n =>
    obtain ⟨hdraws, hrow⟩ := getTempRange_draws hmake
    refine ⟨l, hl.lend hdraws (by simp), ?_⟩
    rintro f ⟨k, hk, rfl⟩
    exact hl.supply hdraws (hrow k hk)
  | releaseTempRange h =>
    exact ⟨l, hl.lend (releaseTempRange_draws hmake) (by rintro _ ⟨k, hk, rfl⟩; exact hK _ (h k hk)), by simp⟩
  | clearTemps => exact ⟨l, hl.lend (clearTemps_draws hmake) (by simp), by simp⟩
  | hoist he =>
    have hread (l' : Ledger) : ∀ f ∈ ({.reads a} : Facts), f.Noted l' c' := by
      rintro f ⟨⟩
      trivial
    rcases hoist_makes hmake with ⟨rfl, -⟩ | ⟨-, -, rfl⟩
    · exact ⟨l, hl.build rfl, hread l⟩
    · obtain ⟨hdraws, hnew⟩ := allocRegs_draws (n := 1) (makes_modifyGet.2 ⟨rfl, rfl⟩)
      have htaken := hl.draw (· = c.highest + 1) hdraws (by simp) (by simpa using hnew 0 Nat.one_pos)
      exact ⟨_, htaken.trans (htaken.keeps.push (.inr rfl) (he.narrow hpins)), hread _⟩
  | hoistAt he hr hfixed =>
    obtain rfl := hoistAt_makes hmake
    exact ⟨l, hl.push (hK _ (hfixed hpins)) (he.narrow hpins), by simp⟩

theorem Follows.becomes (h : Follows L T K E g E' Q) (hfree : T.free) (hpins : T.pins) (hK : ∀ f ∈ K, f.Noted l c)
    (hl : l.Keeps c) (hmake : g.Makes c a c') : ∃ l', l.Becomes c l' c' ∧ ∀ f ∈ Q a, f.Noted l' c' := by
  induction h generalizing l c c' with
  | rule h => exact h.becomes hpins hK hl hmake
  | bindMade hg hf ihg ihf =>
    obtain ⟨x, c₁, hfirst, hsecond⟩ := makes_bind.1 hmake
    obtain ⟨l₁, hl1, hQ⟩ := ihg hfree hpins hK hl hfirst
    have hK1 := Facts.forall_and hK (fun f hf => hf.mono hl1) hQ
    obtain ⟨l', hl', hQ'⟩ := ihf c x c₁ hfirst hfree hpins hK1 hl1.keeps hsecond
    exact ⟨l', hl1.trans hl', hQ'⟩
  | pure hE h =>
    obtain ⟨rfl, rfl⟩ := makes_pure.1 hmake
    exact ⟨l, hl.build rfl, fun f hf => (h f hf).noted hK⟩
  | throw => exact (makes_throw.1 hmake).elim
  | image hmade _ h ih =>
    obtain ⟨x, hx, rfl⟩ := hmade c a c' hmake
    exact ih hfree hpins hK hl hx
  | weaken h hlabels hjumps hQ ih =>
    obtain ⟨l', hl', hfacts⟩ := ih hfree hpins hK hl hmake
    exact ⟨l', hl', fun f hf => (hQ a f hf).noted (Facts.forall_and hK (fun f hf => hf.mono hl') hfacts)⟩
  | withState h ih =>
    rw [makes_get_bind] at hmake
    refine ih c (.inl hfree) hfree hpins (Facts.forall_and hK (fun _ => id) fun f hf => ?_) hl hmake
    cases hf <;> trivial
  | hereJump hj hi hl' h ih =>
    simp only [makes_bind, makes_here, makes_emitJump] at hmake
    obtain ⟨_, _, ⟨rfl, rfl⟩, _, c₁, hc1, hmake⟩ := hmake
    have hjump := hl.build hc1
    have hmark : ∀ f ∈ ({.mark (c.builder.here + 1)} : Facts), f.Noted l c₁ := by
      rintro f ⟨⟩
      trivial
    obtain ⟨l', hl', hQ⟩ := ih _ hfree hpins (Facts.forall_and hK (fun f hf => hf.mono hjump) hmark) hjump.keeps hmake
    exact ⟨l', hjump.trans hl', hQ⟩
  | use hp h ih => exact ih (hK _ hp) hfree hpins hK hl hmake
  | grant hrow h ih => exact ih hfree hpins hK hl hmake

theorem Follows.keeps (h : Follows L .pinning ∅ E g E' Q) (hl : l.Keeps c) (hmake : g.Makes c a c') :
    ∃ l', l.Becomes c l' c' ∧ ∀ f ∈ Q a, f.Noted l' c' :=
  h.becomes trivial trivial (by simp) hl hmake

/-! ## Callers -/

/-- What a caller does with the compiler. Blocks of scratch registers are named by their numbers, in the order in which
the caller got them. -/
inductive Event where
  | ask (request : Request)
  | row (mode : ListMode) (items : List (Item Expr)) (results : Int)
  | take (n : Nat)
  | giveBack (block : Nat)
  | constants

/-- What a caller has got: labels, and scratch registers as the first one and their number. -/
structure Hand where
  labels : List Label := []
  /-- Its scratch registers, also those that it gave back. -/
  blocks : List (Int × Nat) := []

def Event.run (hand : Hand) : Event → Gen Hand
  | .ask request => do return { hand with labels := ← request.serve hand.labels }
  | .row mode items results => do
    let first ← allocRegs items.length
    discard (exprList mode ((itemsCoded items).map Item.toCode) first results)
    return hand
  | .take n => do
    let first ← getTempRange n
    return { hand with blocks := hand.blocks ++ [(first, n)] }
  | .giveBack block =>
    match hand.blocks[block]? with
    | some b => do
      releaseTempRange b.1 b.2
      return hand
    | none => throw (.internal "no such block")
  | .constants => do
    let c ← get
    set { c with hoisting := false, hoisted := #[] }
    computeHoisted c.hoisted.toList
    return hand

def runAll : Hand → List Event → Gen Hand
  | hand, [] => return hand
  | hand, event :: rest => do runAll (← event.run hand) rest

/-- The calls of the request have at most 32 arguments, and it sets no constants aside in registers of the caller's
choice. -/
def Request.Narrow : Request → Prop
  | .registers n => 0 ≤ n
  | .value e _ | .branch e .. | .member e .. => e.Narrow
  | .list mode items .. => mode.factor = false ∧ ∀ item ∈ items, item.expr.Narrow
  | _ => True

def Event.Narrow : Event → Prop
  | .ask request => request.Narrow
  | .row _ items _ => ∀ item ∈ items, item.expr.Narrow
  | _ => True

/-- The scratch registers of the caller are known as such. -/
def Hand.Noted (l : Ledger) (c : Compiler) (hand : Hand) : Prop :=
  ∀ b ∈ hand.blocks, ∀ k < b.2, l.Scratch c (b.1 + (k : Nat))

variable {hand hand' : Hand} {labels labels' : List Label}

theorem Hand.Noted.mono {l' : Ledger} (h : hand.Noted l c) (hl : l.Becomes c l' c') : hand.Noted l' c' :=
  fun b hb k hk => hl.scratch (h b hb k hk)

theorem Request.serve_becomes {request : Request} (h : request.Narrow) (hl : l.Keeps c)
    (hmake : (request.serve labels).Makes c labels' c') : ∃ l', l.Becomes c l' c' := by
  have hserved (hsuits : request.Suits .pinning ∅) : ∃ l', l.Becomes c l' c' :=
    (hsuits.works.keeps hl hmake).imp fun _ => And.left
  cases request with
  | label =>
    obtain ⟨_, _, ⟨-, rfl⟩, -, rfl⟩ := hmake
    exact ⟨l, hl.build rfl⟩
  | resolve n =>
    simp only [Request.serve, makes_bind, makes_resolve, makes_pure] at hmake
    obtain ⟨_, _, hlabel, _, _, rfl, -, rfl⟩ := hmake
    obtain ⟨-, rfl⟩ := mem_of_labelOf hlabel
    exact ⟨l, hl.build rfl⟩
  | registers n => exact hserved h
  | write i hi => exact hserved (.of_free trivial)
  | value e reg => exact hserved ⟨h, .of_free trivial⟩
  | list mode items reg results =>
    exact hserved ⟨.of_free trivial, fun _ => h.1, fun item hitem =>
      ⟨h.2 item hitem, fun _ _ => .of_free trivial⟩⟩
  | branch e | member e => exact hserved h

theorem Event.run_becomes {event : Event} (h : event.Narrow) (hl : l.Keeps c) (hhand : hand.Noted l c)
    (hmake : (event.run hand).Makes c hand' c') : ∃ l', l.Becomes c l' c' ∧ hand'.Noted l' c' := by
  cases event with
  | ask request =>
    simp only [Event.run, makes_bind, makes_pure] at hmake
    obtain ⟨_, _, hmake, rfl, rfl⟩ := hmake
    obtain ⟨l', hl'⟩ := Request.serve_becomes h hl hmake
    exact ⟨l', hl', hhand.mono hl'⟩
  | row mode items results =>
    have hrow : Works [] .pinning ∅ {} (do
        let first ← allocRegs items.length
        discard (exprList mode ((itemsCoded items).map Item.toCode) first results)) := by
      refine .step (.allocRegs _) fun first => .discard (exprList_works mode
        (forall_itemCodes (List.forall_mem_map.2 fun item hitem => (Expr.coded_fits (h item hitem)).toFits))
        (fun _ _ _ _ => .of_free trivial) (fun _ _ _ k hk => ?_) (.of_free trivial))
      rw [List.length_map, length_itemsCoded] at hk
      exact .inr ⟨k, hk, rfl⟩
    simp only [Event.run, makes_bind, makes_pure] at hmake
    obtain ⟨first, c₁, halloc, _, _, hmake, rfl, rfl⟩ := hmake
    obtain ⟨l', hl', -⟩ := hrow.keeps hl (makes_bind.2 ⟨first, c₁, halloc, hmake⟩)
    exact ⟨l', hl', hhand.mono hl'⟩
  | take n =>
    simp only [Event.run, makes_bind, makes_pure] at hmake
    obtain ⟨first, _, hmake, rfl, rfl⟩ := hmake
    obtain ⟨hdraws, hrow⟩ := getTempRange_draws hmake
    have hl' := hl.lend hdraws (by simp)
    exact ⟨l, hl', List.forall_mem_append.2 ⟨hhand.mono hl', List.forall_mem_singleton.2 fun k hk =>
      hl.supply hdraws (hrow k hk)⟩⟩
  | giveBack block =>
    simp only [Event.run] at hmake
    split at hmake
    · rename_i b hb
      simp only [makes_bind, makes_pure] at hmake
      obtain ⟨_, _, hmake, rfl, rfl⟩ := hmake
      have hl' := hl.lend (releaseTempRange_draws hmake)
        (by rintro _ ⟨k, hk, rfl⟩; exact hhand b (List.mem_of_getElem? hb) k hk)
      exact ⟨l, hl', hhand.mono hl'⟩
    · exact (makes_throw.1 hmake).elim
  | constants =>
    simp only [Event.run, makes_bind, makes_get, makes_set, makes_pure] at hmake
    obtain ⟨_, _, ⟨rfl, rfl⟩, _, _, rfl, _, _, hmake, rfl, rfl⟩ := hmake
    have hset : l.Becomes c l { c with hoisting := false, hoisted := #[] } :=
      hl.idle rfl rfl rfl (List.forall_mem_nil _)
    have hworks : Works [] .pinning ∅ {} (computeHoisted c.hoisted.toList) :=
      computeHoisted_works fun k hk => ⟨(hl.hoisted k hk).2, .of_free trivial⟩
    obtain ⟨l', hl', -⟩ := hworks.keeps hset.keeps hmake
    exact ⟨l', hset.trans hl', hhand.mono (hset.trans hl')⟩

theorem runAll_becomes {events : List Event} (h : ∀ event ∈ events, event.Narrow) (hl : l.Keeps c)
    (hhand : hand.Noted l c) (hmake : (runAll hand events).Makes c hand' c') :
    ∃ l', l.Becomes c l' c' ∧ hand'.Noted l' c' := by
  induction events generalizing hand l c with
  | nil =>
    obtain ⟨rfl, rfl⟩ := makes_pure.1 hmake
    exact ⟨l, hl.build rfl, hhand⟩
  | cons event rest ih =>
    obtain ⟨hfirst, hrest⟩ := List.forall_mem_cons.1 h
    obtain ⟨hand1, c₁, hmake1, hmake'⟩ := makes_bind.1 hmake
    obtain ⟨l₁, hl1, hhand1⟩ := event.run_becomes hfirst hl hhand hmake1
    obtain ⟨l', hl', hhand'⟩ := ih hrest hl1.keeps hhand1 hmake'
    exact ⟨l', hl1.trans hl', hhand'⟩

end Gen

/-- Free registers were taken before, and constants are set aside in registers that are not free. Their calls have at
most 32 arguments. -/
def Compiler.Pins (c : Compiler) : Prop := Ledger.Keeps c.HoldsConstant c

/-- If calls have at most 32 arguments, a constant that is set aside at any point of a compilation has a register that
is neither free then nor ever after, that the caller never got as a scratch register, neither before nor later, and
that is above all registers that were taken at the start, unless it was that of a constant then. -/
theorem Gen.constants_never_scratch {c c₁ c₂ : Compiler} {earlier later : List Event} {hand hand' : Hand}
    (hc : c.Pins) (hearlier : ∀ event ∈ earlier, event.Narrow) (hlater : ∀ event ∈ later, event.Narrow)
    (h : (runAll {} earlier).Makes c hand c₁) (h' : (runAll hand later).Makes c₁ hand' c₂) :
    ∀ k ∈ c₁.hoisted.toList, ¬ c₁.Free k.reg ∧ ¬ c₂.Free k.reg ∧ (c.HoldsConstant k.reg ∨ c.highest < k.reg) ∧
      ∀ b ∈ hand.blocks ++ hand'.blocks, k.reg ∉ registerRow b.1 b.2 := by
  obtain ⟨l₁, hl₁, hhand⟩ := runAll_becomes hearlier hc (by simp [Hand.Noted]) h
  obtain ⟨l₂, hl₂, hhand'⟩ := runAll_becomes hlater hl₁.keeps hhand h'
  intro k hk
  have hfixed := (hl₁.keeps.hoisted k hk).1
  have hfixed' := hl₂.fixed _ hfixed
  refine ⟨hl₁.keeps.taken _ hfixed, hl₂.keeps.taken _ hfixed', hl₁.new _ hfixed, fun b hb hmem => ?_⟩
  obtain ⟨j, hj, heq⟩ := mem_registerRow.1 hmem
  have hscratch := List.forall_mem_append.2 ⟨hhand.mono hl₂, hhand'⟩ b hb j hj
  exact hscratch.1 (heq ▸ hfixed')

namespace Example

def absOne : Expr := .ofKind (.call "abs" [⟨literal 1, false, 0⟩] none)

/-- The greatest one of abs(1), as often as given, and another value. -/
def maxOf (n : Nat) (x : Expr) : Expr :=
  .ofKind (.call "max" (List.replicate n ⟨absOne, false, 0⟩ ++ [⟨x, false, 0⟩]) none)

/-- Two registers are taken and max(abs(1), 100) is computed. -/
def calling : List Gen.Event := [.take 2, .ask (.value (maxOf 1 (literal 100)) 1)]

/-- The two registers are given back, three are taken and the constants are computed. -/
def retaking : List Gen.Event := [.giveBack 0, .take 3, .constants]

theorem maxOf_narrow : (maxOf 1 (literal 100)).Narrow := by
  have hleaf (n : Int32) : Terms.pinning.Covers (literal n) :=
    .of_parts ⟨.inl trivial, fun _ => trivial⟩ (List.forall_mem_nil _) rfl (.of_unlimited rfl)
  have habs : Terms.pinning.Covers absOne :=
    .of_parts ⟨.inl trivial, fun _ => Nat.le_of_ble_eq_true rfl⟩ (List.forall_mem_singleton.2 (hleaf 1)) rfl
      (.of_unlimited rfl)
  exact .of_parts ⟨.inl trivial, fun _ => Nat.le_of_ble_eq_true rfl⟩
    (List.forall_mem_cons.2 ⟨habs, List.forall_mem_singleton.2 (hleaf 100)⟩) rfl (.of_unlimited rfl)

end Example

open Example Gen in
/-- The constants of max(abs(1), 100) get registers that the caller, which takes others before and after, does not. -/
theorem Gen.constants_never_scratch_max :
    ∃ hand c₁ hand' c₂, (runAll {} calling).Makes (.new .empty {}) hand c₁ ∧ (runAll hand retaking).Makes c₁ hand' c₂ ∧
      hand'.blocks = [(1, 2), (6, 3)] ∧ c₁.hoisted.toList.map (·.reg) = [5, 4] ∧ ¬ c₂.Free 5 ∧ ¬ c₂.Free 4 := by
  obtain ⟨hand, c₁, h, htest⟩ := exists_makes (fun hand c₁ => c₁.hoisted.toList.map (·.reg) == [5, 4] &&
      ((runAll hand retaking).run c₁).1.toOption.any fun hand' : Hand => hand'.blocks == [(1, 2), (6, 3)])
    (show ((runAll {} calling).run (.new .empty {})).1.toOption.any _ = true by decide +kernel)
  obtain ⟨hregs, hlater⟩ := Bool.and_eq_true_iff.1 htest
  obtain ⟨hand', c₂, h', hblocks⟩ := exists_makes (fun (hand' : Hand) _ => hand'.blocks == [(1, 2), (6, 3)]) hlater
  have hregs := beq_iff_eq.1 hregs
  have hnew : (Compiler.new .empty {}).Pins := by
    refine ⟨?_, ?_, List.forall_mem_nil _⟩
    · rintro r ⟨k, hk, -⟩
      cases hk
    · rintro r (hr | ⟨hge, hlt⟩)
      · cases hr
      · simp only [Compiler.new] at hge hlt
        omega
  have hall := constants_never_scratch hnew (by simp [calling, Event.Narrow, Request.Narrow, maxOf_narrow])
    (by simp [retaking, Event.Narrow]) h h'
  have htaken (r : Int) (hr : r ∈ [(5 : Int), 4]) : ¬ c₂.Free r := by
    obtain ⟨k, hk, rfl⟩ := List.mem_map.1 (hregs ▸ hr)
    exact (hall k hk).2.1
  exact ⟨hand, c₁, hand', c₂, h, h', beq_iff_eq.1 hblocks, hregs, htaken 5 (by simp), htaken 4 (by simp)⟩

open Example Gen in
/-- The mask has no place for the last one of 33 arguments. The constant 100 is set aside in a
scratch register, which is free after the call, and which the code of another call overwrites. -/
theorem Gen.constant_in_scratch :
    (((maxOf 32 (literal 100)).coded.exact 1).run (.new .empty {})).2.hoisted.back?.map (·.reg) = some 33 ∧
      (((maxOf 32 (literal 100)).coded.exact 1).run (.new .empty {})).2.poolRange = (1, 33) ∧
      (evaluation {} [maxOf 32 (literal 100)]).delivered? .empty {} .empty [] = some #[[.integer 100]] ∧
      (evaluation {} [maxOf 32 absOne, maxOf 32 (literal 100)]).delivered? .empty {} .empty [] =
        some #[[.integer 1, .integer 1]] := by
  decide +kernel

end ScalarSql
