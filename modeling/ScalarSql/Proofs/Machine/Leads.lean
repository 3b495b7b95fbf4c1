import ScalarSql.Machine.Run

/-!
# Runs of the machine

`Leads ops Q X n a m` says that the machine `m`, at the address `a` of the instructions `ops`, takes
at most `n` steps to a place that satisfies `Q`, or to an instruction that fails, and that only if
`X` holds. It is a statement about the run itself and not about what follows it, so that the runs of
pieces of code can be put together (`Leads.bind`). Each step goes to the next instruction or to the one
that a jump names: a routine returns to the instruction behind it.
-/

namespace ScalarSql

open Instr

namespace Exec

variable {α β : Type}

/-- The outcome of a step of the machine: its result or its error, and the machine it leaves. -/
def outcome (g : Exec α) (m : Machine) : Except RunError α × Machine := g.run m

@[simp]
theorem outcome_pure (a : α) (m : Machine) : (pure a : Exec α).outcome m = (.ok a, m) := rfl

@[simp]
theorem outcome_bind (g : Exec α) (f : α → Exec β) (m : Machine) : (g >>= f).outcome m = match g.outcome m with
      | (.ok a, m1) => (f a).outcome m1
      | (.error e, m1) => (.error e, m1) := by
  simp only [outcome, ExceptT.run, ExceptT.bind, ExceptT.mk, bind, StateT.bind]
  rcases g m with ⟨_ | _, _⟩ <;> rfl

@[simp]
theorem outcome_map (g : Exec α) (f : α → β) (m : Machine) : (f <$> g).outcome m = match g.outcome m with
      | (.ok a, m1) => (.ok (f a), m1)
      | (.error e, m1) => (.error e, m1) := by
  rw [map_eq_pure_bind, outcome_bind]
  rfl

@[simp]
theorem outcome_throw (e : RunError) (m : Machine) : (throw e : Exec α).outcome m = (.error e, m) := rfl

@[simp]
theorem outcome_get (m : Machine) : (get : Exec Machine).outcome m = (.ok m, m) := rfl

@[simp]
theorem outcome_set (m m' : Machine) : (set m' : Exec PUnit).outcome m = (.ok ⟨⟩, m') := rfl

@[simp]
theorem outcome_modify (f : Machine → Machine) (m : Machine) : (modify f : Exec PUnit).outcome m = (.ok ⟨⟩, f m) := rfl

@[simp]
theorem outcome_read (r : Int) (m : Machine) : (read r).outcome m = (.ok (m.register r), m) := rfl

theorem outcome_write {r : Int} (h : 0 ≤ r) (v : Value) (m : Machine) :
    (write r v).outcome m = (.ok ⟨⟩, m.setRegister r.toNat v) := by
  simp [write, Int.not_lt.2 h]

theorem outcome_cursor {n : Int} {m : Machine} {c : Cursor} (h : m.cursor? n = some c) :
    (cursor n).outcome m = (.ok c, m) := by
  simp [cursor, h]

end Exec

/-! ## Jumps -/

namespace Instr

/-- Whether the instruction can jump to the address in `p2`; a comparison that stores its outcome cannot. -/
def canJump (i : Instr) : Bool := i.opcode.jumps && !(i.opcode.isComparison && i.mode.store)

/-- Whatever the step returns satisfies the condition. -/
def Returns (P : Flow → Prop) (g : Exec Flow) : Prop :=
  ∀ m flow m1, g.outcome m = (.ok flow, m1) → P flow

variable {P : Flow → Prop} {i : Instr}

theorem Returns.pure {flow : Flow} (h : P flow) : Returns P (pure flow) := by
  rintro m _ m1 ⟨⟩
  exact h

theorem Returns.throw (e : RunError) : Returns P (throw e) := by
  intro m flow m1 h
  cases h

theorem Returns.bind {α : Type} {g : Exec α} {f : α → Exec Flow} (h : ∀ a, Returns P (f a)) : Returns P (g >>= f) := by
  intro m flow m1 hrun
  rw [Exec.outcome_bind] at hrun
  split at hrun
  · rename_i a m' _
    exact h a m' flow m1 hrun
  · cases hrun

theorem returns_compare (h : i.mode.store) : Returns (· = .next) i.compare := by
  refine .bind fun m => ?_
  split
  · refine .bind fun _ => ?_
    rw [if_pos h]
    exact .bind fun _ => .pure rfl
  · refine .bind fun _ => ?_
    rw [if_pos h]
    split
    · exact .bind fun _ => .pure rfl
    · exact .pure rfl

/-- How an instruction may go on: it jumps only if it names an address, and only a Return computes one. -/
def Flows (i : Instr) (flow : Flow) : Prop :=
  (flow = .jump → i.opcode.jumps = true) ∧ ∀ target, flow = .goto target → i.opcode = .ret

theorem flows_next (i : Instr) : i.Flows .next := ⟨Flow.noConfusion, fun _ => Flow.noConfusion⟩

section

variable (h : i.opcode.jumps)

include h

theorem flows_jump : i.Flows .jump := ⟨fun _ => h, fun _ => Flow.noConfusion⟩

theorem flows_jumpIf (b : Bool) : i.Flows (.jumpIf b) := by
  cases b with
  | false => exact flows_next i
  | true => exact flows_jump h

theorem flows_compare : Returns i.Flows i.compare := by
  refine .bind fun m => ?_
  split
  · refine .bind fun _ => ?_
    split
    · exact .bind fun _ => .pure (flows_next i)
    · exact .pure (flows_jumpIf h _)
  · refine .bind fun _ => ?_
    extract_lets outcome
    split
    · split
      · exact .bind fun _ => .pure (flows_next i)
      · exact .pure (flows_next i)
    · exact .pure (flows_jumpIf h _)

theorem flows_seekRowid : Returns i.Flows i.seekRowid := by
  refine .bind fun _ => .bind fun c => ?_
  split
  · exact .bind fun _ => .pure (flows_jumpIf h _)
  · exact .throw _

theorem flows_rewind : Returns i.Flows i.rewind := by
  refine .bind fun c => .bind fun m => ?_
  split
  · exact .bind fun _ => .pure (flows_jump h)
  · exact .bind fun _ => .pure (flows_next i)

theorem flows_advance : Returns i.Flows i.advance := by
  refine .bind fun c => .bind fun m => ?_
  split
  · exact .bind fun _ => .pure (flows_jump h)
  · exact .bind fun _ => .pure (flows_next i)

end

theorem flows_step (i : Instr) (a : Nat) : Returns i.Flows (i.step a) := by
  obtain ⟨opcode, p1, p2, p3, p4, p5⟩ := i
  cases opcode with
  | eq | ne | lt | le | gt | ge => exact flows_compare rfl
  | init | goto => exact .pure (flows_jump rfl)
  | elseNotEq | ifTrue | ifFalse | isNull | notNull => exact .bind fun _ => .pure (flows_jumpIf rfl _)
  | found | notFound => exact .bind fun _ => .bind fun _ => .bind fun _ => .pure (flows_jumpIf rfl _)
  | seekRowid => exact flows_seekRowid rfl
  | rewind => exact flows_rewind rfl
  | next => exact flows_advance rfl
  | ret => exact .bind fun _ => .pure ⟨Flow.noConfusion, fun _ _ => rfl⟩
  | gosub => exact .bind fun _ => .pure (flows_jump rfl)
  | once =>
    refine .bind fun m => ?_
    split
    · exact .pure (flows_jump rfl)
    · exact .bind fun _ => .pure (flows_next _)
  | ifNullRow =>
    refine .bind fun c => ?_
    split
    · exact .bind fun _ => .pure (flows_jump rfl)
    · exact .pure (flows_next _)
  | halt =>
    simp only [step]
    split
    · exact .pure ⟨Flow.noConfusion, fun _ => Flow.noConfusion⟩
    · split <;> exact .throw _
  | _ =>
    simp only [step, unary, binary, call, openCursor, makeRecord, insertRecord, loadColumn]
    repeat (first
      | exact .pure (flows_next _)
      | exact .throw _
      | refine .bind fun _ => ?_
      | split)

theorem canJump_of_jump {a : Nat} {m m1 : Machine} (h : (i.step a).outcome m = (.ok .jump, m1)) : i.canJump := by
  have hjumps := (flows_step i a m _ m1 h).1 rfl
  rw [canJump, hjumps, Bool.true_and, Bool.not_eq_true', Bool.and_eq_false_iff]
  cases hstores : i.mode.store with
  | false => exact .inr rfl
  | true =>
    refine .inl (Bool.eq_false_iff.2 fun hcompares => ?_)
    have hcompare : i.step a = i.compare := by
      obtain ⟨opcode, p1, p2, p3, p4, p5⟩ := i
      cases opcode <;> first | rfl | cases hcompares
    rw [hcompare] at h
    cases returns_compare hstores m _ m1 h

end Instr

/-! ## Runs -/

/-- The machine at an address takes at most so many steps to where `Q` holds, or fails and `X`
holds. -/
inductive Leads (ops : Array Instr) (Q : Nat → Machine → Prop) (X : Prop) : Nat → Nat → Machine → Prop
  | done {n a m} (h : Q a m) : Leads ops Q X n a m
  /-- The machine takes a step, to the next instruction or by a jump. -/
  | step {n a b m m1 i flow} (hop : ops[a]? = some i) (hstep : (i.step a).outcome m = (.ok flow, m1))
      (hnext : Machine.nextAddress a i flow = some b) (hdirect : b = a + 1 ∨ flow = .jump)
      (h : Leads ops Q X n b m1) : Leads ops Q X (n + 1) a m
  | fail {n a m m1 i e} (hop : ops[a]? = some i)
      (hstep : (i.step a).outcome m = (.error e, m1)) (h : X) : Leads ops Q X (n + 1) a m

namespace Leads

variable {ops : Array Instr} {Q Q1 : Nat → Machine → Prop} {X X1 : Prop} {n k a : Nat} {m m1 : Machine}
  {i : Instr}

theorem mono (h : Leads ops Q X n a m) (hn : n ≤ k) : Leads ops Q X k a m := by
  induction h generalizing k with
  | done hq => exact .done hq
  | step hop hstep hnext hdirect _ ih =>
    obtain ⟨k, rfl⟩ : ∃ k', k = k' + 1 := ⟨k - 1, by omega⟩
    exact .step hop hstep hnext hdirect (ih (by omega))
  | fail hop hstep hx =>
    obtain ⟨k, rfl⟩ : ∃ k', k = k' + 1 := ⟨k - 1, by omega⟩
    exact .fail hop hstep hx

theorem bind (h : Leads ops Q1 X1 n a m) (hq : ∀ b m1, Q1 b m1 → Leads ops Q X k b m1)
    (hx : X1 → X) : Leads ops Q X (n + k) a m := by
  induction h with
  | done h => exact (hq _ _ h).mono (by omega)
  | step hop hstep hnext hdirect _ ih =>
    rw [Nat.add_right_comm]
    exact .step hop hstep hnext hdirect ih
  | fail hop hstep h =>
    rw [Nat.add_right_comm]
    exact .fail hop hstep (hx h)

theorem weaken (h : Leads ops Q1 X1 n a m) (hq : ∀ b m1, Q1 b m1 → Q b m1) (hx : X1 → X) : Leads ops Q X n a m :=
  h.bind (k := 0) (fun b m1 h => .done (hq b m1 h)) hx

section

variable (hop : ops[a]? = some i)

include hop

theorem next (hstep : (i.step a).outcome m = (.ok .next, m1)) (hn : k < n)
    (h : Leads ops Q X k (a + 1) m1) : Leads ops Q X n a m :=
  (step hop hstep rfl (.inl rfl) h).mono hn

theorem jump (hstep : (i.step a).outcome m = (.ok .jump, m1)) (hn : k < n)
    (h : Leads ops Q X k i.p2.toNat m1) : Leads ops Q X n a m :=
  (step hop hstep rfl (.inr rfl) h).mono hn

theorem branch {t : Bool} (hstep : (i.step a).outcome m = (.ok (.jumpIf t), m1)) (hn : k < n)
    (h : Leads ops Q X k (if t then i.p2.toNat else a + 1) m1) : Leads ops Q X n a m := by
  cases t with
  | true => exact (step hop hstep rfl (.inr rfl) h).mono hn
  | false => exact (step hop hstep rfl (.inl rfl) h).mono hn

theorem error {e : RunError}
    (hstep : (i.step a).outcome m = (.error e, m1)) (hn : 0 < n) (h : X) : Leads ops Q X n a m :=
  (fail (n := 0) hop hstep h).mono hn

end

theorem of_zero (h : Leads ops Q X 0 a m) : Q a m := by
  cases h
  assumption

/-! ## Places that are entered one way only -/

/-- No jump leads to an address. -/
def EnteredFromBefore (ops : Array Instr) (hi : Nat) : Prop :=
  ∀ i ∈ ops, i.canJump = true → i.p2.toNat ≠ hi

/-- What the instruction before an address makes true holds whenever a run is at that address. -/
theorem entered {P : Machine → Prop} {hi : Nat} (h : Leads ops Q X n a m) (honly : EnteredFromBefore ops hi)
    (hmakes : ∀ a i m flow m1, a + 1 = hi → ops[a]? = some i → (i.step a).outcome m = (.ok flow, m1) → P m1)
    (hstart : a = hi → P m) : Leads ops (fun b m1 => Q b m1 ∧ (b = hi → P m1)) X n a m := by
  induction h with
  | done h => exact .done ⟨h, hstart⟩
  | @step n a b m m1 i flow hop hstep hnext hdirect _ ih =>
    refine .step hop hstep hnext hdirect (ih fun hb => ?_)
    rcases hdirect with hdirect | rfl
    · exact hmakes a i m flow m1 (hdirect.symm.trans hb) hop hstep
    · refine absurd (Option.some.inj (hnext.trans (congrArg some hb))) ?_
      exact honly i (Array.mem_of_getElem? hop) (canJump_of_jump hstep)
  | fail hop hstep h => exact .fail hop hstep h

end Leads

/-! ## Whole runs -/

namespace Machine

variable {ops : Array Instr} {Q : Nat → Machine → Prop} {X : Prop} {n a : Nat} {m : Machine}

/-- A run that leads to a place, or fails, is part of every long enough run of the machine. -/
theorem runFrom_of_leads (h : Leads ops Q X n a m) :
    (∃ k ≤ n, ∃ b m1, Q b m1 ∧ ∀ s, runFrom ops (k + s) a m = runFrom ops s b m1) ∨
      X ∧ ∃ k ≤ n, ∃ e m1, ∀ s, runFrom ops (k + s) a m = (.error e, m1) := by
  induction h with
  | @done n a m h => exact .inl ⟨0, Nat.zero_le _, a, m, h, fun s => by rw [Nat.zero_add]⟩
  | @step n a b m m1 i flow hop hstep hnext _ _ ih =>
    have hrun (s : Nat) : runFrom ops (s + 1) a m = runFrom ops s b m1 := by
      have hstep' : (i.step a).run m = (.ok flow, m1) := hstep
      simp only [runFrom, hop, hstep', hnext]
    rcases ih with ⟨k, hk, b', m', hq, hs⟩ | ⟨hx, k, hk, e, m', hs⟩
    · refine .inl ⟨k + 1, by omega, b', m', hq, fun s => ?_⟩
      rw [Nat.add_right_comm, hrun, hs]
    · refine .inr ⟨hx, k + 1, by omega, e, m', fun s => ?_⟩
      rw [Nat.add_right_comm, hrun, hs]
  | @fail n a m m1 i e hop hstep hx =>
    refine .inr ⟨hx, 1, by omega, e, m1, fun s => ?_⟩
    have hstep' : (i.step a).run m = (.error e, m1) := hstep
    rw [Nat.add_comm]
    simp only [runFrom, hop, hstep']

/-- A run that leads to instructions that halt, and that ends without an error, ends at one of them. -/
theorem halted_of_leads {s : Nat} {m' : Machine} (h : Leads ops Q X n a m)
    (hhalts : ∀ b m1, Q b m1 → ∃ i, ops[b]? = some i ∧ (i.step b).outcome m1 = (.ok .halt, m1))
    (hrun : runFrom ops s a m = (.ok (), m')) : ∃ b, Q b m' := by
  -- a run that is cut short ends with an error
  have hmore {a : Nat} {i : Instr} {m : Machine} {s : Nat} (hop : ops[a]? = some i)
      (hrun : runFrom ops s a m = (.ok (), m')) : ∃ k, s = k + 1 := by
    cases s with
    | zero =>
      rw [runFrom, if_pos (Array.getElem?_eq_some_iff.1 hop).1] at hrun
      cases hrun
    | succ k => exact ⟨k, rfl⟩
  induction h generalizing s with
  | @done n a m h =>
    obtain ⟨i, hop, hstep⟩ := hhalts a m h
    obtain ⟨s, rfl⟩ := hmore hop hrun
    have hstep' : (i.step a).run m = (.ok .halt, m) := hstep
    simp only [runFrom, hop, hstep', nextAddress, Prod.mk.injEq, true_and] at hrun
    exact ⟨a, hrun ▸ h⟩
  | @step n a b m m1 i flow hop hstep hnext _ _ ih =>
    obtain ⟨s, rfl⟩ := hmore hop hrun
    have hstep' : (i.step a).run m = (.ok flow, m1) := hstep
    simp only [runFrom, hop, hstep', hnext] at hrun
    exact ih hrun
  | @fail n a m m1 i e hop hstep hx =>
    obtain ⟨s, rfl⟩ := hmore hop hrun
    have hstep' : (i.step a).run m = (.error e, m1) := hstep
    simp only [runFrom, hop, hstep', Prod.mk.injEq, reduceCtorEq, false_and] at hrun

end Machine

end ScalarSql
