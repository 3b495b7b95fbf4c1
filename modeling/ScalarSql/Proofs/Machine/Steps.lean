import ScalarSql.Code.Compare
import ScalarSql.Proofs.Machine.Leads

/-!
# What single instructions do

One equation for each instruction that code of expressions uses: how it goes on, and the machine it
leaves, in terms of the values in registers.
-/

namespace ScalarSql

open Instr Machine

/-! ## Registers -/

namespace Machine

variable {r : Int}

section

variable (m : Machine) (hr : 0 ≤ r) (v : Value)

include m hr v

theorem register_setRegister (s : Int) : (m.setRegister r.toNat v).register s = if s = r then v else m.register s := by
  unfold register
  by_cases hs : s < 0
  · have hne : s ≠ r := by omega
    simp [hs, hne]
  · rw [if_neg hs, if_neg hs]
    simp only [setRegister, place]
    split
    · rename_i hlt
      by_cases hsr : s = r
      · subst hsr
        simp [hlt]
      · have hne : ¬ r.toNat = s.toNat := by omega
        simp [hne, hsr]
    · rename_i hge
      simp only [Array.getD_eq_getD_getElem?, Array.getElem?_push, Array.size_append,
        Array.size_replicate, Array.getElem?_append, Array.getElem?_replicate]
      by_cases hsr : s = r
      · subst hsr
        have hlast : s.toNat = m.registers.size + (s.toNat - m.registers.size) := by omega
        simp [← hlast]
      · have hne : ¬ s.toNat = m.registers.size + (r.toNat - m.registers.size) := by omega
        rw [if_neg hne, if_neg hsr]
        split
        · rfl
        · rename_i hout
          have hnone : m.registers[s.toNat]? = none := by simp; omega
          rw [hnone]
          split <;> rfl

@[simp]
theorem register_setRegister_self : (m.setRegister r.toNat v).register r = v := by
  rw [register_setRegister m hr, if_pos rfl]

theorem register_setRegister_ne {s : Int} (h : s ≠ r) : (m.setRegister r.toNat v).register s = m.register s := by
  rw [register_setRegister m hr, if_neg h]

end

/-- The second machine differs from the first one in registers that satisfy `W`, and in what no
later code reads. -/
structure Writes (W : Int → Prop) (m m' : Machine) : Prop where
  registers : ∀ r, ¬ W r → m'.register r = m.register r
  params : m'.params = m.params
  store : m'.store = m.store
  cursors : m'.cursors = m.cursors
  ephemeral : m'.ephemeral = m.ephemeral
  visited : m'.visited = m.visited
  rows : m'.rows = m.rows
  pending : m'.pending = m.pending

namespace Writes

variable {W V : Int → Prop} {m m1 m2 : Machine}

theorem refl (W : Int → Prop) (m : Machine) : Writes W m m := ⟨fun _ _ => rfl, rfl, rfl, rfl, rfl, rfl, rfl, rfl⟩

theorem trans (h1 : Writes W m m1) (h2 : Writes W m1 m2) : Writes W m m2 where
  registers r hr := (h2.registers r hr).trans (h1.registers r hr)
  params := h2.params.trans h1.params
  store := h2.store.trans h1.store
  cursors := h2.cursors.trans h1.cursors
  ephemeral := h2.ephemeral.trans h1.ephemeral
  visited := h2.visited.trans h1.visited
  rows := h2.rows.trans h1.rows
  pending := h2.pending.trans h1.pending

theorem mono (h : Writes W m m1) (hW : ∀ r, W r → V r) : Writes V m m1 :=
  { h with
    registers r hr := h.registers r fun hw => hr (hW r hw) }

theorem setRegister (m : Machine) (hr : 0 ≤ r) (v : Value) : Writes (· = r) m (m.setRegister r.toNat v) where
  registers _ hs := register_setRegister_ne m hr v hs
  params := rfl
  store := rfl
  cursors := rfl
  ephemeral := rfl
  visited := rfl
  rows := rfl
  pending := rfl

/-- What only the next comparison jump reads may change. -/
theorem lastCompare (m : Machine) (o : Ordering) : Writes W m { m with lastCompare := o } :=
  ⟨fun _ _ => rfl, rfl, rfl, rfl, rfl, rfl, rfl, rfl⟩

end Writes

end Machine

/-- The operation of a binary operator that does not compare. -/
def BinaryOp.compute : BinaryOp → Value → Value → Value
  | .and => Value.and
  | .or => Value.or
  | .add => Value.add
  | .sub => Value.subtract
  | .mul => Value.multiply
  | .div => Value.divide
  | .rem => Value.remainder
  | .bitAnd => Value.bitAnd
  | .bitOr => Value.bitOr
  | .shiftLeft => Value.shiftLeft
  | .shiftRight => Value.shiftRight
  | .concat => Value.concat
  | _ => fun _ _ => .null

/-- The value that a comparison leaves in its register, where `before` is the value that is there. -/
def Opcode.stored (opcode : Opcode) (keepNull : Bool) (order : Option Ordering) (before : Value) :
    Value :=
  match order with
  | none => .null
  | some o =>
    if keepNull && (opcode == .eq) == opcode.accepts o then before else .ofBool (opcode.accepts o)

namespace Instr

/-- The instruction sets the register, and the machine goes on behind it. -/
abbrev Sets (i : Instr) (a : Nat) (m : Machine) (r : Int) (v : Value) : Prop :=
  (i.step a).outcome m = (.ok .next, m.setRegister r.toNat v)

variable {a : Nat} {m : Machine} {r s t : Int} {op : BinaryOp} {i : Instr} {n : Int} {col mask : Int} {p4 : Operand}
  {c : Cursor} {f : Function}

/-! ## Literals -/

theorem step_null (hr : 0 ≤ r) : (of .null 0 r).Sets a m r .null := by
  have hcount : (-r).toNat = 0 := by omega
  simp [Sets, step, hcount, Exec.fill, Exec.outcome_write hr]

theorem step_integer (v : Int) (hr : 0 ≤ r) : (of .integer v r).Sets a m r (.integer (Int64.ofInt v)) := by
  simp [Sets, step, Exec.outcome_write hr]

theorem step_int64 (v : Int64) (hr : 0 ≤ r) : (of .int64 0 r 0 (.int64 v)).Sets a m r (.integer v) := by
  simp [Sets, step, Exec.outcome_write hr]

theorem step_real (v : Float) (hr : 0 ≤ r) : (of .real 0 r 0 (.real v)).Sets a m r (.ofFloat v) := by
  simp [Sets, step, Exec.outcome_write hr]

theorem step_text (v : String) (hr : 0 ≤ r) : (of .text 0 r 0 (.text v)).Sets a m r (.text v) := by
  simp [Sets, step, Exec.outcome_write hr]

theorem step_blob (n : Int) (v : List UInt8) (hr : 0 ≤ r) : (of .blob n r 0 (.blob v)).Sets a m r (.blob v) := by
  simp [Sets, step, Exec.outcome_write hr]

theorem step_param (index : Int) (p4 : Operand) (hr : 0 ≤ r) :
    (of .param index r 0 p4).Sets a m r (if index < 1 then .null else (m.params[(index - 1).toNat]?).getD .null) := by
  simp [Sets, step, Exec.outcome_write hr]

theorem step_raise (n : Int) (hn : n ≠ 0) (text : String) :
    ((of .halt n 0 0 (.text text)).step a).outcome m = (.error (.raised text), m) := by
  simp [step, hn]

/-! ## Operations on registers -/

theorem step_copyOne (hr : 0 ≤ r) : (of .copyOne s r).Sets a m r (m.register s) := by
  simp [Sets, step, unary, Exec.outcome_write hr]

theorem step_not (hr : 0 ≤ r) : (of .not s r).Sets a m r (m.register s).not := by
  simp [Sets, step, unary, Exec.outcome_write hr]

theorem step_bitNot (hr : 0 ≤ r) : (of .bitNot s r).Sets a m r (m.register s).bitNot := by
  simp [Sets, step, unary, Exec.outcome_write hr]

theorem step_isTrue (hr : 0 ≤ r) (p3 n : Int) :
    (of .isTrue s r p3 (.int n)).Sets a m r (.ofBool ((m.register s).truth.getD (p3 != 0) != (n == 1))) := by
  simp [Sets, step, unary, Exec.outcome_write hr]

theorem step_addImm (n : Int) (hr : 0 ≤ r) :
    (of .addImm r n).Sets a m r (.integer ((m.register r).asInteger + Int64.ofInt n)) := by
  simp [Sets, step, Exec.outcome_write hr]

theorem step_cast (c : Affinity) (hr : 0 ≤ r) : (of .cast r c.code.toNat).Sets a m r ((m.register r).cast c) := by
  have hlt : (c.code.toNat : Int) < 256 := by cases c <;> decide
  simp [Sets, step, hlt, Exec.outcome_write hr]

theorem step_affinity (c : Affinity) (hr : 0 ≤ r) :
    (of .affinity r 1 0 (.affinity (Affinity.codes [c]))).Sets a m r ((m.register r).applyAffinity c) := by
  simp [Sets, step, Affinity.codes, Exec.applyAffinities, Exec.outcome_write hr]

/-- A column of the affinity REAL holds integers as doubles. -/
def realValue : Value → Value
  | .integer n => .real (Binary64.nearest n.toInt)
  | v => v

theorem step_realAffinity (hr : 0 ≤ r) : (of .realAffinity r).Sets a m r (realValue (m.register r)) ∨
      ((of .realAffinity r).step a).outcome m = (.ok .next, m) ∧ realValue (m.register r) = m.register r := by
  simp only [Sets, step, of, Exec.outcome_bind, Exec.outcome_read]
  cases m.register r with
  | integer n =>
    left
    simp [realValue, Exec.outcome_write hr]
  | null | real x | text s | blob b => right; exact ⟨rfl, rfl⟩

/-! ## Copies -/

/-- Copying registers one after the other changes the targets only; the first target gets the value
of the first source, and each gets that of its source if no source is a target. -/
theorem outcome_copy (n : Nat) (m : Machine) (s t : Int) (ht : 0 ≤ t) :
    ∃ m', (Exec.copy n s t).outcome m = (.ok ⟨⟩, m') ∧ m.Writes (fun r => t ≤ r ∧ r < t + n) m' ∧
      (0 < n → m'.register t = m.register s) ∧
      ((∀ j k : Nat, j < n → k < n → t + j ≠ s + k) → ∀ k : Nat, k < n → m'.register (t + k) = m.register (s + k)) := by
  induction n generalizing m s t with
  | zero => exact ⟨m, rfl, .refl _ m, fun h => absurd h (by omega), fun _ k hk => absurd hk (by omega)⟩
  | succ n ih =>
    obtain ⟨m', hrun, hwrites, -, hall⟩ := ih (m.setRegister t.toNat (m.register s)) (s + 1) (t + 1) (by omega)
    have hfirst : m'.register t = m.register s := by
      rw [hwrites.registers t (by omega), register_setRegister_self m ht]
    refine ⟨m', ?_, ?_, fun _ => hfirst, ?_⟩
    · simp [Exec.copy, Exec.outcome_write ht, hrun]
    · refine .trans ((Writes.setRegister m ht _).mono ?_) (hwrites.mono ?_)
      · intro r hr
        omega
      · intro r hr
        omega
    · intro hapart k hk
      cases k with
      | zero => simpa using hfirst
      | succ k =>
        have hstep := hall (fun j k hj hk h => hapart (j + 1) (k + 1) (by omega) (by omega) (by omega)) k (by omega)
        have hne : s + 1 + (k : Int) ≠ t := fun h => hapart 0 (k + 1) (by omega) (by omega) (by omega)
        rw [register_setRegister_ne m ht _ hne] at hstep
        have ht' : t + ((k + 1 : Nat) : Int) = t + 1 + k := by omega
        have hs' : s + ((k + 1 : Nat) : Int) = s + 1 + k := by omega
        rw [ht', hs', hstep]

/-! ## Binary operators -/

theorem step_arithmetic (hop : op.isComparison = false) (hr : 0 ≤ r) :
    (of op.opcode s t r).Sets a m r (op.compute (m.register s) (m.register t)) := by
  cases op <;> first
    | exact absurd hop (by decide)
    | simp [Sets, step, binary, BinaryOp.opcode, BinaryOp.compute, Exec.outcome_write hr]

theorem step_subtract (hr : 0 ≤ r) :
    (of .subtract s t r).Sets a m r (Value.subtract (m.register s) (m.register t)) := by
  simp [Sets, step, binary, Exec.outcome_write hr]

theorem step_bitAnd (hr : 0 ≤ r) : (of .bitAnd s t r).Sets a m r (Value.bitAnd (m.register s) (m.register t)) := by
  simp [Sets, step, binary, Exec.outcome_write hr]

/-! ## Comparisons -/

@[simp]
theorem collation?_ofOption (o : Opcode) (p1 p2 p3 : Int) (c : Option Collation) (p5 : UInt16) :
    (of o p1 p2 p3 (Operand.ofOption .collation c) p5).collation? = c := by
  cases c <;> rfl

def comparing : List Opcode := [.eq, .ne, .lt, .le, .gt, .ge]

theorem step_comparing (h : i.opcode ∈ comparing) (a : Nat) : i.step a = i.compare := by
  cases i
  simp only [comparing, List.mem_cons, List.not_mem_nil, or_false] at h
  rcases h with rfl | rfl | rfl | rfl | rfl | rfl <;> rfl

theorem opcode_comparing (h : op.isComparison) : op.opcode ∈ comparing := by
  cases op <;> first
    | exact absurd h (by decide)
    | decide

theorem negated_comparing (h : op.isComparison) : op.opcode.negated?.getD op.opcode ∈ comparing := by
  cases op <;> first
    | exact absurd h (by decide)
    | decide

theorem accepts_negated (h : op.isComparison) (o : Ordering) :
    (op.opcode.negated?.getD op.opcode).accepts o = !op.opcode.accepts o := by
  cases op <;> first
    | exact absurd h (by decide)
    | (cases o <;> rfl)

/-- The order that a comparison instruction finds. -/
def order? (i : Instr) (m : Machine) : Option Ordering :=
  i.mode.order? i.collation? (m.register i.p1) (m.register i.p3)

theorem outcome_compare_jump (h : i.opcode ∈ comparing) (hs : i.mode.store = false) : (i.step a).outcome m =
      (.ok (.jumpIf ((i.order? m).elim i.mode.jumpIfNull i.opcode.accepts)),
        { m with lastCompare := (i.order? m).getD .lt }) := by
  rw [step_comparing h]
  simp only [compare, order?, Exec.outcome_bind, Exec.outcome_get]
  cases i.mode.order? i.collation? (m.register i.p1) (m.register i.p3) <;> simp [hs]

theorem outcome_compare_store (h : i.opcode ∈ comparing) (hs : i.mode.store) (hr : 0 ≤ i.p2) :
    ∃ m', (i.step a).outcome m = (.ok .next, m') ∧ m.Writes (· = i.p2) m' ∧
      m'.register i.p2 = i.opcode.stored i.mode.keepNull (i.order? m) (m.register i.p2) ∧
      m'.lastCompare = (i.order? m).getD .lt := by
  rw [step_comparing h]
  simp only [compare, Exec.outcome_bind, Exec.outcome_get]
  rw [← order?]
  cases i.order? m with
  | none =>
    refine ⟨_, by simp [hs, Exec.outcome_write hr]; rfl, ?_, ?_, rfl⟩
    · exact (Writes.lastCompare m _).trans (.setRegister _ hr _)
    · exact register_setRegister_self _ hr _
  | some o =>
    by_cases hk : i.mode.keepNull && (i.opcode == .eq) == i.opcode.accepts o
    · refine ⟨{ m with lastCompare := o }, by simp [hs, hk], .lastCompare m o, ?_, rfl⟩
      simp only [Opcode.stored, hk, if_true]
      rfl
    · refine ⟨({ m with lastCompare := o } : Machine).setRegister i.p2.toNat
        (.ofBool (i.opcode.accepts o)), ?_, ?_, ?_, rfl⟩
      · simp [hs, hk, Exec.outcome_write hr]
      · exact (Writes.lastCompare m o).trans (.setRegister _ hr _)
      · rw [register_setRegister_self _ hr]
        simp [Opcode.stored, hk]

/-! ## Jumps -/

theorem step_goto (h : i.opcode = .goto) : (i.step a).outcome m = (.ok .jump, m) := by
  cases i
  cases h
  rfl

theorem step_ifTrue (h : i.opcode = .ifTrue) :
    (i.step a).outcome m = (.ok (.jumpIf (i.branches true (m.register i.p1))), m) := by
  cases i
  cases h
  rfl

theorem step_ifFalse (h : i.opcode = .ifFalse) :
    (i.step a).outcome m = (.ok (.jumpIf (i.branches false (m.register i.p1))), m) := by
  cases i
  cases h
  rfl

theorem step_isNull (h : i.opcode = .isNull) : (i.step a).outcome m = (.ok (.jumpIf (m.register i.p1).isNull), m) := by
  cases i
  cases h
  rfl

theorem step_notNull (h : i.opcode = .notNull) :
    (i.step a).outcome m = (.ok (.jumpIf (!(m.register i.p1).isNull)), m) := by
  cases i
  cases h
  rfl

theorem step_elseNotEq (h : i.opcode = .elseNotEq) :
    (i.step a).outcome m = (.ok (.jumpIf (m.lastCompare != .eq)), m) := by
  cases i
  cases h
  rfl

/-! ## Columns -/

theorem step_column (hc : m.cursor? n = some c) (hr : 0 ≤ r) :
    (of .column n col r p4).Sets a m r ((m.column? c col).getD (match p4 with | .value v => v | _ => .null)) := by
  cases p4 <;> simp [Sets, step, loadColumn, Exec.outcome_cursor hc, Exec.outcome_write hr]

theorem step_rowid (hc : m.cursor? n = some c) (hr : 0 ≤ r) : (of .rowid n r).Sets a m r c.rowid := by
  simp [Sets, step, Exec.outcome_cursor hc, Exec.outcome_write hr]

theorem step_column_closed (hc : m.cursor? n = none) :
    ((of .column n col r p4).step a).outcome m = (.error (.cursorNotOpen n), m) := by
  simp [step, loadColumn, Exec.cursor, hc]

theorem step_rowid_closed (hc : m.cursor? n = none) :
    ((of .rowid n r).step a).outcome m = (.error (.cursorNotOpen n), m) := by
  simp [step, Exec.cursor, hc]

/-! ## Calls -/

theorem step_collSeq (c : Collation) : ((of .collSeq 0 0 0 (.collation c)).step a).outcome m =
      (.ok .next, { m with pending := some c }) := by
  simp [step]

/-- A call that gives a value stores it, and takes up the collating sequence that was handed to
it. -/
theorem step_function_ok {n : UInt16} {v : Value}
    (hf : f.invoke (m.registersFrom s n.toNat) m.pending (randomNumber m.draws) = .ok v) (hr : 0 ≤ r) :
    ∃ m', ((of .function mask s r (.function f) n).step a).outcome m = (.ok .next, m') ∧
      ({ m with pending := none } : Machine).Writes (· = r) m' ∧ m'.register r = v := by
  let m1 : Machine :=
    { m with
      pending := none
      calls := m.calls + (if f.counted then 1 else 0)
      draws := m.draws + 1 }
  have hsame : ({ m with pending := none } : Machine).Writes (· = r) m1 :=
    ⟨fun _ _ => rfl, rfl, rfl, rfl, rfl, rfl, rfl, rfl⟩
  refine ⟨m1.setRegister r.toNat v, ?_, hsame.trans (.setRegister m1 hr v), ?_⟩
  · simp [step, call, hf, Exec.outcome_write hr, m1]
  · exact register_setRegister_self m1 hr v

theorem step_function_error {n : UInt16} {e : CallError}
    (hf : f.invoke (m.registersFrom s n.toNat) m.pending (randomNumber m.draws) = .error e) :
    ∃ m', ((of .function mask s r (.function f) n).step a).outcome m = (.error (.call e), m') := by
  simp [step, call, hf]

end Instr

end ScalarSql
