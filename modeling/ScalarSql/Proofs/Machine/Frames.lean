import ScalarSql.Proofs.Machine.Steps

/-!
# Registers that instructions read and write

`Instr.read` and `Instr.written` are the registers that the operands of an instruction name. Carrying out an
instruction, also one that fails, changes no register that it does not write (`Instr.register_step`), and machines that
differ in registers only, and in none that it reads, carry it out alike: with the same result or the same error, and the
machines that are left differ in no further register (`Instr.touches_step`).
-/

namespace ScalarSql

variable {first : Int} {n : Nat}

def registerRow (first : Int) (n : Nat) : List Int := (List.range n).map fun k : Nat => first + k

@[simp]
theorem mem_registerRow {r : Int} : r ∈ registerRow first n ↔ ∃ k < n, first + k = r := by
  simp [registerRow]

theorem registerRow_succ (first : Int) (n : Nat) : registerRow first (n + 1) = first :: registerRow (first + 1) n := by
  simp only [registerRow, List.range_succ_eq_map, List.map_cons, List.map_map, Int.natCast_zero, Int.add_zero]
  refine congrArg _ (List.map_congr_left fun k _ => ?_)
  simp only [Function.comp_apply, Int.natCast_succ]
  omega

theorem registerRow_subset {k : Nat} (h : k ≤ n) : registerRow first k ⊆ registerRow first n :=
  List.map_subset _ (List.range_subset.2 h)

namespace Instr

/-- The registers whose values the instruction uses. -/
def read (i : Instr) : List Int :=
  match i.opcode with
  | .copyOne | .not | .bitNot | .isTrue | .ifTrue | .ifFalse | .isNull | .notNull | .addImm | .cast | .realAffinity
  | .ret => [i.p1]
  | .add | .subtract | .multiply | .divide | .remainder | .bitAnd | .bitOr | .shiftLeft | .shiftRight | .concat | .and
  | .or => [i.p1, i.p2]
  | .eq | .ne | .lt | .le | .gt | .ge => [i.p1, i.p3]
  | .copy => registerRow i.p1 (i.p3.toNat + 1)
  | .affinity | .makeRecord | .resultRow => registerRow i.p1 i.p2.toNat
  | .function => registerRow i.p2 i.p5.toNat
  | .idxInsert => [i.p2]
  | .found | .notFound =>
    registerRow i.p3 (match i.p4 with
      | .int n => n.toNat
      | _ => 1)
  | .seekRowid => [i.p3]
  | _ => []

/-- The registers that the instruction may change. -/
def written (i : Instr) : List Int :=
  match i.opcode with
  | .integer | .int64 | .real | .text | .blob | .param | .copyOne | .not | .bitNot | .isTrue | .rowid => [i.p2]
  | .null => registerRow i.p2 ((i.p3 - i.p2).toNat + 1)
  | .copy => registerRow i.p2 (i.p3.toNat + 1)
  | .add | .subtract | .multiply | .divide | .remainder | .bitAnd | .bitOr | .shiftLeft | .shiftRight | .concat | .and
  | .or | .function | .makeRecord | .column | .ifNullRow => [i.p3]
  | .eq | .ne | .lt | .le | .gt | .ge => if i.mode.store then [i.p2] else []
  | .addImm | .cast | .realAffinity | .gosub => [i.p1]
  | .affinity => registerRow i.p1 i.p2.toNat
  | _ => []

end Instr

namespace Machine

/-- The machines differ in registers only, and in none of the given ones. -/
structure Alike (R : Int → Prop) (m m' : Machine) : Prop where
  registers : ∀ r, R r → m'.register r = m.register r
  others : { m with registers := m'.registers } = m'

variable {R : Int → Prop} {m m' : Machine}

theorem Alike.registersFrom (h : Alike R m m') {first : Int} {n : Nat} (hR : ∀ r ∈ registerRow first n, R r) :
    m'.registersFrom first n = m.registersFrom first n := by
  induction n generalizing first with
  | zero => rfl
  | succ n ih =>
    obtain ⟨hfirst, hrest⟩ := List.forall_mem_cons.1 (registerRow_succ first n ▸ hR)
    simp only [Machine.registersFrom, h.registers first hfirst, ih hrest]

theorem Alike.setRegister (h : Alike R m m') {r : Int} (hr : 0 ≤ r) (v : Value) :
    Alike R (m.setRegister r.toNat v) (m'.setRegister r.toNat v) where
  registers s hs := by rw [register_setRegister m' hr, register_setRegister m hr, h.registers s hs]
  others := by rw [← h.others]; rfl

end Machine

open Machine

namespace Exec

variable {α β : Type} {R : Int → Prop} {W : List Int} {m m' m1 m1' : Machine} {g g' : Exec α} {f f' : α → Exec β}
  {k : Machine → Exec α} {r first : Int} {n : Nat}

/-- The two steps, each on its machine, have the same result, leave machines that are alike, and change no register but
the given ones. -/
structure Matches (R : Int → Prop) (W : List Int) (g : Exec α) (m : Machine) (g' : Exec α) (m' : Machine) : Prop where
  result : (g'.outcome m').1 = (g.outcome m).1
  alike : Alike R (g.outcome m).2 (g'.outcome m').2
  frame : ∀ r, r ∉ W → (g.outcome m).2.register r = m.register r

/-- The step depends on the registers of `R` alone and changes those of `W` alone. -/
def Touches (R : Int → Prop) (W : List Int) (g : Exec α) : Prop := ∀ m m', Alike R m m' → Matches R W g m g m'

theorem Touches.pure (a : α) : Touches R W (pure a : Exec α) := fun _ _ h => ⟨rfl, h, fun _ _ => rfl⟩

theorem Touches.throw (e : RunError) : Touches R W (throw e : Exec α) := fun _ _ h => ⟨rfl, h, fun _ _ => rfl⟩

theorem Matches.bind (hg : Matches R W g m g' m') (hf : ∀ a, Touches R W (f a)) (heq : f' = f) :
    Matches R W (g >>= f) m (g' >>= f') m' := by
  subst heq
  obtain ⟨hresult, halike, hframe⟩ := hg
  -- A step that fails leaves the machine as its first part does.
  rcases hstep : g.outcome m with ⟨e | a, m1⟩ <;> rcases hstep' : g'.outcome m' with ⟨e' | a', m1'⟩ <;>
    rw [hstep, hstep'] at hresult <;> rw [hstep, hstep'] at halike <;> rw [hstep] at hframe <;> cases hresult
  · exact ⟨by rw [outcome_bind, outcome_bind, hstep, hstep'], by rwa [outcome_bind, outcome_bind, hstep, hstep'],
      by rwa [outcome_bind, hstep]⟩
  · have hrest := hf a m1 m1' halike
    constructor
    · rw [outcome_bind, outcome_bind, hstep, hstep']
      exact hrest.result
    · rw [outcome_bind, outcome_bind, hstep, hstep']
      exact hrest.alike
    · rw [outcome_bind, hstep]
      exact fun r hr => (hrest.frame r hr).trans (hframe r hr)

theorem Touches.bind (hg : Touches R W g) (hf : ∀ a, Touches R W (f a)) : Touches R W (g >>= f) :=
  fun m m' h => (hg m m' h).bind hf rfl

theorem Touches.get (hk : ∀ m registers, Alike R m { m with registers } →
    Matches R W (k m) m (k { m with registers }) { m with registers }) : Touches R W (MonadState.get >>= k) := by
  intro m m' h
  obtain ⟨registers, rfl⟩ : ∃ registers, m' = { m with registers } := ⟨_, h.others.symm⟩
  have hmatch := hk m registers h
  exact ⟨by simpa only [outcome_bind, outcome_get] using hmatch.result,
    by simpa only [outcome_bind, outcome_get] using hmatch.alike,
    by simpa only [outcome_bind, outcome_get] using hmatch.frame⟩

/-- A step that goes on in the same way for machines that are alike. -/
theorem Touches.inspect (hsame : ∀ m registers, Alike R m { m with registers } → k { m with registers } = k m)
    (hk : ∀ m, Touches R W (k m)) : Touches R W (MonadState.get >>= k) := by
  refine .get fun m registers h => ?_
  rw [hsame m registers h]
  exact hk m m _ h

theorem Matches.set (h : Alike R m1 m1') (hsame : m1.registers = m.registers) :
    Matches R W (set m1 : Exec PUnit) m (set m1') m' :=
  ⟨rfl, h, fun r _ => by simp only [outcome_set, Machine.register, hsame]⟩

theorem Touches.modify {k : Machine → Machine} (hk : ∀ m registers, Alike R m { m with registers } →
    k { m with registers } = { k m with registers }) : Touches R W (modify k : Exec PUnit) := by
  intro m m' h
  obtain ⟨registers, rfl⟩ : ∃ registers, m' = { m with registers } := ⟨_, h.others.symm⟩
  have hsame : k m = { k m with registers := m.registers } := hk m m.registers ⟨fun _ _ => rfl, rfl⟩
  refine ⟨rfl, ⟨fun r hr => ?_, ?_⟩, fun r _ => ?_⟩
  · rw [outcome_modify, outcome_modify, hk m registers h, hsame]
    exact h.registers r hr
  · rw [outcome_modify, outcome_modify, hk m registers h]
  · rw [outcome_modify, hsame]
    rfl

theorem Touches.read (hr : R r) : Touches R W (read r) :=
  .inspect (fun _ _ h => by rw [h.registers r hr]) fun _ => .pure _

theorem Touches.write (hr : r ∈ W) (v : Value) : Touches R W (write r v) := by
  unfold Exec.write
  split
  · exact .throw _
  · intro m m' h
    refine ⟨rfl, h.setRegister (by omega) v, fun s hs => ?_⟩
    exact Machine.register_setRegister_ne m (by omega) v fun heq => hs (heq ▸ hr)

theorem Touches.cursor (n : Int) : Touches R W (cursor n) := by
  refine .inspect (fun _ _ _ => rfl) fun m => ?_
  split
  · exact .pure _
  · exact .throw _

theorem Touches.fill (v : Value) (h : ∀ r ∈ registerRow first n, r ∈ W) : Touches R W (fill v n first) := by
  induction n generalizing first with
  | zero => exact .pure _
  | succ n ih =>
    obtain ⟨hfirst, hrest⟩ := List.forall_mem_cons.1 (registerRow_succ first n ▸ h)
    exact .bind (.write hfirst v) fun _ => ih hrest

theorem Touches.copy {source target : Int} (hR : ∀ r ∈ registerRow source n, R r)
    (hW : ∀ r ∈ registerRow target n, r ∈ W) : Touches R W (copy n source target) := by
  induction n generalizing source target with
  | zero => exact .pure _
  | succ n ih =>
    obtain ⟨hfirst, hrest⟩ := List.forall_mem_cons.1 (registerRow_succ source n ▸ hR)
    obtain ⟨htarget, htargets⟩ := List.forall_mem_cons.1 (registerRow_succ target n ▸ hW)
    exact .bind (.read hfirst) fun v => .bind (.write htarget v) fun _ => ih hrest htargets

theorem Touches.applyAffinities {codes : List Char} (h : ∀ r ∈ registerRow first codes.length, R r ∧ r ∈ W) :
    Touches R W (applyAffinities codes first) := by
  induction codes generalizing first with
  | nil => exact .pure _
  | cons code codes ih =>
    obtain ⟨hfirst, hrest⟩ := List.forall_mem_cons.1 (registerRow_succ first codes.length ▸ h)
    unfold Exec.applyAffinities
    split
    · exact .throw _
    · exact .bind (.read hfirst.1) fun v => .bind (.write hfirst.2 _) fun _ => ih hrest

theorem Touches.mapM {γ : Type} {k : γ → Exec α} (hk : ∀ x, Touches R W (k x)) (xs : List γ) :
    Touches R W (xs.mapM k) := by
  induction xs with
  | nil => exact .pure _
  | cons x xs ih =>
    rw [List.mapM_cons]
    exact .bind (hk x) fun _ => .bind ih fun _ => .pure _

end Exec

namespace Instr

open Exec

variable {R : Int → Prop} {W : List Int} {i : Instr}

theorem touches_compare (h1 : R i.p1) (h3 : R i.p3) (h2 : i.mode.store → i.p2 ∈ W) : Touches R W i.compare := by
  refine .inspect (fun m registers h => ?_) fun m => ?_
  · simp only [h.registers _ h1, h.registers _ h3]
  · split
    · refine .bind (.modify fun _ _ _ => rfl) fun _ => ?_
      split
      · rename_i hstore
        exact .bind (.write (h2 hstore) _) fun _ => .pure _
      · exact .pure _
    · refine .bind (.modify fun _ _ _ => rfl) fun _ => ?_
      extract_lets outcome
      split
      · rename_i hstore
        split
        · exact .bind (.write (h2 hstore) _) fun _ => .pure _
        · exact .pure _
      · exact .pure _

theorem touches_binary (h1 : R i.p1) (h2 : R i.p2) (h3 : i.p3 ∈ W) (f : Value → Value → Value) :
    Touches R W (i.binary f) :=
  .bind (.read h1) fun _ => .bind (.read h2) fun _ => .bind (.write h3 _) fun _ => .pure _

theorem touches_unary (h1 : R i.p1) (h2 : i.p2 ∈ W) (f : Value → Value) : Touches R W (i.unary f) :=
  .bind (.read h1) fun _ => .bind (.write h2 _) fun _ => .pure _

theorem touches_call (hR : ∀ r ∈ registerRow i.p2 i.p5.toNat, R r) (hW : i.p3 ∈ W) (f : Function) :
    Touches R W (i.call f) := by
  refine .get fun m registers h => ?_
  refine .bind (.set ⟨h.registers, rfl⟩ rfl) (fun _ => ?_) ?_
  · split
    · exact .bind (.write hW _) fun _ => .pure _
    · exact .throw _
  · simp only [h.registersFrom hR]

theorem touches_openIndex (index : Index) : Touches R W (openIndex index) := by
  refine .inspect (fun _ _ _ => rfl) fun m => ?_
  split
  · exact .throw _
  · refine .bind (.mapM (fun k => ?_) _) fun _ => ?_
    · exact .get fun m _ h => .bind (.set ⟨h.registers, rfl⟩ rfl) (fun _ => .pure _) rfl
    · exact .inspect (fun _ _ _ => rfl) fun _ => .pure _

theorem touches_openRead (i : Instr) : Touches R W i.openRead := by
  unfold openRead
  split
  · exact .inspect (fun _ _ _ => rfl) fun _ => .pure _
  · exact touches_openIndex _
  · exact .throw _

theorem touches_openEphemeral (i : Instr) : Touches R W i.openEphemeral :=
  .get fun _ _ h => .bind (.set ⟨h.registers, rfl⟩ rfl) (fun _ => .pure _) rfl

theorem touches_openDup (i : Instr) : Touches R W i.openDup := by
  refine .bind (.cursor _) fun c => ?_
  split
  · exact .pure _
  · exact .throw _

theorem touches_openCursor {opened : Exec Cursor} (h : Touches R W opened) : Touches R W (i.openCursor opened) :=
  .bind h fun _ => .bind (.modify fun _ _ _ => rfl) fun _ => .pure _

theorem touches_makeRecord (hR : ∀ r ∈ registerRow i.p1 i.p2.toNat, R r) (hW : i.p3 ∈ W) :
    Touches R W i.makeRecord := by
  refine .get fun m registers h => ?_
  refine .bind (.set ⟨h.registers, ?_⟩ rfl) (fun _ => .bind (.write hW _) fun _ => .pure _) rfl
  simp only [h.registersFrom hR]

theorem touches_insertRecord (i : Instr) : Touches R W i.insertRecord := by
  refine .inspect (fun _ _ _ => rfl) fun m => ?_
  split
  · exact .throw _
  · refine .bind (.cursor _) fun c => ?_
    split
    · exact .bind (.modify fun _ _ _ => rfl) fun _ => .pure _
    · exact .throw _

theorem touches_probe (hR : ∀ r ∈ ({ i with opcode := .found } : Instr).read, R r) (wanted : Bool) :
    Touches R W (i.probe wanted) := by
  unfold probe
  extract_lets n
  have hrow : ∀ r ∈ registerRow i.p3 n, R r := hR
  refine .inspect (fun m registers h => ?_) fun m => ?_
  · simp only [h.registersFrom hrow]
    rfl
  · exact .bind (.cursor _) fun c => .bind (.modify fun _ _ _ => rfl) fun _ => .pure _

theorem touches_seekRowid (h : R i.p3) : Touches R W i.seekRowid := by
  refine .bind (.read h) fun _ => .bind (.cursor _) fun c => ?_
  split
  · exact .bind (.modify fun _ _ _ => rfl) fun _ => .pure _
  · exact .throw _

theorem touches_loadColumn (hW : i.p3 ∈ W) : Touches R W i.loadColumn :=
  .bind (.cursor _) fun _ => .inspect (fun _ _ _ => rfl) fun _ => .bind (.write hW _) fun _ => .pure _

theorem touches_rewind (i : Instr) : Touches R W i.rewind := by
  refine .bind (.cursor _) fun c => .inspect (fun _ _ _ => rfl) fun m => ?_
  split <;> exact .bind (.modify fun _ _ _ => rfl) fun _ => .pure _

theorem touches_advance (i : Instr) : Touches R W i.advance := by
  refine .bind (.cursor _) fun c => .inspect (fun _ _ _ => rfl) fun m => ?_
  split <;> exact .bind (.modify fun _ _ _ => rfl) fun _ => .pure _

/-- An instruction depends on no register but those that it reads, and changes none but those that it writes. -/
theorem touches_step (h : ∀ r ∈ i.read, R r) (a : Nat) : Touches R i.written (i.step a) := by
  obtain ⟨opcode, p1, p2, p3, p4, p5⟩ := i
  cases opcode with
  | add | subtract | multiply | divide | remainder | bitAnd | bitOr | shiftLeft | shiftRight | concat | and | or =>
    exact touches_binary (h p1 List.mem_cons_self) (h p2 (by simp [read])) List.mem_cons_self _
  | copyOne | not | bitNot | isTrue => exact touches_unary (h p1 List.mem_cons_self) List.mem_cons_self _
  | eq | ne | lt | le | gt | ge =>
    exact touches_compare (h p1 List.mem_cons_self) (h p3 (by simp [read])) fun hstore => by simp [written, hstore]
  | integer | gosub => exact .bind (.write List.mem_cons_self _) fun _ => .pure _
  | null => exact .bind (.fill _ fun _ hr => hr) fun _ => .pure _
  | copy => exact .bind (.copy h fun _ hr => hr) fun _ => .pure _
  | param => exact .inspect (fun _ _ _ => rfl) fun _ => .bind (.write List.mem_cons_self _) fun _ => .pure _
  | int64 | real | text | blob =>
    simp only [step]
    split
    · exact .bind (.write List.mem_cons_self _) fun _ => .pure _
    · exact .throw _
  | halt =>
    simp only [step]
    split
    · exact .pure _
    · split <;> exact .throw _
  | elseNotEq => exact .inspect (fun _ _ _ => rfl) fun _ => .pure _
  | ifTrue | ifFalse | isNull | notNull | ret => exact .bind (.read (h p1 List.mem_cons_self)) fun _ => .pure _
  | addImm =>
    exact .bind (.read (h p1 List.mem_cons_self)) fun _ => .bind (.write List.mem_cons_self _) fun _ => .pure _
  | cast =>
    simp only [step]
    split
    · exact .bind (.read (h p1 List.mem_cons_self)) fun _ => .bind (.write List.mem_cons_self _) fun _ => .pure _
    · exact .throw _
  | affinity =>
    simp only [step]
    split
    · refine .bind (.applyAffinities fun r hr => ?_) fun _ => .pure _
      have hrow := registerRow_subset (List.length_take_le _ _) hr
      exact ⟨h r hrow, hrow⟩
    · exact .throw _
  | realAffinity =>
    refine .bind (.read (h p1 List.mem_cons_self)) fun v => ?_
    split
    · exact .bind (.write List.mem_cons_self _) fun _ => .pure _
    · exact .pure _
  | collSeq =>
    simp only [step]
    split
    · exact .bind (.modify fun _ _ _ => rfl) fun _ => .pure _
    · exact .pure _
  | function =>
    simp only [step]
    split
    · exact touches_call h List.mem_cons_self _
    · exact .throw _
  | once =>
    refine .inspect (fun _ _ _ => rfl) fun m => ?_
    split
    · exact .pure _
    · exact .bind (.modify fun _ _ _ => rfl) fun _ => .pure _
  | openRead => exact touches_openCursor (touches_openRead _)
  | openEphemeral => exact touches_openCursor (touches_openEphemeral _)
  | openDup => exact touches_openCursor (touches_openDup _)
  | makeRecord => exact touches_makeRecord h List.mem_cons_self
  | idxInsert => exact touches_insertRecord _
  | found | notFound =>
    refine touches_probe ?_ _
    exact h
  | seekRowid => exact touches_seekRowid (h p3 List.mem_cons_self)
  | column => exact touches_loadColumn List.mem_cons_self
  | rowid => exact .bind (.cursor _) fun _ => .bind (.write List.mem_cons_self _) fun _ => .pure _
  | nullRow => exact .bind (.cursor _) fun _ => .bind (.modify fun _ _ _ => rfl) fun _ => .pure _
  | ifNullRow =>
    refine .bind (.cursor _) fun c => ?_
    split
    · exact .bind (.write List.mem_cons_self _) fun _ => .pure _
    · exact .pure _
  | rewind => exact touches_rewind _
  | next => exact touches_advance _
  | resultRow =>
    refine .bind (.modify fun m registers halike => ?_) fun _ => .pure _
    simp only [halike.registersFrom h]
  | init | goto | noop => exact .pure _

theorem register_step (i : Instr) (a : Nat) (m : Machine) {r : Int} (hr : r ∉ i.written) :
    ((i.step a).outcome m).2.register r = m.register r :=
  (touches_step (R := fun _ => True) (fun _ _ => trivial) a m m ⟨fun _ _ => rfl, rfl⟩).frame r hr

end Instr

end ScalarSql
