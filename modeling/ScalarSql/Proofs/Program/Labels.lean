import ScalarSql.Proofs.Program.Patching

/-!
# Jumps to labels

A program is written by emitting instructions and jumps to labels, and by resolving labels, in any order
(`Builder.Written`). It can be completed exactly if each label that a jump refers to was resolved, and then each jump
leads to where its label was (`Builder.build_written`).
-/

namespace ScalarSql.Builder

/-- An instruction as it was emitted, with the label that it jumps to. -/
abbrev Emitted := Instr × Option Label

/-- The program was written with the given instructions, and each label that `addr` has an address for was resolved
there, once. -/
inductive Written : List Emitted → (Label → Option Int) → Builder → Prop
  | start : Written [] (fun _ => none) {}
  | label {code addr b} (h : Written code addr b) : Written code addr b.label.2
  | emit {code addr b} (h : Written code addr b) (i : Instr) : Written (code ++ [(i, none)]) addr (b.emit i)
  | jump {code addr b} (h : Written code addr b) (i : Instr) (l : Label) :
      Written (code ++ [(i, some l)]) addr (b.emitJump i l)
  | resolve {code addr b l} (h : Written code addr b) (hl : l.index < b.labels.size) (hnew : addr l = none) :
      Written code (fun k => if k = l then some code.length else addr k) (b.resolve l)

section

variable (addr : Label → Option Int) (code : List Emitted) (x : Emitted)

/-- The instruction as it stands in the program: a jump to a label without an address has `-1` in its place. -/
def Emitted.placed : Instr :=
  x.2.elim x.1 fun l => { x.1 with p2 := (addr l).getD (-1) }

def Emitted.waits : Option Label := x.2.bind fun l => if addr l = none then some l else none

def waiting : List (Nat × Label) :=
  code.zipIdx.filterMap fun x => (x.1.waits addr).map (x.2, ·)

theorem waiting_append :
    waiting addr (code ++ [x]) = waiting addr code ++ ((x.waits addr).map (code.length, ·)).toList := by
  rw [waiting, List.zipIdx_append, List.filterMap_append, Nat.zero_add]
  cases h : x.waits addr <;> simp [waiting, h]

/-- The jumps that wait are in the order of their addresses. -/
theorem pairwise_waiting : (waiting addr code).Pairwise fun v w => v.1 < w.1 := by
  rw [waiting, List.pairwise_filterMap, List.pairwise_iff_getElem]
  intro j k hj hk hlt v hv w hw
  obtain ⟨_, -, rfl⟩ := Option.map_eq_some_iff.1 hv
  obtain ⟨_, -, rfl⟩ := Option.map_eq_some_iff.1 hw
  simpa using hlt

end

variable {code : List Emitted} {addr : Label → Option Int} {b : Builder} {l : Label} {k : Nat}

theorem mem_waiting : (k, l) ∈ waiting addr code ↔ ∃ i, code[k]? = some (i, some l) ∧ addr l = none := by
  simp only [waiting, List.mem_filterMap, Option.map_eq_some_iff, Emitted.waits, Option.bind_eq_some_iff]
  constructor
  · rintro ⟨⟨⟨i, _⟩, j⟩, hmem, l', ⟨_, rfl, hwaits⟩, heq⟩
    cases heq
    split at hwaits
    · cases hwaits
      exact ⟨i, List.mem_zipIdx_iff_getElem?.1 hmem, ‹_›⟩
    · cases hwaits
  · rintro ⟨i, hcode, hnone⟩
    exact ⟨((i, some l), k), List.mem_zipIdx_iff_getElem?.2 hcode, l, ⟨l, rfl, if_pos hnone⟩, rfl⟩

/-- What is known of a program under construction: jumps to labels without an address wait, in their order. -/
structure Records (code : List Emitted) (addr : Label → Option Int) (b : Builder) : Prop where
  ops : b.ops.toList = code.map (Emitted.placed addr)
  address : ∀ l, b.address? l = addr l
  fixups : b.fixups = waiting addr code

section

variable (h : Records code addr b)

include h

theorem Records.size : b.ops.size = code.length := by
  simpa using congrArg List.length h.ops

theorem Records.op (k : Nat) : b.ops[k]? = code[k]?.map (Emitted.placed addr) := by
  rw [← Array.getElem?_toList, h.ops, List.getElem?_map]

theorem Records.emit (i : Instr) : Records (code ++ [(i, none)]) addr (b.emit i) where
  ops := by simp [Builder.emit, h.ops, Emitted.placed]
  address := h.address
  fixups := by simp [waiting_append, Emitted.waits, ← h.fixups, Builder.emit]

theorem Records.jump (i : Instr) (l : Label) : Records (code ++ [(i, some l)]) addr (b.emitJump i l) where
  ops := by
    rw [emitJump, h.address]
    cases ha : addr l <;> simp [Builder.emit, h.ops, Emitted.placed, ha]
  address k := (emitJump_address? b i l k).trans (h.address k)
  fixups := by
    rw [emitJump, h.address, waiting_append, ← h.fixups, ← h.size]
    cases ha : addr l <;> simp [Builder.emit, Emitted.waits, ha]

theorem Records.resolve (hl : l.index < b.labels.size) (hnew : addr l = none) :
    Records code (fun k => if k = l then some code.length else addr k) (b.resolve l) where
  ops := by
    refine List.ext_getElem? fun k => ?_
    have hmem : (k, l) ∈ b.fixups ↔ ∃ i, code[k]? = some (i, some l) := by
      simp [h.fixups, mem_waiting, hnew]
    rw [Array.getElem?_toList, resolve_getElem?, h.op, here, h.size, List.getElem?_map]
    cases hcode : code[k]? with
    | none => simp
    | some x =>
      obtain ⟨i, target⟩ := x
      by_cases htarget : target = some l
      · simp [hmem, hcode, Emitted.placed, htarget]
      · rw [if_neg (by simp [hmem, hcode, htarget])]
        cases target with
        | none => rfl
        | some k => simp [Emitted.placed, show k ≠ l from fun h => htarget (h ▸ rfl)]
  address k := by
    by_cases hk : k = l
    · rw [hk, resolve_address?_self hl, h.size, if_pos rfl]
      rfl
    · rw [resolve_address?_ne hk, h.address, if_neg hk]
  fixups := by
    rw [resolve_fixups, h.fixups, waiting, waiting, List.filter_filterMap]
    congr 1
    funext x
    obtain ⟨⟨i, target⟩, j⟩ := x
    cases target with
    | none => rfl
    | some k =>
      by_cases hk : k = l
      · simp [Emitted.waits, hk, hnew]
      · cases ha : addr k <;> simp [Emitted.waits, hk, ha]

end

theorem Written.records (h : Written code addr b) : Records code addr b := by
  induction h with
  | start => exact ⟨rfl, fun _ => rfl, rfl⟩
  | label h ih => exact ⟨ih.ops, fun l => (label_address? _ l).trans (ih.address l), ih.fixups⟩
  | emit h i ih => exact ih.emit i
  | jump h i l ih => exact ih.jump i l
  | resolve h hl hnew ih => exact ih.resolve hl hnew

/-- A program can be completed exactly if every label that a jump refers to was resolved. Then the instructions are
those that were emitted, in their order, and the jumps lead to where their labels were resolved. Else the error names
the first jump whose label was not. -/
theorem build_written (h : Written code addr b) (registers cursors : Int) :
    ((∃ p, b.build registers cursors = .ok p) ↔ ∀ i l, (i, some l) ∈ code → (addr l).isSome) ∧
      (∀ p, b.build registers cursors = .ok p →
        p.registers = registers ∧ p.cursors = cursors ∧ p.ops.size = code.length ∧
        (∀ (k : Nat) i, code[k]? = some (i, none) → p.ops[k]? = some i) ∧
        ∀ (k : Nat) i l, code[k]? = some (i, some l) → ∃ a, addr l = some a ∧ p.ops[k]? = some { i with p2 := a }) ∧
      ∀ err, b.build registers cursors = .error err → ∃ (k : Nat) (i : Instr) (l : Label),
        code[k]? = some (i, some l) ∧ addr l = none ∧
        (∀ j < k, ∀ i' l', code[j]? = some (i', some l') → (addr l').isSome) ∧
        err = .internal ("unresolved label Label(" ++ Decimal.intText l.index ++ ") at address " ++
          Decimal.intText k) := by
  have hb := h.records
  have hresolved (hnone : waiting addr code = []) {k : Nat} {i l} (hk : code[k]? = some (i, some l)) :
      ∃ a, addr l = some a := by
    refine Option.ne_none_iff_exists'.1 fun ha => ?_
    have hmem := mem_waiting.2 ⟨i, hk, ha⟩
    rw [hnone] at hmem
    exact List.not_mem_nil hmem
  rw [build]
  cases hw : waiting addr code with
  | nil =>
    rw [hb.fixups, hw]
    refine ⟨iff_of_true ⟨_, rfl⟩ fun i l hmem => ?_, ?_, by rintro err ⟨⟩⟩
    · obtain ⟨k, hk⟩ := List.mem_iff_getElem?.1 hmem
      exact Option.isSome_iff_exists.2 (hresolved hw hk)
    · rintro _ ⟨⟩
      refine ⟨rfl, rfl, hb.size, fun k i hk => ?_, fun k i l hk => ?_⟩
      · simp [hb.op, hk, Emitted.placed]
      · obtain ⟨a, ha⟩ := hresolved hw hk
        exact ⟨a, ha, by simp [hb.op, hk, Emitted.placed, ha]⟩
  | cons w ws =>
    obtain ⟨k, l⟩ := w
    obtain ⟨i, hk, hnone⟩ := mem_waiting.1 (hw ▸ List.mem_cons_self : (k, l) ∈ waiting addr code)
    rw [hb.fixups, hw]
    refine ⟨iff_of_false (by rintro ⟨_, ⟨⟩⟩) fun hall => ?_, by rintro _ ⟨⟩, ?_⟩
    · simpa [hnone] using hall i l (List.mem_of_getElem? hk)
    · rintro _ ⟨⟩
      refine ⟨k, i, l, hk, hnone, fun j hj i' l' hj' => ?_, rfl⟩
      have hsorted := pairwise_waiting addr code
      refine Option.isSome_iff_ne_none.2 fun ha => ?_
      have hmem := mem_waiting.2 ⟨i', hj', ha⟩
      rw [hw] at hmem hsorted
      obtain heq | hmem := List.mem_cons.1 hmem
      · cases heq
        omega
      · have hlt : k < j := List.rel_of_pairwise_cons hsorted hmem
        omega

/-- A loop, with a jump forward to its end and one back to its top. -/
theorem build_written_loop : ∃ p, ((((label {}).2.label.2.emitJump (.of .rewind) ⟨1⟩).resolve ⟨0⟩).emitJump
    (.of .next) ⟨0⟩
      |>.resolve ⟨1⟩).build 0 1 = .ok p ∧ p.ops[0]? = some (.of .rewind 0 2) ∧ p.ops[1]? = some (.of .next 0 1) := by
  have hwritten := (((Written.start.label.label.jump (.of .rewind) ⟨1⟩).resolve (l := ⟨0⟩) (by decide) rfl).jump
    (.of .next) ⟨0⟩).resolve (l := ⟨1⟩) (by decide) rfl
  obtain ⟨-, -, -, -, hjumps⟩ := (build_written hwritten 0 1).2.1 _ rfl
  obtain ⟨_, ⟨⟩, hfirst⟩ := hjumps 0 _ _ rfl
  obtain ⟨_, ⟨⟩, hsecond⟩ := hjumps 1 _ _ rfl
  exact ⟨_, rfl, hfirst, hsecond⟩

end ScalarSql.Builder
