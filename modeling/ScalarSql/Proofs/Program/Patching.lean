import ScalarSql.Program.Builder

/-!
# Programs that grow

A step of a compilation appends instructions, and it may come back to earlier ones: a jump is patched
when its label gets an address, and a copy of registers next to the last one widens that one. So the
instruction at an address is not final until the program is complete. What is final is known earlier:
`Builder.patched` is the instruction at an address under an assignment of addresses to labels, and
`Builder.KeepsFrom` says that from one state of a program to a later one these instructions stay the
same, but for copies that were widened.
-/

namespace ScalarSql

/-- The second instruction is the first one, or the same copy with further target registers, all of
which satisfy `extra`. -/
def Instr.Widens (extra : Int → Prop) (i j : Instr) : Prop :=
  j = i ∨ i.opcode = .copy ∧ ∃ n, i.p3 < n ∧ j = { i with p3 := n } ∧ ∀ k, i.p3 < k → k ≤ n → extra (i.p2 + k)

namespace Instr.Widens

variable {extra other : Int → Prop} {i j k : Instr}

theorem refl (i : Instr) : i.Widens extra i := .inl rfl

theorem mono (h : ∀ r, extra r → other r) (w : i.Widens extra j) : i.Widens other j := by
  rcases w with rfl | ⟨hi, n, hn, rfl, hr⟩
  · exact .refl _
  · exact .inr ⟨hi, n, hn, rfl, fun k h1 h2 => h _ (hr k h1 h2)⟩

theorem trans (h1 : i.Widens extra j) (h2 : j.Widens extra k) : i.Widens extra k := by
  rcases h1 with rfl | ⟨hi, n, hn, rfl, hr⟩
  · exact h2
  · rcases h2 with rfl | ⟨_, p, hp, rfl, hs⟩
    · exact .inr ⟨hi, n, hn, rfl, hr⟩
    · refine .inr ⟨hi, p, Int.lt_trans hn hp, rfl, fun k h1 h2 => ?_⟩
      by_cases hk : k ≤ n
      · exact hr k h1 hk
      · exact hs k (Int.not_le.1 hk) h2

variable (w : i.Widens extra j)

include w

theorem eq_of_ne (hi : i.opcode ≠ .copy) : j = i := by
  rcases w with rfl | ⟨hc, _⟩
  · rfl
  · exact absurd hc hi

theorem opcode_eq : j.opcode = i.opcode := by
  rcases w with rfl | ⟨_, _, _, rfl, _⟩ <;> rfl

theorem p1_eq : j.p1 = i.p1 := by
  rcases w with rfl | ⟨_, _, _, rfl, _⟩ <;> rfl

theorem p2_eq : j.p2 = i.p2 := by
  rcases w with rfl | ⟨_, _, _, rfl, _⟩ <;> rfl

theorem p3_le : i.p3 ≤ j.p3 := by
  rcases w with rfl | ⟨_, _, hn, rfl, _⟩
  · exact Int.le_refl _
  · exact Int.le_of_lt hn

end Instr.Widens

namespace Builder

variable {i : Nat} {x ins : Instr} {l : Label} {f : Instr → Instr} {a : Int}

/-- The label that the jump at an address waits for. -/
def waitsFor? (b : Builder) (i : Nat) : Option Label := (b.fixups.find? (·.1 == i)).map (·.2)

/-- The instruction at an address once each label has the address that `addr` gives it. -/
def patched (b : Builder) (addr : Nat → Int) (i : Nat) : Option Instr :=
  b.ops[i]?.map fun ins => (b.waitsFor? i).elim ins fun l => { ins with p2 := addr l.index }

theorem getElem?_of_patched {b : Builder} {addr : Nat → Int} (h : b.patched addr i = some x) :
    ∃ y, b.ops[i]? = some y ∧ y.opcode = x.opcode := by
  obtain ⟨y, hy, rfl⟩ := Option.map_eq_some_iff.1 h
  refine ⟨y, hy, ?_⟩
  cases b.waitsFor? i <;> rfl

/-- The labels that have an address have the one that `addr` gives them. -/
def Settled (addr : Nat → Int) (b : Builder) : Prop :=
  ∀ l a, b.address? l = some a → addr l.index = a

/-- The jumps that wait are in the program, no address waits twice, and they wait for labels that
were made and have no address. -/
structure WellFormed (b : Builder) : Prop where
  /-- A jump that waits is in the program, and its label was made and has no address. -/
  waits : ∀ w ∈ b.fixups, w.1 < b.ops.size ∧ w.2.index < b.labels.size ∧ b.address? w.2 = none
  distinct : (b.fixups.map Prod.fst).Nodup
  copies : ∀ w ∈ b.fixups, ∀ x, b.ops[w.1]? = some x → x.opcode ≠ .copy

/-- The instructions of the first program from an address on stay in the second one; copies may have
further target registers, which satisfy `extra`. -/
structure KeepsFrom (extra : Int → Prop) (lo : Nat) (b b' : Builder) : Prop where
  size_le : b.ops.size ≤ b'.ops.size
  labels_le : b.labels.size ≤ b'.labels.size
  resolved : ∀ l a, b.address? l = some a → b'.address? l = some a
  waits : ∀ i, i < b.ops.size → b.waitsFor? i = none → b'.waitsFor? i = none
  code : ∀ addr, b'.Settled addr → ∀ i, lo ≤ i → i < b.ops.size →
    ∃ x y, b.patched addr i = some x ∧ b'.patched addr i = some y ∧ x.Widens extra y
  /-- Only the last instruction can be a copy that is widened. -/
  inner : ∀ addr, b'.Settled addr → ∀ i, lo ≤ i → i + 1 < b.ops.size → b'.patched addr i = b.patched addr i

/-- The first program stays as a part of the second one. -/
abbrev Keeps (extra : Int → Prop) (b b' : Builder) : Prop := KeepsFrom extra 0 b b'

variable {b b1 b2 : Builder} {extra other : Int → Prop} {lo : Nat} {addr : Nat → Int}

theorem Settled.of_keeps (h : b1.Settled addr) (k : KeepsFrom extra lo b b1) : b.Settled addr :=
  fun l a ha => h l a (k.resolved l a ha)

theorem patched_of_lt (addr : Nat → Int) (h : i < b.ops.size) : ∃ x, b.patched addr i = some x := by
  simp [patched, Array.getElem?_eq_getElem h]

namespace KeepsFrom

theorem refl (extra : Int → Prop) (lo : Nat) (b : Builder) : KeepsFrom extra lo b b where
  size_le := Nat.le_refl _
  labels_le := Nat.le_refl _
  resolved _ _ h := h
  waits _ _ h := h
  code addr _ i _ hi := by
    obtain ⟨x, hx⟩ := patched_of_lt addr hi
    exact ⟨x, x, hx, hx, .refl x⟩
  inner _ _ _ _ _ := rfl

theorem mono (h : ∀ r, extra r → other r) {lo' : Nat} (hlo : lo ≤ lo') (k : KeepsFrom extra lo b b1) :
    KeepsFrom other lo' b b1 :=
  { k with
    code addr hs i hi hlt := by
      obtain ⟨x, y, hx, hy, hxy⟩ := k.code addr hs i (Nat.le_trans hlo hi) hlt
      exact ⟨x, y, hx, hy, hxy.mono h⟩
    inner addr hs i hi hlt := k.inner addr hs i (Nat.le_trans hlo hi) hlt }

section

variable (h1 : KeepsFrom extra lo b b1)

include h1

/-- In front of the last instruction nothing changes twice, so only the code of both steps is to be compared. -/
theorem append {third : Int → Prop} (h2 : KeepsFrom other lo b1 b2)
    (hcode : ∀ addr, b2.Settled addr → ∀ i, lo ≤ i → i < b.ops.size →
      ∃ x y, b.patched addr i = some x ∧ b2.patched addr i = some y ∧ x.Widens third y) : KeepsFrom third lo b b2 where
  size_le := Nat.le_trans h1.size_le h2.size_le
  labels_le := Nat.le_trans h1.labels_le h2.labels_le
  resolved l a h := h2.resolved l a (h1.resolved l a h)
  waits i hi h := h2.waits i (Nat.lt_of_lt_of_le hi h1.size_le) (h1.waits i hi h)
  code := hcode
  inner addr hs i hlo hi := by
    rw [h2.inner addr hs i hlo (Nat.lt_of_lt_of_le hi h1.size_le), h1.inner addr (hs.of_keeps h2) i hlo hi]

theorem trans (h2 : KeepsFrom extra lo b1 b2) : KeepsFrom extra lo b b2 := by
  refine h1.append h2 fun addr hs i hlo hi => ?_
  obtain ⟨x, y, hx, hy, hxy⟩ := h1.code addr (hs.of_keeps h2) i hlo hi
  obtain ⟨y', z, hy', hz, hyz⟩ := h2.code addr hs i hlo (Nat.lt_of_lt_of_le hi h1.size_le)
  cases hy.symm.trans hy'
  exact ⟨x, z, hx, hz, hxy.trans hyz⟩

/-- Once there is code behind a program, its last instruction is not widened any more. -/
theorem trans_of_lt (h2 : KeepsFrom other lo b1 b2) (hlt : b.ops.size < b1.ops.size) : KeepsFrom extra lo b b2 := by
  refine h1.append h2 fun addr hs i hlo hi => ?_
  rw [h2.inner addr hs i hlo (by omega)]
  exact h1.code addr (hs.of_keeps h2) i hlo hi

end

theorem of_eq (hsize : b.ops.size ≤ b1.ops.size) (hlabels : b.labels.size ≤ b1.labels.size)
    (hresolved : ∀ l a, b.address? l = some a → b1.address? l = some a)
    (hwaits : ∀ i, i < b.ops.size → b.waitsFor? i = none → b1.waitsFor? i = none)
    (hcode : ∀ addr, b1.Settled addr → ∀ i, lo ≤ i → i < b.ops.size → b1.patched addr i = b.patched addr i) :
    KeepsFrom extra lo b b1 where
  size_le := hsize
  labels_le := hlabels
  resolved := hresolved
  waits := hwaits
  code addr hs i hlo hi := by
    obtain ⟨x, hx⟩ := patched_of_lt addr hi
    exact ⟨x, x, hx, (hcode addr hs i hlo hi).trans hx, .refl x⟩
  inner addr hs i hlo hi := hcode addr hs i hlo (by omega)

end KeepsFrom

/-! ## Appending an instruction -/

theorem waitsFor?_eq_none : b.waitsFor? i = none ↔ ∀ l, (i, l) ∉ b.fixups := by
  simp only [waitsFor?, Option.map_eq_none_iff, List.find?_eq_none, beq_iff_eq]
  constructor
  · exact fun h l hl => h _ hl rfl
  · rintro h ⟨_, l⟩ hw rfl
    exact h l hw

theorem waitsFor?_size (hb : b.WellFormed) : b.waitsFor? b.ops.size = none :=
  waitsFor?_eq_none.2 fun _ hl => Nat.lt_irrefl _ (hb.waits _ hl).1

@[simp]
theorem emit_size (b : Builder) (ins : Instr) : (b.emit ins).ops.size = b.ops.size + 1 := by
  simp [emit]

theorem emit_getElem?_lt (h : i < b.ops.size) : (b.emit ins).ops[i]? = b.ops[i]? := by
  simp [emit, Array.getElem?_push, Nat.ne_of_lt h]

theorem emit_getElem? : (b.emit ins).ops[i]? = some x ↔ b.ops[i]? = some x ∨ i = b.ops.size ∧ ins = x := by
  rw [emit, Array.getElem?_push]
  split
  · rename_i h
    simp [h]
  · rename_i h
    simp [h]

theorem emit_patched_lt (h : i < b.ops.size) : (b.emit ins).patched addr i = b.patched addr i := by
  rw [patched, emit_getElem?_lt h]
  rfl

theorem emit_patched_size (hb : b.WellFormed) (ins : Instr) : (b.emit ins).patched addr b.ops.size = some ins := by
  have hwaits : (b.emit ins).waitsFor? b.ops.size = none := waitsFor?_size hb
  rw [patched, hwaits]
  simp [emit]

theorem emit_keeps (ins : Instr) : Keeps extra b (b.emit ins) :=
  .of_eq (by simp) (Nat.le_refl _) (fun _ _ h => h) (fun _ _ h => h) fun _ _ _ _ hi => emit_patched_lt hi

theorem WellFormed.emit (hb : b.WellFormed) (ins : Instr) : (b.emit ins).WellFormed where
  waits w hw := by
    obtain ⟨h1, h2, h3⟩ := hb.waits w hw
    exact ⟨by rw [emit_size]; omega, h2, h3⟩
  distinct := hb.distinct
  copies w hw x hx := by
    rw [emit_getElem?_lt (hb.waits w hw).1] at hx
    exact hb.copies w hw x hx

/-! ## Labels -/

theorem label_address? (b : Builder) (l : Label) : b.label.2.address? l = b.address? l := by
  simp only [label, address?, Array.getElem?_push]
  split
  · rename_i h
    simp [h]
  · rfl

theorem address?_of_size_le (h : b.labels.size ≤ l.index) : b.address? l = none := by
  simp [address?, h]

@[simp]
theorem label_size (b : Builder) : b.label.2.labels.size = b.labels.size + 1 := by
  simp [label]

theorem label_keeps (b : Builder) : Keeps extra b b.label.2 :=
  .of_eq (Nat.le_refl _) (by simp) (fun l _ h => (label_address? b l).trans h) (fun _ _ h => h) fun _ _ _ _ _ => rfl

theorem WellFormed.label (hb : b.WellFormed) : b.label.2.WellFormed :=
  { hb with
    waits w hw := by
      obtain ⟨h1, h2, h3⟩ := hb.waits w hw
      refine ⟨h1, ?_, (label_address? b w.2).trans h3⟩
      rw [label_size]
      omega }

/-! ## Appending a jump -/

@[simp]
theorem emitJump_size (b : Builder) (ins : Instr) (l : Label) : (b.emitJump ins l).ops.size = b.ops.size + 1 := by
  unfold emitJump
  split <;> simp [emit]

@[simp]
theorem emitJump_labels (b : Builder) (ins : Instr) (l : Label) : (b.emitJump ins l).labels = b.labels := by
  unfold emitJump
  split <;> rfl

theorem emitJump_address? (b : Builder) (ins : Instr) (l k : Label) : (b.emitJump ins l).address? k = b.address? k := by
  simp [address?]

theorem emitJump_of_address (h : b.address? l = some a) : b.emitJump ins l = b.emit { ins with p2 := a } := by
  simp [emitJump, h]

theorem emitJump_of_none (h : b.address? l = none) :
    b.emitJump ins l = { b.emit { ins with p2 := -1 } with fixups := b.fixups ++ [(b.ops.size, l)] } := by
  simp [emitJump, h]

theorem mem_emitJump_fixups {w : Nat × Label} :
    w ∈ (b.emitJump ins l).fixups ↔ w ∈ b.fixups ∨ b.address? l = none ∧ w = (b.ops.size, l) := by
  cases h : b.address? l with
  | some a => simp [emitJump_of_address h, emit]
  | none => simp [emitJump_of_none h]

theorem emitJump_getElem?_lt (h : i < b.ops.size) : (b.emitJump ins l).ops[i]? = b.ops[i]? := by
  unfold emitJump
  split <;> exact emit_getElem?_lt h

theorem emitJump_getElem? (h : (b.emitJump ins l).ops[i]? = some x) :
    b.ops[i]? = some x ∨ i = b.ops.size ∧ ∃ p2, { ins with p2 } = x := by
  unfold emitJump at h
  split at h <;> exact (emit_getElem?.1 h).imp_right (.imp_right fun h => ⟨_, h⟩)

theorem emitJump_waitsFor?_lt (h : i < b.ops.size) : (b.emitJump ins l).waitsFor? i = b.waitsFor? i := by
  unfold emitJump
  split
  · rfl
  · simp [waitsFor?, List.find?_append, Nat.ne_of_gt h]

theorem emitJump_patched_lt (h : i < b.ops.size) : (b.emitJump ins l).patched addr i = b.patched addr i := by
  rw [patched, patched, emitJump_getElem?_lt h, emitJump_waitsFor?_lt h]

theorem emitJump_patched_size (hb : b.WellFormed) (hs : (b.emitJump ins l).Settled addr) :
    (b.emitJump ins l).patched addr b.ops.size = some { ins with p2 := addr l.index } := by
  cases ha : b.address? l with
  | some a => rw [emitJump_of_address ha, emit_patched_size hb, hs l a ((emitJump_address? b ins l l).trans ha)]
  | none =>
    have hnone := waitsFor?_size hb
    simp only [waitsFor?, Option.map_eq_none_iff] at hnone
    simp [emitJump_of_none ha, patched, waitsFor?, List.find?_append, hnone, emit]

theorem emitJump_keeps (ins : Instr) (l : Label) : Keeps extra b (b.emitJump ins l) :=
  .of_eq (by simp) (by simp) (fun k _ h => (emitJump_address? b ins l k).trans h)
    (fun _ hi h => (emitJump_waitsFor?_lt hi).trans h) fun _ _ _ _ hi => emitJump_patched_lt hi

theorem WellFormed.emitJump (hb : b.WellFormed) (hl : l.index < b.labels.size) (hins : ins.opcode ≠ .copy) :
    (b.emitJump ins l).WellFormed := by
  cases ha : b.address? l with
  | some a =>
    rw [emitJump_of_address ha]
    exact hb.emit _
  | none =>
    rw [emitJump_of_none ha]
    have hemit := hb.emit { ins with p2 := -1 }
    refine ⟨List.forall_mem_append.2 ⟨hemit.waits, List.forall_mem_singleton.2 ⟨by simp, hl, ha⟩⟩, ?_,
      List.forall_mem_append.2 ⟨hemit.copies, List.forall_mem_singleton.2 fun x hx => ?_⟩⟩
    · rw [List.map_append, List.nodup_append]
      refine ⟨hb.distinct, by simp, ?_⟩
      rintro _ hx _ hy rfl
      obtain ⟨w, hw, rfl⟩ := List.mem_map.1 hx
      exact Nat.ne_of_lt (hb.waits w hw).1 (by simpa using hy)
    · obtain rfl : { ins with p2 := -1 } = x := by simpa [Builder.emit] using hx
      exact hins

/-! ## Giving a label its address -/

/-- Changing the instructions at several addresses in turn, by a change that makes no difference the
second time. -/
theorem foldl_modify_getElem? (hf : ∀ x, f (f x) = f x) (ws : List (Nat × Label)) (ops : Array Instr) (i : Nat) :
    (ws.foldl (fun ops w => ops.modify w.1 f) ops)[i]? = if i ∈ ws.map Prod.fst then ops[i]?.map f else ops[i]? := by
  induction ws generalizing ops with
  | nil => simp
  | cons w ws ih =>
    rw [List.foldl_cons, ih, Array.getElem?_modify]
    by_cases hw : w.1 = i
    · subst hw
      cases ops[w.1]? <;> simp [hf]
    · have hmem : i ∈ (w :: ws).map Prod.fst ↔ i ∈ ws.map Prod.fst := by
        simp [Ne.symm hw]
      simp only [hw, if_false, hmem]

theorem foldl_modify_size (ws : List (Nat × Label)) (ops : Array Instr) :
    (ws.foldl (fun ops w => ops.modify w.1 f) ops).size = ops.size := by
  induction ws generalizing ops with
  | nil => rfl
  | cons w ws ih => rw [List.foldl_cons, ih, Array.size_modify]

@[simp]
theorem resolve_size (b : Builder) (l : Label) : (b.resolve l).ops.size = b.ops.size := foldl_modify_size _ _

@[simp]
theorem resolve_labels_size (b : Builder) (l : Label) : (b.resolve l).labels.size = b.labels.size := by
  simp [resolve]

theorem resolve_address?_ne {k : Label} (h : k ≠ l) : (b.resolve l).address? k = b.address? k := by
  have hne : l.index ≠ k.index := fun he => h (by cases l; cases k; cases he; rfl)
  simp [resolve, address?, Array.getElem?_modify, hne]

theorem resolve_address?_self (h : l.index < b.labels.size) : (b.resolve l).address? l = some b.ops.size := by
  simp [resolve, address?, Array.getElem_modify_self, h, here]

theorem resolve_fixups (b : Builder) (l : Label) : (b.resolve l).fixups = b.fixups.filter fun w => !(w.2 == l) := by
  simp [resolve, List.partition_eq_filter_filter]
  rfl

theorem mem_resolve_fixups {w : Nat × Label} : w ∈ (b.resolve l).fixups ↔ w ∈ b.fixups ∧ w.2 ≠ l := by
  simp [resolve_fixups]

theorem resolve_getElem? (b : Builder) (l : Label) (i : Nat) : (b.resolve l).ops[i]? =
      if (i, l) ∈ b.fixups then b.ops[i]?.map fun x => { x with p2 := b.here } else b.ops[i]? := by
  have hmem : (i, l) ∈ b.fixups ↔ i ∈ (b.fixups.filter (·.2 == l)).map Prod.fst := by simp
  simp only [hmem, ← foldl_modify_getElem? (f := fun x => { x with p2 := b.here }) (fun _ => rfl)]
  simp [resolve, List.partition_eq_filter_filter]

theorem find?_of_nodup {ws : List (Nat × Label)} (h : (ws.map Prod.fst).Nodup) {w : Nat × Label}
    (hw : w ∈ ws) : ws.find? (·.1 == w.1) = some w := by
  induction ws with
  | nil => simp at hw
  | cons v ws ih =>
    rw [List.map_cons, List.nodup_cons] at h
    rcases List.mem_cons.1 hw with rfl | hw
    · simp
    · have hne : v.1 ≠ w.1 := fun he => h.1 (he ▸ List.mem_map_of_mem hw)
      simp [hne, ih h.2 hw]

theorem waitsFor?_eq_some (hb : b.WellFormed) : b.waitsFor? i = some l ↔ (i, l) ∈ b.fixups := by
  constructor
  · intro h
    simp only [waitsFor?, Option.map_eq_some_iff] at h
    obtain ⟨⟨j, k⟩, hfind, rfl⟩ := h
    have hj := List.find?_some hfind
    simp only [beq_iff_eq] at hj
    exact hj ▸ List.mem_of_find?_eq_some hfind
  · intro h
    have hfind := find?_of_nodup hb.distinct h
    simp [waitsFor?, hfind]

theorem WellFormed.resolve (hb : b.WellFormed) (l : Label) : (b.resolve l).WellFormed where
  waits w hw := by
    obtain ⟨hw, hne⟩ := mem_resolve_fixups.1 hw
    rw [resolve_size, resolve_labels_size, resolve_address?_ne hne]
    exact hb.waits w hw
  distinct := by
    rw [resolve_fixups]
    exact hb.distinct.sublist (List.Sublist.map _ List.filter_sublist)
  copies w hw x hx := by
    have hw := (mem_resolve_fixups.1 hw).1
    rw [resolve_getElem?] at hx
    split at hx
    · obtain ⟨y, hy, rfl⟩ := Option.map_eq_some_iff.1 hx
      exact hb.copies w hw y hy
    · exact hb.copies w hw x hx

theorem resolve_waitsFor? (hb : b.WellFormed) (l : Label) (i : Nat) :
    (b.resolve l).waitsFor? i = (b.waitsFor? i).filter (· ≠ l) := by
  ext k
  rw [waitsFor?_eq_some (hb.resolve l), mem_resolve_fixups, Option.filter_eq_some_iff, waitsFor?_eq_some hb]
  simp

theorem resolve_waitsFor?_none (hwaits : b.waitsFor? i = none) (l : Label) : (b.resolve l).waitsFor? i = none :=
  waitsFor?_eq_none.2 fun k hk => waitsFor?_eq_none.1 hwaits k (mem_resolve_fixups.1 hk).1

theorem resolve_patched (hb : b.WellFormed) (hl : l.index < b.labels.size) (hs : (b.resolve l).Settled addr) (i : Nat) :
    (b.resolve l).patched addr i = b.patched addr i := by
  have haddr : addr l.index = b.here := hs l _ (resolve_address?_self hl)
  rw [patched, patched, resolve_waitsFor? hb, resolve_getElem?]
  cases hw : b.waitsFor? i with
  | none =>
    rw [if_neg (waitsFor?_eq_none.1 hw l)]
    rfl
  | some k =>
    have hk := (waitsFor?_eq_some hb).1 hw
    by_cases hkl : k = l
    · subst hkl
      rw [if_pos hk]
      cases b.ops[i]? <;> simp [Option.filter, haddr]
    · have hnot : (i, l) ∉ b.fixups := fun h => hkl (Option.some.inj (hw.symm.trans ((waitsFor?_eq_some hb).2 h)))
      simp [Option.filter, hnot, hkl]

theorem resolve_keeps (hb : b.WellFormed) (hl : l.index < b.labels.size) (hnone : b.address? l = none) :
    Keeps extra b (b.resolve l) := by
  refine .of_eq (by simp) (by simp) (fun k a hk => ?_) (fun i _ hi => resolve_waitsFor?_none hi l)
    fun _ hs i _ _ => resolve_patched hb hl hs i
  have hne : k ≠ l := fun he => by rw [he, hnone] at hk; cases hk
  rw [resolve_address?_ne hne, hk]

/-! ## Changing an instruction -/

@[simp]
theorem modifyAt_size (b : Builder) (a : Int) (f : Instr → Instr) : (b.modifyAt a f).ops.size = b.ops.size := by
  unfold modifyAt
  split <;> simp

@[simp]
theorem modifyAt_labels (b : Builder) (a : Int) (f : Instr → Instr) : (b.modifyAt a f).labels = b.labels := by
  unfold modifyAt
  split <;> rfl

@[simp]
theorem modifyAt_fixups (b : Builder) (a : Int) (f : Instr → Instr) : (b.modifyAt a f).fixups = b.fixups := by
  unfold modifyAt
  split <;> rfl

theorem modifyAt_getElem?_ne (h : (i : Int) ≠ a) : (b.modifyAt a f).ops[i]? = b.ops[i]? := by
  unfold modifyAt
  split
  · have hne : a.toNat ≠ i := by omega
    simp [Array.getElem?_modify, hne]
  · rfl

theorem modifyAt_getElem?_self (a : Nat) (f : Instr → Instr) : (b.modifyAt a f).ops[a]? = b.ops[a]?.map f := by
  simp [modifyAt, Array.getElem?_modify]

theorem last?_eq_getElem? (b : Builder) : b.last? = b.ops[b.ops.size - 1]? := rfl

theorem last?_emit (b : Builder) (i : Instr) : (b.emit i).last? = some i := by
  simp [last?, emit]

theorem emitJump_last? (b : Builder) (i : Instr) (l : Label) : ∃ p2, (b.emitJump i l).last? = some { i with p2 } := by
  unfold emitJump
  split <;> simp [last?, emit]

theorem last?_of_resolve (h : (b.resolve l).last? = some x) : ∃ y, b.last? = some y ∧ y.opcode = x.opcode := by
  simp only [last?, Array.back?, resolve_getElem?, resolve_size] at h ⊢
  split at h
  · obtain ⟨y, hy, rfl⟩ := Option.map_eq_some_iff.1 h
    exact ⟨y, hy, rfl⟩
  · exact ⟨x, h, rfl⟩

theorem emit_emit_jumpHere (b : Builder) (i j : Instr) :
    ((b.emit i).emit j).jumpHere b.here = (b.emit { i with p2 := b.here + 2 }).emit j := by
  have hops : ((b.ops.push i).push j).modify b.ops.size (fun x => { x with p2 := b.here + 2 }) =
      (b.ops.push { i with p2 := b.here + 2 }).push j := by
    refine Array.ext_getElem? fun k => ?_
    grind
  simpa [jumpHere, modifyAt, emit, here, Int.add_assoc] using hops

theorem modifyAt_patched_ne (h : (i : Int) ≠ a) : (b.modifyAt a f).patched addr i = b.patched addr i := by
  simp [patched, waitsFor?, modifyAt_getElem?_ne h]

theorem modifyAt_patched_self {a : Nat} (f : Instr → Instr) (h : b.waitsFor? a = none) :
    (b.modifyAt a f).patched addr a = (b.patched addr a).map f := by
  have hafter : (b.modifyAt a f).waitsFor? a = none := by simpa [waitsFor?] using h
  rw [patched, patched, h, hafter, modifyAt_getElem?_self]
  cases b.ops[a]? <;> simp

theorem WellFormed.modifyAt (hb : b.WellFormed) (hf : ∀ x, (f x).opcode = .copy → x.opcode = .copy) :
    (b.modifyAt a f).WellFormed where
  waits w hw := by
    rw [modifyAt_fixups] at hw
    simpa [address?] using hb.waits w hw
  distinct := by
    rw [modifyAt_fixups]
    exact hb.distinct
  copies w hw x hx := by
    rw [modifyAt_fixups] at hw
    by_cases hwa : (w.1 : Int) = a
    · subst hwa
      rw [modifyAt_getElem?_self] at hx
      obtain ⟨y, hy, rfl⟩ := Option.map_eq_some_iff.1 hx
      exact fun hc => hb.copies w hw y hy (hf y hc)
    · rw [modifyAt_getElem?_ne hwa] at hx
      exact hb.copies w hw x hx

/-- A change in front of what is to be kept does not touch that. -/
theorem modifyAt_keepsFrom (ha : a < lo) : KeepsFrom extra lo b (b.modifyAt a f) :=
  .of_eq (by simp) (by simp) (fun l a h => by simpa [address?] using h) (fun i _ h => by simpa [waitsFor?] using h)
    fun _ _ i hlo _ => modifyAt_patched_ne (by omega)

section

variable (hb : b.WellFormed) (hx : b.ops[i]? = some x) (hc : x.opcode = .copy)

include hb hx hc

theorem waitsFor?_of_copy : b.waitsFor? i = none := by
  cases h : b.waitsFor? i with
  | none => rfl
  | some l => exact absurd hc (hb.copies (i, l) ((waitsFor?_eq_some hb).1 h) x hx)

theorem patched_of_copy : b.patched addr i = some x := by
  rw [patched, hx, waitsFor?_of_copy hb hx hc]
  rfl

end

theorem getElem?_of_patched_copy (hb : b.WellFormed) (hx : b.patched addr i = some x) (hc : x.opcode = .copy) :
    b.ops[i]? = some x := by
  simp only [patched, Option.map_eq_some_iff] at hx
  obtain ⟨z, hz, hzx⟩ := hx
  have hzc : z.opcode = .copy := by
    rw [← hc, ← hzx]
    cases b.waitsFor? i <;> rfl
  rw [waitsFor?_of_copy hb hz hzc] at hzx
  cases hzx
  exact hz

section

variable (k : KeepsFrom extra lo b b1) (hb : b.WellFormed) (hb1 : b1.WellFormed) (hs : b1.Settled addr)

include k hb hb1 hs

theorem KeepsFrom.copy
    (hlo : lo ≤ i) (hx : b.ops[i]? = some x) (hc : x.opcode = .copy) : ∃ y, b1.ops[i]? = some y ∧ x.Widens extra y := by
  obtain ⟨hi, -⟩ := Array.getElem?_eq_some_iff.1 hx
  obtain ⟨x', y, hx', hy, hxy⟩ := k.code addr hs i hlo hi
  cases (patched_of_copy hb hx hc).symm.trans hx'
  exact ⟨y, getElem?_of_patched_copy hb1 hy (hxy.opcode_eq.trans hc), hxy⟩

theorem KeepsFrom.was_copy {y : Instr} (hlo : lo ≤ i) (hi : i < b.ops.size) (hy : b1.ops[i]? = some y)
    (hc : y.opcode = .copy) : ∃ x, b.ops[i]? = some x ∧ x.Widens extra y := by
  obtain ⟨x, y', hx, hy', hxy⟩ := k.code addr hs i hlo hi
  cases (patched_of_copy hb1 hy hc).symm.trans hy'
  exact ⟨x, getElem?_of_patched_copy hb hx (hxy.opcode_eq.symm.trans hc), hxy⟩

end

/-- Widening the copy at the end of a program keeps the program. -/
theorem widen_keeps (hb : b.WellFormed) (hx : b.last? = some x) (hc : x.opcode = .copy)
    (hextra : extra (x.p2 + (x.p3 + 1))) :
    Keeps extra b (b.modifyAt (b.here - 1) fun i => { i with p3 := x.p3 + 1 }) where
  size_le := by simp
  labels_le := by simp
  resolved l a h := by simpa [address?] using h
  waits i _ h := by simpa [waitsFor?] using h
  code addr _ i _ hi := by
    have hlast : b.ops[b.ops.size - 1]? = some x := hx
    by_cases hil : i = b.ops.size - 1
    · subst hil
      have hwaits := waitsFor?_of_copy hb hlast hc
      have hcast : b.here - 1 = ((b.ops.size - 1 : Nat) : Int) := by
        simp only [here]
        omega
      have hpatched : b.patched addr (b.ops.size - 1) = some x := by
        rw [patched, hwaits, hlast]
        rfl
      refine ⟨x, { x with p3 := x.p3 + 1 }, hpatched, ?_, .inr ⟨hc, x.p3 + 1, by omega, rfl, ?_⟩⟩
      · rw [hcast, modifyAt_patched_self _ hwaits, hpatched]
        rfl
      · intro k h1 h2
        have hk : k = x.p3 + 1 := by omega
        exact hk ▸ hextra
    · have hne : (i : Int) ≠ b.here - 1 := by
        simp only [here]
        omega
      obtain ⟨y, hy⟩ := patched_of_lt addr hi
      exact ⟨y, y, hy, (modifyAt_patched_ne hne).trans hy, .refl y⟩
  inner addr _ i _ hi := by
    have hne : (i : Int) ≠ b.here - 1 := by
      simp only [here]
      omega
    exact modifyAt_patched_ne hne

end Builder

end ScalarSql
