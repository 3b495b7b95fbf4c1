import ScalarSql.Proofs.Machine.Leads
import ScalarSql.Proofs.Program.Patching

/-!
# Where jumps lead

A jump gets its target in one of three ways: with a label that has its address already, with a label that gets it
later, or by its own address, when it is sent to the instruction that follows. `Builder.Aimed` says that every
jump of a program under construction has a target inside the program or still waits for one, and
`Builder.Spans` what a stretch of code adds to it. The code between two points of a stretch may leave some ends
loose (`Ends`): labels without an address and jumps without a target. A finished stretch has none.

A stretch belongs to a region of the program. It leaves the instructions before the region alone, but for a copy at
their end that it may widen, and none of its jumps leads to an address that is closed to them. Calls of routines may
lead to some of these.
-/

namespace ScalarSql

/-- A part of a program that is being written. -/
structure Region where
  first : Nat
  /-- The addresses where no jump may lead. -/
  closed : Int → Prop
  /-- The addresses where no call may lead. -/
  barred : Int → Prop
  first_pos : 1 ≤ first
  closed_le : ∀ a, closed a → a ≤ first
  closed_of_barred : ∀ a, barred a → closed a

/-- What a stretch of code leaves to be done. -/
structure Ends where
  labels : List Label := []
  jumps : List Int := []

/-- Jumps may lead to the label: it is one of those given, or has no address yet. -/
abbrev Ends.Offers (E : Ends) (L : List Label) (l : Label) : Prop := l ∈ L ∨ l ∈ E.labels

namespace Builder

variable {z : Region} {loose other : Int → Prop} {L : List Label} {E : Ends} {b b0 : Builder} {l : Label} {i : Instr}
  {a : Int} {b' : Builder} {n : Nat} {f : Instr → Instr}

/-- A jump may lead to the address: it is in the program or right behind it, and it is neither the start of the
program nor closed. -/
def Lands (z : Region) (b : Builder) (a : Int) : Prop := 1 ≤ a ∧ a ≤ b.ops.size ∧ ¬ z.closed a

def Called (z : Region) (b : Builder) (a : Int) : Prop := 1 ≤ a ∧ a ≤ b.ops.size ∧ ¬ z.barred a

def Reaches (z : Region) (b : Builder) (i : Instr) : Prop :=
  b.Lands z i.p2 ∨ i.opcode = .gosub ∧ b.Called z i.p2

/-- Jumps may lead to the label: it was made, and its address, if it has one, is not closed. -/
def Offers (z : Region) (b : Builder) (l : Label) : Prop :=
  l.index < b.labels.size ∧ ∀ x, b.address? l = some x → ¬ z.closed x

/-- Instructions before the region stay, but for copies that are made wider. -/
def Kept (z : Region) (b0 b : Builder) : Prop :=
  ∀ n < z.first, ∀ i, b0.ops[n]? = some i → ∃ j, b.ops[n]? = some j ∧ i.Widens (fun _ => True) j

/-- Every jump has a target or waits for one, except for those at the loose addresses. -/
structure Aimed (z : Region) (loose : Int → Prop) (b : Builder) : Prop where
  first_le : z.first ≤ b.ops.size
  jumps : ∀ (n : Nat) i, b.ops[n]? = some i → i.canJump = true → loose n ∨ n ∈ b.fixups.map Prod.fst ∨ b.Reaches z i
  labels : ∀ l x, b.address? l = some x → 1 ≤ x ∧ x ≤ b.ops.size
  /-- The jumps that wait are loose or in the region, and they wait for labels that were made and have no address. -/
  waits : ∀ w ∈ b.fixups,
    (loose w.1 ∨ z.first ≤ w.1) ∧ w.1 < b.ops.size ∧ w.2.index < b.labels.size ∧ b.address? w.2 = none

/-- What a stretch of code has done to a program: labels outside of it are as before, jumps wait only for labels
that it was given or has made, and the ends that it leaves are those listed. -/
structure Spans (z : Region) (loose : Int → Prop) (L : List Label) (E : Ends) (b0 b : Builder) : Prop where
  /-- Before the stretch all jumps but the loose ones had their targets. -/
  origin : b0.Aimed z loose
  aimed : b.Aimed z fun a => loose a ∨ a ∈ E.jumps
  offers : ∀ l ∈ L, b0.Offers z l
  size_le : b0.ops.size ≤ b.ops.size
  labels_le : b0.labels.size ≤ b.labels.size
  address : ∀ l, l.index < b0.labels.size → b.address? l = b0.address? l
  waits : ∀ w ∈ b.fixups, w ∈ b0.fixups ∨ z.first ≤ w.1 ∧ E.Offers L w.2
  pending : ∀ w ∈ b0.fixups, w ∈ b.fixups
  distinct : E.labels.Nodup
  fresh : ∀ l ∈ E.labels, b0.labels.size ≤ l.index ∧ l.index < b.labels.size ∧ b.address? l = none
  kept : Kept z b0 b

/-! ## Addresses -/

theorem Lands.mono (h : b.Lands z a) (hsize : b.ops.size ≤ b'.ops.size) : b'.Lands z a :=
  ⟨h.1, by have := h.2.1; omega, h.2.2⟩

theorem Called.mono (h : b.Called z a) (hsize : b.ops.size ≤ b'.ops.size) : b'.Called z a :=
  ⟨h.1, by have := h.2.1; omega, h.2.2⟩

theorem Lands.called (h : b.Lands z a) : b.Called z a :=
  ⟨h.1, h.2.1, fun hbarred => h.2.2 (z.closed_of_barred a hbarred)⟩

theorem Reaches.bounds (h : b.Reaches z i) : 1 ≤ i.p2 ∧ i.p2 ≤ b.ops.size :=
  h.elim (fun hland => ⟨hland.1, hland.2.1⟩) fun hcall => ⟨hcall.2.1, hcall.2.2.1⟩

theorem Reaches.mono (h : b.Reaches z i) (hsize : b.ops.size ≤ b'.ops.size) : b'.Reaches z i :=
  h.imp (·.mono hsize) (.imp_right (·.mono hsize))

theorem Kept.of_eq (h : ∀ n < z.first, b.ops[n]? = b0.ops[n]?) : Kept z b0 b := fun n hn i hi =>
  ⟨i, (h n hn).trans hi, .refl i⟩

theorem Kept.trans (h : Kept z b0 b) (h' : Kept z b b') : Kept z b0 b' := by
  intro n hn i hi
  obtain ⟨j, hj, hij⟩ := h n hn i hi
  obtain ⟨k, hk, hjk⟩ := h' n hn j hj
  exact ⟨k, hk, hij.trans hjk⟩

theorem Kept.getElem? (h : Kept z b0 b) (hn : n < z.first) (hi : b0.ops[n]? = some i) (hcopy : i.opcode ≠ .copy) :
    b.ops[n]? = some i := by
  obtain ⟨j, hj, hwidens⟩ := h n hn i hi
  rw [hj, hwidens.eq_of_ne hcopy]

theorem Aimed.mono (h : b.Aimed z loose) (hle : ∀ a, loose a → other a) : b.Aimed z other :=
  { h with
    jumps := fun n i hi hj => (h.jumps n i hi hj).imp_left (hle n)
    waits := fun w hw => (h.waits w hw).imp_left (.imp_left (hle _)) }

theorem lands_here (hlt : z.first < b.ops.size) : b.Lands z b.here := by
  refine ⟨?_, Int.le_refl _, fun hclosed => ?_⟩
  · unfold here
    omega
  · have := z.closed_le _ hclosed
    unfold here at this
    omega

/-! ## Instructions -/

/-- An instruction is added: it cannot jump, or is loose, or has a target. -/
theorem Aimed.emit (h : b.Aimed z loose) (hi : i.canJump → loose b.here ∨ b.Reaches z i) :
    (b.emit i).Aimed z loose where
  first_le := by
    have := h.first_le
    simp
    omega
  jumps n x hx hj := by
    rcases emit_getElem?.1 hx with hx | ⟨rfl, rfl⟩
    · exact (h.jumps n x hx hj).imp_right (.imp_right fun hland => hland.mono (by simp))
    · exact (hi hj).imp_right fun hland => .inr (hland.mono (by simp))
  labels l x hx := by
    have := h.labels l x hx
    simp
    omega
  waits w hw := by
    obtain ⟨h1, h2, h3⟩ := h.waits w hw
    exact ⟨h1, by simp; omega, h3⟩

theorem Aimed.emitJump (h : b.Aimed z loose) (hl : b.Offers z l) (i : Instr) : (b.emitJump i l).Aimed z loose := by
  cases haddress : b.address? l with
  | some x =>
    rw [emitJump_of_address haddress]
    obtain ⟨hpos, hle⟩ := h.labels l x haddress
    exact h.emit fun _ => .inr (.inl ⟨hpos, hle, hl.2 x haddress⟩)
  | none =>
    rw [emitJump_of_none haddress]
    -- The jump counts as loose while it is written; afterwards it is one of those that wait.
    have hwider : b.Aimed z fun a => loose a ∨ a = b.here := h.mono fun _ => .inl
    have hemit := hwider.emit (i := { i with p2 := -1 }) fun _ => .inl (.inr rfl)
    refine { hemit with jumps := fun n x hx hj => ?_, waits := List.forall_mem_append.2 ⟨fun w hw => ?_, ?_⟩ }
    · rw [List.map_append, List.mem_append]
      rcases hemit.jumps n x hx hj with (hloose | hhere) | hwaits | hland
      · exact .inl hloose
      · exact .inr (.inl (.inr (List.mem_singleton.2 (Int.ofNat.inj hhere))))
      · exact .inr (.inl (.inl hwaits))
      · exact .inr (.inr hland)
    · exact ⟨(h.waits w hw).1, (hemit.waits w hw).2⟩
    · exact List.forall_mem_singleton.2 ⟨.inr h.first_le, by simp [Builder.emit], hl.1, haddress⟩

/-! ## Labels -/

theorem Aimed.label (h : b.Aimed z loose) : b.label.2.Aimed z loose :=
  { h with
    labels l x hx := h.labels l x ((label_address? b l).symm.trans hx)
    waits w hw := by
      obtain ⟨h1, h2, h3, h4⟩ := h.waits w hw
      exact ⟨h1, h2, by rw [label_size]; omega, (label_address? b w.2).trans h4⟩ }

theorem resolve_getElem?_lt {k : Nat} (h : ∀ w ∈ b.fixups, w.2 = l → k ≤ w.1) (hn : n < k) :
    (b.resolve l).ops[n]? = b.ops[n]? := by
  rw [resolve_getElem?, if_neg]
  exact fun hmem => Nat.not_lt.2 (h _ hmem rfl) hn

section

variable (h : b.Aimed z loose)

include h

theorem Aimed.resolve (hl : l.index < b.labels.size) : (b.resolve l).Aimed z loose where
  first_le := by
    rw [resolve_size]
    exact h.first_le
  jumps n x hx hj := by
    have hland {y : Instr} (hy : b.Reaches z y) : (b.resolve l).Reaches z y := hy.mono (by simp)
    -- If a jump of the region waited for the label, the next address is behind the jump, so it is not closed.
    rw [resolve_getElem?] at hx
    split at hx
    · rename_i hmem
      obtain ⟨y, -, rfl⟩ := Option.map_eq_some_iff.1 hx
      obtain ⟨hloose | hfirst, hsize, -⟩ := h.waits _ hmem
      · exact .inl hloose
      · exact .inr (.inr (hland (.inl (lands_here (by omega)))))
    · rename_i hmem
      refine (h.jumps n x hx hj).imp_right (.imp (fun hwaits => ?_) hland)
      obtain ⟨w, hw, rfl⟩ := List.mem_map.1 hwaits
      exact List.mem_map_of_mem (mem_resolve_fixups.2 ⟨hw, by rintro rfl; exact hmem hw⟩)
  labels k x hx := by
    rw [resolve_size]
    by_cases hk : k = l
    · rw [hk, resolve_address?_self hl] at hx
      cases hx
      have := h.first_le
      have := z.first_pos
      omega
    · rw [resolve_address?_ne hk] at hx
      exact h.labels k x hx
  waits w hw := by
    obtain ⟨hw, hne⟩ := mem_resolve_fixups.1 hw
    rw [resolve_size, resolve_labels_size, resolve_address?_ne hne]
    exact h.waits w hw

/-! ## Instructions that are changed -/

/-- A change at an address. What jumps there afterwards has a target, waits for one or is loose. -/
theorem Aimed.change (hloose : ∀ x, loose x → other x ∨ x = a ∧ z.first ≤ a)
    (hf : ∀ (n : Nat) i, n = a → b.ops[n]? = some i → (f i).canJump →
      other n ∨ n ∈ b.fixups.map Prod.fst ∨ b.Reaches z (f i)) : (b.modifyAt a f).Aimed z other where
  first_le := by
    rw [modifyAt_size]
    exact h.first_le
  jumps n x hx hj := by
    have hland {y : Instr} (hy : b.Reaches z y) : (b.modifyAt a f).Reaches z y := hy.mono (by simp)
    rw [modifyAt_fixups]
    by_cases hn : (n : Int) = a
    · subst hn
      rw [modifyAt_getElem?_self] at hx
      obtain ⟨y, hy, rfl⟩ := Option.map_eq_some_iff.1 hx
      exact (hf n y rfl hy hj).imp_right (.imp_right hland)
    · rw [modifyAt_getElem?_ne hn] at hx
      exact (h.jumps n x hx hj).imp (fun hx => (hloose n hx).resolve_right fun heq => hn heq.1) (.imp_right hland)
  labels l x hx := by
    rw [modifyAt_size]
    exact h.labels l x (by simpa [address?] using hx)
  waits w hw := by
    rw [modifyAt_fixups] at hw
    obtain ⟨h1, h2, h3, h4⟩ := h.waits w hw
    refine ⟨?_, by simpa using h2, by simpa using h3, by simpa [address?] using h4⟩
    exact h1.elim (fun hx => (hloose _ hx).imp_right fun heq => by omega) .inr

theorem Aimed.modifyAt (hf : ∀ i, (f i).canJump → i.canJump ∧ (f i).opcode = i.opcode ∧ (f i).p2 = i.p2) :
    (b.modifyAt a f).Aimed z loose := by
  refine h.change (fun _ => .inl) fun n i _ hi hj => ?_
  obtain ⟨hjump, hopcode, hp2⟩ := hf i hj
  rw [Reaches, hopcode, hp2]
  exact h.jumps n i hi hjump

theorem Aimed.settle (ha : z.first ≤ a) (hf : ∀ i, (f i).canJump → b.Lands z (f i).p2) :
    (b.modifyAt a f).Aimed z fun x => loose x ∧ x ≠ a :=
  h.change (fun x hx => (Decidable.em (x = a)).elim (fun heq => .inr ⟨heq, ha⟩) fun hne => .inl ⟨hx, hne⟩)
    fun _ i _ _ hj => .inr (.inr (.inl (hf i hj)))

end

/-! ## Stretches of code -/

namespace Spans

variable {E' : Ends} {rest : List Int}

theorem refl (h : b.Aimed z loose) (hL : ∀ l ∈ L, b.Offers z l) : b.Spans z loose L {} b where
  origin := h
  aimed := h.mono fun _ => .inl
  offers := hL
  size_le := Nat.le_refl _
  labels_le := Nat.le_refl _
  address _ _ := rfl
  waits _ hw := .inl hw
  pending _ := id
  distinct := .nil
  fresh := List.forall_mem_nil _
  kept := .of_eq fun _ _ => rfl

variable (h : b0.Spans z loose L E b)

include h

/-- Jumps may lead to the labels that are given and to those that have no address yet. -/
theorem offered (hl : E.Offers L l) : b.Offers z l := by
  rcases hl with hl | hl
  · obtain ⟨hmade, hopen⟩ := h.offers l hl
    refine ⟨Nat.lt_of_lt_of_le hmade h.labels_le, fun x hx => ?_⟩
    rw [h.address l hmade] at hx
    exact hopen x hx
  · obtain ⟨-, hmade, hnone⟩ := h.fresh l hl
    refine ⟨hmade, fun x hx => ?_⟩
    rw [hnone] at hx
    cases hx

theorem step (haimed : b'.Aimed z fun a => loose a ∨ a ∈ E'.jumps) (hsize : b.ops.size ≤ b'.ops.size)
    (hlabels : b'.labels = b.labels) (hwaits : ∀ w ∈ b'.fixups, w ∈ b.fixups ∨ z.first ≤ w.1 ∧ E.Offers L w.2)
    (hpending : ∀ w ∈ b.fixups, w ∈ b'.fixups) (hkept : Kept z b b') (hE : E'.labels = E.labels) :
    b0.Spans z loose L E' b' where
  origin := h.origin
  aimed := haimed
  offers := h.offers
  size_le := Nat.le_trans h.size_le hsize
  labels_le := by
    rw [hlabels]
    exact h.labels_le
  address l hl := by
    rw [address?, hlabels]
    exact h.address l hl
  waits w hw := by
    rw [Ends.Offers, hE]
    exact (hwaits w hw).elim (h.waits w) .inr
  pending w hw := hpending w (h.pending w hw)
  distinct := hE ▸ h.distinct
  fresh l hl := by
    rw [hE] at hl
    rw [address?, hlabels]
    exact h.fresh l hl
  kept := h.kept.trans hkept

theorem emit_kept (i : Instr) : Kept z b (b.emit i) :=
  .of_eq fun _ hn => emit_getElem?_lt (Nat.lt_of_lt_of_le hn h.aimed.first_le)

theorem emit (hi : i.canJump → b.Reaches z i) : b0.Spans z loose L E (b.emit i) :=
  h.step (h.aimed.emit fun hj => .inr (hi hj)) (by simp) rfl (fun _ hw => .inl hw) (fun _ => id) (h.emit_kept i) rfl

theorem emitLoose (i : Instr) : b0.Spans z loose L { E with jumps := b.here :: E.jumps } (b.emit i) := by
  have hwider : b.Aimed z fun a => loose a ∨ a ∈ b.here :: E.jumps :=
    h.aimed.mono fun _ => .imp_right (List.mem_cons_of_mem _)
  exact h.step (hwider.emit fun _ => .inl (.inr List.mem_cons_self)) (by simp) rfl (fun _ hw => .inl hw)
    (fun _ => id) (h.emit_kept i) rfl

theorem emitJump (hl : E.Offers L l) (i : Instr) : b0.Spans z loose L E (b.emitJump i l) := by
  refine h.step (h.aimed.emitJump (h.offered hl) i) (by simp) (by simp) (fun w hw => ?_)
    (fun w hw => mem_emitJump_fixups.2 (.inl hw)) (.of_eq fun _ hn => emitJump_getElem?_lt ?_) rfl
  · refine (mem_emitJump_fixups.1 hw).imp_right ?_
    rintro ⟨-, rfl⟩
    exact ⟨h.aimed.first_le, hl⟩
  · exact Nat.lt_of_lt_of_le hn h.aimed.first_le

theorem modifyAt (ha : z.first ≤ a) (hf : ∀ i, (f i).canJump → i.canJump ∧ (f i).opcode = i.opcode ∧ (f i).p2 = i.p2) :
    b0.Spans z loose L E (b.modifyAt a f) :=
  h.step (h.aimed.modifyAt hf) (by simp) (by simp) (fun _ hw => .inl (by simpa using hw))
    (fun _ hw => by simpa using hw) (.of_eq fun _ _ => modifyAt_getElem?_ne (by omega)) rfl

/-- The last instruction is a copy that is made wider. It may stand right before the region. -/
theorem widen (hlast : b.last? = some i) (hcopy : i.opcode = .copy) {n : Int}
    (hn : i.p3 < n) : b0.Spans z loose L E (b.modifyAt (b.here - 1) fun x => { x with p3 := n }) := by
  refine h.step (h.aimed.modifyAt fun x hx => ⟨hx, rfl, rfl⟩) (by simp) (by simp) (fun _ hw => .inl (by simpa using hw))
    (fun _ hw => by simpa using hw) (fun k hk x hx => ?_) rfl
  by_cases heq : (k : Int) = b.here - 1
  · rw [last?_eq_getElem?] at hlast
    obtain rfl : k = b.ops.size - 1 := by
      unfold here at heq
      omega
    cases hx.symm.trans hlast
    refine ⟨{ i with p3 := n }, ?_, .inr ⟨hcopy, n, hn, rfl, fun _ _ _ => trivial⟩⟩
    rw [← heq, modifyAt_getElem?_self, hx]
    rfl
  · rw [modifyAt_getElem?_ne heq]
    exact ⟨x, hx, .refl x⟩

theorem loosen (hlabels : E'.labels = E.labels) (hjumps : ∀ x ∈ E.jumps, x ∈ E'.jumps) : b0.Spans z loose L E' b :=
  h.step (h.aimed.mono fun x => .imp_right (hjumps x)) (Nat.le_refl _) rfl (fun _ => .inl) (fun _ => id)
    (.of_eq fun _ _ => rfl) hlabels

theorem settle (ha : z.first ≤ a) (hf : ∀ i, (f i).canJump → b.Lands z (f i).p2)
    (hrest : ∀ x ∈ E.jumps, x = a ∨ x ∈ rest) : b0.Spans z loose L { E with jumps := rest } (b.modifyAt a f) := by
  refine h.step ((h.aimed.settle ha hf).mono ?_) (by simp) (by simp) (fun _ hw => .inl (by simpa using hw))
    (fun _ hw => by simpa using hw) (.of_eq fun _ _ => modifyAt_getElem?_ne (by omega)) rfl
  rintro x ⟨hloose | hjump, hne⟩
  · exact .inl hloose
  · exact .inr ((hrest x hjump).resolve_left hne)

theorem jumpHere (hfirst : z.first ≤ a) (hlt : a < b.ops.size)
    (hrest : ∀ x ∈ E.jumps, x = a ∨ x ∈ rest) : b0.Spans z loose L { E with jumps := rest } (b.jumpHere a) :=
  h.settle hfirst (fun _ _ => lands_here (by omega)) hrest

theorem label : b0.Spans z loose L { E with labels := b.label.1 :: E.labels } b.label.2 :=
  { h with
    aimed := h.aimed.label
    labels_le := by
      have := h.labels_le
      rw [label_size]
      omega
    address l hl := (label_address? b l).trans (h.address l hl)
    waits w hw := (h.waits w hw).imp_right (.imp_right (.imp_right (List.mem_cons_of_mem _)))
    distinct := by
      -- A listed label is below the number of labels, which is the number of the new one.
      refine List.nodup_cons.2 ⟨fun hmem => ?_, h.distinct⟩
      have : b.labels.size < b.labels.size := (h.fresh _ hmem).2.1
      omega
    fresh := by
      refine List.forall_mem_cons.2 ⟨⟨h.labels_le, ?_, ?_⟩, fun l hl => ?_⟩
      · rw [label_size]
        exact Nat.lt_succ_self _
      · rw [label_address?]
        exact address?_of_size_le (Nat.le_refl _)
      · obtain ⟨h1, h2, h3⟩ := h.fresh l hl
        exact ⟨h1, by rw [label_size]; omega, (label_address? b l).trans h3⟩ }

theorem older (w : Nat × Label) (hw : w ∈ b0.fixups) (hl : l ∈ E.labels) : w.2 ≠ l := by
  have hnew := (h.fresh l hl).1
  have hold := (h.origin.waits w hw).2.2.1
  rintro rfl
  omega

theorem resolve {rest : List Label} (hl : E.labels.Perm (l :: rest)) :
    b0.Spans z loose L { E with labels := rest } (b.resolve l) where
  origin := h.origin
  aimed := h.aimed.resolve (h.fresh l (hl.mem_iff.2 List.mem_cons_self)).2.1
  offers := h.offers
  size_le := by
    rw [resolve_size]
    exact h.size_le
  labels_le := by
    rw [resolve_labels_size]
    exact h.labels_le
  address k hk := by
    have hnew := (h.fresh l (hl.mem_iff.2 List.mem_cons_self)).1
    rw [resolve_address?_ne (by rintro rfl; omega)]
    exact h.address k hk
  waits w hw := by
    obtain ⟨hw, hne⟩ := mem_resolve_fixups.1 hw
    refine (h.waits w hw).imp_right (.imp_right (.imp_right fun hmem => ?_))
    exact (List.mem_cons.1 (hl.mem_iff.1 hmem)).resolve_left hne
  pending w hw := mem_resolve_fixups.2 ⟨h.pending w hw, h.older w hw (hl.mem_iff.2 List.mem_cons_self)⟩
  distinct := (List.nodup_cons.1 (hl.nodup_iff.1 h.distinct)).2
  fresh k hk := by
    have hne : k ≠ l := by
      rintro rfl
      exact (List.nodup_cons.1 (hl.nodup_iff.1 h.distinct)).1 hk
    rw [resolve_labels_size, resolve_address?_ne hne]
    exact h.fresh k (hl.mem_iff.2 (List.mem_cons_of_mem _ hk))
  kept := by
    refine h.kept.trans (.of_eq fun _ => resolve_getElem?_lt fun w hw heq => ?_)
    exact (h.waits w hw).elim (fun hold => absurd heq (h.older w hold (hl.mem_iff.2 List.mem_cons_self))) And.left

end Spans

end Builder

end ScalarSql
