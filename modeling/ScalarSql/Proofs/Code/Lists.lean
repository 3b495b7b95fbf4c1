import ScalarSql.Proofs.Code.Cases

/-!
# Lists of expressions

The items of a list are computed into registers in a row. An item whose value is in another register, as a
shared constant or as a result that was computed before, is copied; an item that refers to a result column
is copied from it or left out. Full copies of neighbours become one instruction: the copy of an item is made
part of the one before it, wherever that one stands.
-/

namespace ScalarSql

open Compiler Gen

variable {σ : Scope} {K K' : Known} {ids ids1 ids2 : List Identity} {P : Prop} {d : Reading}
  {reg results : Int} {mode : ListMode} {hoisting : Bool} {items : List (Item Code)} {ds : List Reading}

/-- The identities of the nodes in the items. -/
abbrev itemIds (items : List (Item Code)) : List Identity := items.flatMap (·.expr.expr.identities)

/-! ## What becomes of an item -/

namespace ListMode

variable {α β : Type}

/-- The item is not computed: it refers to a result column. -/
def refers (mode : ListMode) (item : Item α) : Bool := mode.byReference && item.resultColumn ≠ 0

def leavesOut (mode : ListMode) (item : Item α) : Bool := mode.refers item && mode.omitReferences

def kept (mode : ListMode) (items : List (Item α)) : List (Item α) := items.filter fun item => !mode.leavesOut item

def computed (mode : ListMode) (items : List (Item α)) : List (Item α) := items.filter fun item => !mode.refers item

theorem copyOpcode_copies (mode : ListMode) : mode.copyOpcode = .copyOne ∨ mode.copyOpcode = .copy := by
  cases h : mode.full <;> simp [copyOpcode, h]

theorem full_of_copyOpcode (h : mode.copyOpcode = .copy) : mode.full := by
  cases hfull : mode.full <;> simp [copyOpcode, hfull] at h ⊢

/-- How the item of a list gets its value: its code computes it, or it is in a register already. A full
copy is made of registers only that no list fills. -/
inductive Delivers (σ : Scope) (K : Known) (mode : ListMode) (results : Int) (item : Item Code) :
    Reading → Prop
  | value {d : Reading} (hcomputed : mode.refers item = false) (h : item.expr.Realizes σ K d) :
    Delivers σ K mode results item d
  | register {source : Int} {v : Value} (hcomputed : mode.refers item = false)
    (htarget : ∀ ⦃c c' reg r⦄, (item.expr.target reg).Makes c r c' → r = source ∧ c' = c)
    (hconst : item.expr.expr.isConstant .notJoin = false)
    (hheld : (source, v) ∈ K) (haside : mode.full = true → σ.aside source) :
    Delivers σ K mode results item fun _ => some v
  | result {v : Value} (hrefers : mode.refers item = true) (hheld : (results + item.resultColumn - 1, v) ∈ K)
    (haside : mode.full = true → σ.aside (results + item.resultColumn - 1)) :
    Delivers σ K mode results item fun _ => some v

theorem Delivers.hold {item : Item Code} (h : mode.Delivers σ K results item d) (hK : ∀ p ∈ K, p ∈ K') :
    mode.Delivers σ K' results item d := by
  cases h with
  | value hcomputed h => exact .value hcomputed (h.hold hK)
  | register hcomputed htarget hconst hheld haside => exact .register hcomputed htarget hconst (hK _ hheld) haside
  | result hrefers hheld haside => exact .result hrefers (hK _ hheld) haside

end ListMode

namespace Gen

variable {item : Item Code} {c c' : Compiler}

def listItem (mode : ListMode) (results : Int) (item : Item Code) (reg : Int) : Gen Unit :=
  if mode.refers item then emit (.of mode.copyOpcode (results + item.resultColumn - 1) reg)
  else if mode.factor && item.expr.expr.isConstant .notJoin then discard (hoist item.expr.expr (some reg))
  else do
    let found ← item.expr.target reg
    if found ≠ reg then listCopy mode found reg

theorem list_cons_of_leavesOut (h : mode.leavesOut item) (rest : List (Item Code)) :
    list mode results (item :: rest) reg = list mode results rest reg := by
  simp only [ListMode.leavesOut, ListMode.refers, Bool.and_eq_true, decide_eq_true_eq] at h
  simp [list, h]

theorem list_cons_of_kept (h : mode.leavesOut item = false) (rest : List (Item Code)) :
    list mode results (item :: rest) reg = (do
      listItem mode results item reg
      return (← list mode results rest (reg + 1)) + 1) := by
  simp only [ListMode.leavesOut, Bool.and_eq_false_iff] at h
  rw [list, listItem]
  change (if mode.refers item then _ else _) = _
  cases hrefers : mode.refers item with
  | true =>
    have homit : mode.omitReferences = false := h.resolve_left (by simp [hrefers])
    simp [homit]
  | false =>
    simp only [Bool.false_eq_true, if_false]
    split
    · simp
    · simp only [bind_assoc]
      refine bind_congr fun found => ?_
      split <;> simp

theorem discard_list_cons (h : mode.leavesOut item = false) (rest : List (Item Code)) :
    discard (list mode results (item :: rest) reg) = (do
      listItem mode results item reg
      discard (list mode results rest (reg + 1))) := by
  have hdiscard {α : Type} (g : Gen α) : (discard g : Gen PUnit) = (fun _ => ⟨⟩) <$> g := rfl
  simp [list_cons_of_kept h, hdiscard]

end Gen

/-! ## Copies -/

theorem FillsAt.copyHeld {op : Opcode} {source : Int} {v : Value} (hop : op = .copyOne ∨ op = .copy)
    (hheld : (source, v) ∈ K) (haside : op = .copy → σ.aside source ∧ ¬ σ.aside reg) :
    FillsAt σ K ids P hoisting (emit (.of op source reg)) reg fun _ => some v := by
  refine .of_step fun c c' hmakes hc hreg _ => ?_
  obtain ⟨s, e⟩ := emitCopy_spec hop hmakes hc (fun h => .inr (haside h)) hreg
  refine ⟨s.mono (by simp), fun w _ m ready => ?_⟩
  exact ready.emitCopy hop s e hreg.nonneg (congrArg some (ready.held _ hheld).2.2.symm)

/-- A value next to the one that was copied last is copied with it. -/
theorem FillsAt.merge {c c1 c' : Compiler} {found : Int} {x : Instr} (s1 : Step σ ids c c1)
    (hb : c1.builder = c.builder) (hsource : c1.HoldsShared found ∨ σ.aside found)
    (hrun : ∀ w : World σ, w.Avoids K reg → Yields w K (· = reg) c c1 d found) (hreg : c.Open reg)
    (hx : c1.builder.last? = some x) (hcopy : x.opcode = .copy) (hs : x.p1 + x.p3 + 1 = found)
    (ht : x.p2 + x.p3 + 1 = reg) (haside : ¬ σ.aside reg) (hmerged : ¬ σ.Unmerged) (hc' : c' = c1.widened x) :
    Fills σ (fun r => r = reg ∧ P) (· = reg) ids c c' ∧ ∀ (w : World σ) (S pins : Int → Prop) c2 m, Ready w K c c2 m →
        Extends pins (fun r => c'.Free r ∨ S r) c' c2 → (∀ r, c2.Free r → c'.Free r) → (∀ r, pins r → S r) →
        (∀ r, S r → ¬ c.Free r ∧ r ≠ reg ∧ w.Owns K c2 r) → w.Owns K c2 reg →
        RunsFrom w (fun r => (r = reg ∨ S r) ∧ ¬ w.Holds r) c c' d (fun _ => none)
          (fun v m => m.register reg = v) m := by
  have hopen := hreg.step s1
  have hwiden : Fills σ nowhere (· = reg) [] c1 c' := by
    rw [hc', ← ht]
    exact .widen s1.good hx hcopy (hs ▸ hsource) (ht ▸ hopen) (ht ▸ haside) hmerged
  have hfills : Fills σ _ _ (ids ++ []) c c' :=
    (s1.fills : Fills σ nowhere nowhere ids c c1).trans hwiden fun _ _ hf => hf
  refine ⟨hfills.mono (fun r hr => (hr.elim id id).elim) (fun r hr => hr.resolve_left id) (by simp), ?_⟩
  intro w S pins c2 m ready e2 _ hpins hS hown
  have hsize1 : c1.size = c.size := by rw [size, hb, size]
  have hsize : c'.size = c.size := by
    rw [hc', ← hsize1]
    simp [widened, size]
  have hnot : ¬ w.Holds reg := by
    intro hholds
    rcases e2.holdsConstant_of_new (hown.constant hholds) with hold | hlt | hpin
    · exact (hopen.fills hwiden id).unhoisted hold
    · exact (hopen.fills hwiden id).taken (.inr hlt)
    · exact (hS reg (hpins reg hpin)).2.1 rfl
  have hextends := hwiden.grows.trans_of_apart e2 fun r hr hp =>
    hr.elim (fun hf => (hS r (hpins r hp)).1 (s1.free r hf)) (hS r (hpins r hp)).2.1
  have hready := ready.firstSilent s1.passes hextends hsize1 fun r hr => (hS r (hpins r (hr.resolve_left id))).1
  obtain ⟨v, hv, hvalue⟩ := (hrun w ⟨hnot, hown.lent, hown.held⟩ m hready).of_silent hsize1
  have hwide : c'.builder.ops[c.size - 1]? = some { x with p3 := x.p3 + 1 } := by
    rw [hc', ← hsize1]
    exact widened_last hx
  obtain ⟨y, hy, hxy⟩ := e2.keeps.copy hwiden.good.builder ready.good.builder ready.settled (Nat.zero_le _) hwide hcopy
  have hfilled := ready.copied x y (x.p3 + 1) (hb ▸ hx) hcopy hy (by omega) hxy.p3_le
  rw [← Int.add_assoc, ← Int.add_assoc, hs, ht, hvalue] at hfilled
  exact .done hsize hv rfl hfilled

section

/-- The value, if it is no constant, is computed into the register that is wanted. -/
def Code.Lands (σ : Scope) (code : Code) : Prop :=
  code.expr.isConstant .notJoin = false → ∀ ⦃c c' reg r⦄, (code.target reg).Makes c r c' → c.Good σ → r = reg

variable (hfactors : mode.factor → hoisting)

include hfactors

theorem FillsAt.item {item : Item Code} (hlands : mode.refers item = false → σ.Unmerged → mode.full →
      (hoisting → mode.factor) ∧ item.expr.Lands σ) (haside : mode.full → ¬ σ.aside reg)
      (h : mode.Delivers σ K results item d)
    (hP : mode.refers item = false → mode.factor → item.expr.expr.isConstant .notJoin → P) :
    FillsAt σ K (if mode.refers item then [] else item.expr.expr.identities) P hoisting
      (listItem mode results item reg) reg d := by
  unfold listItem
  cases h with
  | result hrefers hheld hresult =>
    simp only [hrefers, if_true]
    exact .copyHeld mode.copyOpcode_copies hheld fun hcopy =>
      ⟨hresult (ListMode.full_of_copyOpcode hcopy), haside (ListMode.full_of_copyOpcode hcopy)⟩
  | register hcomputed htarget hconst hheld hresult =>
    rename_i source v
    simp only [hcomputed, hconst, Bool.and_false, Bool.false_eq_true, if_false]
    intro c c' hmakes hc hhoisting hreg hids
    simp only [makes_bind] at hmakes
    obtain ⟨found, c1, hfound, hmakes⟩ := hmakes
    obtain ⟨rfl, rfl⟩ := htarget hfound
    by_cases hne : found ≠ reg
    · rw [if_pos hne] at hmakes
      rcases listCopy_cases hmakes with hemit | ⟨hfull, x, hx, hcopy, hs, ht, hc'⟩
      · exact FillsAt.copyHeld mode.copyOpcode_copies hheld (fun hcopy =>
          ⟨hresult (ListMode.full_of_copyOpcode hcopy), haside (ListMode.full_of_copyOpcode hcopy)⟩)
          hemit hc hhoisting hreg hids
      · exact FillsAt.merge ((Step.refl hc).mono (by simp)) rfl (.inr (hresult hfull))
          (fun w _ m ready => .done rfl rfl rfl (ready.held _ hheld).2.2) hreg hx hcopy hs ht (haside hfull)
          (fun hmerged => hne ((hlands hcomputed hmerged hfull).2 hconst hfound hc)) hc'
    · rw [if_neg hne] at hmakes
      obtain ⟨-, rfl⟩ := makes_pure.1 hmakes
      exact ⟨((Step.refl hc).mono (by simp)).fills, fun w S pins c2 m ready e2 _ hpins hS hown =>
        absurd (not_not.1 hne) (hown.held _ hheld)⟩
  | value hcomputed h =>
    simp only [hcomputed, Bool.false_eq_true, if_false]
    intro c c' hmakes hc hhoisting hreg hids
    split at hmakes
    · rename_i hfactor
      simp only [Bool.and_eq_true] at hfactor
      obtain ⟨hplain, rfl⟩ := h.constant hfactor.2
      exact FillsAt.pin hfactor.2 hplain (hP hcomputed hfactor.1 hfactor.2) hmakes hc
        (hhoisting.trans (hfactors hfactor.1)) hreg hids
    · rename_i hfactor
      have hload : FillsAt σ K item.expr.expr.identities P hoisting _ reg d :=
        .load (.of_targets mode.copyOpcode_copies h.target)
      simp only [makes_bind] at hmakes
      obtain ⟨found, c1, htarget, hmakes⟩ := hmakes
      by_cases hne : found ≠ reg
      · rw [if_pos hne] at hmakes
        rcases listCopy_cases hmakes with hemit | ⟨hfull, x, hx, hcopy, hs, ht, hc'⟩
        · refine hload (makes_bind.2 ⟨found, c1, htarget, ?_⟩) hc hhoisting hreg hids
          rw [if_pos hne]
          exact hemit
        · obtain ⟨s1, hfound, hrun⟩ := h.target htarget hc hreg hids
          obtain ⟨hshared, hb⟩ := hfound.resolve_left hne
          refine FillsAt.merge s1 hb (.inl hshared) hrun hreg hx hcopy hs ht (haside hfull) (fun hmerged => ?_) hc'
          obtain ⟨hmode, hlands⟩ := hlands hcomputed hmerged hfull
          cases hhoist : hoisting with
          | false =>
            obtain ⟨x, hmem, -⟩ := hshared
            rw [s1.good.hoisting (s1.grows.hoisting.trans (hhoisting.trans hhoist))] at hmem
            cases hmem
          | true => exact hne (hlands (by simpa [hmode hhoist] using hfactor) htarget hc)
      · rw [if_neg hne] at hmakes
        refine hload (makes_bind.2 ⟨found, c1, htarget, ?_⟩) hc hhoisting hreg hids
        rw [if_neg hne]
        exact hmakes

/-! ## Rows -/

theorem FillsRow.list (hlands : σ.Unmerged → mode.full →
      (hoisting → mode.factor) ∧ ∀ item ∈ mode.computed items, item.expr.Lands σ)
    (haside : mode.full → ∀ r, InRow reg ds.length r → ¬ σ.aside r)
    (h : List.Forall₂ (mode.Delivers σ K results) (mode.kept items) ds)
    (hP : ∀ item ∈ mode.computed items, mode.factor → item.expr.expr.isConstant .notJoin → P) :
    FillsRow σ K (itemIds (mode.computed items)) P hoisting (discard (list mode results items reg)) reg ds := by
  induction items generalizing ds K reg with
  | nil =>
    cases h
    exact .nil
  | cons item items ih =>
    cases hout : mode.leavesOut item with
    | true =>
      have hrefers : mode.refers item := (Bool.and_eq_true_iff.1 hout).1
      rw [ListMode.kept, List.filter_cons_of_neg (by simp [hout])] at h
      rw [ListMode.computed, List.filter_cons_of_neg (by simp [hrefers])] at hP hlands ⊢
      rw [list_cons_of_leavesOut hout]
      exact ih hlands haside h hP
    | false =>
      rw [ListMode.kept, List.filter_cons_of_pos (by simp [hout])] at h
      obtain ⟨d, ds, hitem, hrest, rfl⟩ := List.forall₂_cons_left_iff.1 h
      have hids : itemIds (mode.computed (item :: items)) =
          (if mode.refers item then [] else item.expr.expr.identities) ++
            itemIds (mode.computed items) := by
        cases hrefers : mode.refers item <;> simp [ListMode.computed, hrefers]
      rw [discard_list_cons hout, hids]
      have hhead (hrefers : mode.refers item = false) : item ∈ mode.computed (item :: items) := by
        simp [ListMode.computed, hrefers]
      have htail (i : Item Code) (hi : i ∈ mode.computed items) : i ∈ mode.computed (item :: items) :=
        (List.sublist_cons_self item items).filter _ |>.subset hi
      refine .cons (.item hfactors (fun hrefers hmerged hfull => ?_) (fun hfull => haside hfull reg .head) hitem
        fun hrefers => hP item (hhead hrefers)) fun v => ih (fun hmerged hfull => ?_)
          (fun hfull r hr => haside hfull r hr.tail) (hrest.imp fun _ _ hr => hr.hold fun _ => List.mem_cons_of_mem _)
          fun i hi => hP i (htail i hi)
      · exact (hlands hmerged hfull).imp_right fun h => h item (hhead hrefers)
      · exact (hlands hmerged hfull).imp_right fun h i hi => h i (htail i hi)

end

theorem FillsRow.list_computed
    (hlands : σ.Unmerged → (hoisting → mode.factor) ∧ ∀ item ∈ items, item.expr.Lands σ)
    (href : mode.byReference = false)
    (hfactors : mode.factor → hoisting) (haside : ∀ r, InRow reg ds.length r → ¬ σ.aside r)
    (h : List.Forall₂ (fun item d => item.expr.Realizes σ K d) items ds)
    (hP : ∀ item ∈ items, mode.factor → item.expr.expr.isConstant .notJoin → P) :
    FillsRow σ K (itemIds items) P hoisting (discard (Gen.list mode results items reg)) reg ds := by
  have hrefers (item : Item Code) : mode.refers item = false := by simp [ListMode.refers, href]
  have hkept : mode.kept items = items := by simp [ListMode.kept, ListMode.leavesOut, hrefers]
  have hcomputed : mode.computed items = items := by simp [ListMode.computed, hrefers]
  have hdelivers : List.Forall₂ (mode.Delivers σ K results) (mode.kept items) ds := by
    rw [hkept]
    exact h.imp fun item _ hitem => .value (hrefers item) hitem
  rw [← hcomputed] at hP
  have hlist := FillsRow.list hfactors (fun hmerged _ => hcomputed.symm ▸ hlands hmerged) (fun _ => haside) hdelivers hP
  rwa [hcomputed] at hlist

end ScalarSql
