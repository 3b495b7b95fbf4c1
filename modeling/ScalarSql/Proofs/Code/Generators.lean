import ScalarSql.Proofs.Code.Calls
import ScalarSql.Proofs.Code.Rules

/-!
# Generators follow the rules

The ways in which an expression is coded follow the rules (`Coded.Fits`): a value goes to a register that may be
written, or is found in one that may be read. Each generator of values, branches, lists and calls follows them if its
parts do.
-/

namespace ScalarSql

open Gen Instr

/-- The code of a value follows the rules. -/
structure Code.Fits (T : Terms) (code : Code) : Prop where
  expr : T.Covers code.expr
  target : ∀ {L K E reg}, T.Writes K reg → Locates L T K E (code.target reg)
  temp : ∀ {L K E}, Gives L T K E code.temp Facts.held

/-- The code of an expression follows the rules, and its branches jump to the labels that they are given. -/
structure Coded.Fits (T : Terms) (code : Coded) : Prop extends Code.Fits T code.toCode where
  fields : ∀ f ∈ code.fields, f.Fits T
  fields_le : code.fields.length ≤ code.expr.vectorSize
  jump : ∀ {L K E} wanted l jumpIfNull, E.Offers L l → Works L T K E (code.jump wanted l jumpIfNull)
  branch : ∀ {L K E} wanted l jumpIfNull, E.Offers L l → Works L T K E (code.branch wanted l jumpIfNull)
  subselect : ∀ {L K E}, Gives L T K E code.subselect fun base => Facts.row .reads base code.expr.vectorSize
  member : ∀ {L K E ifFalse ifNull}, E.Offers L ifFalse → E.Offers L ifNull → Works L T K E (code.member ifFalse ifNull)

variable {α : Type} {L : List Label} {T : Terms} {K : Facts} {E : Ends} {e : Expr} {left right operand : Coded}
  {reg : Int}

/-! ## Values -/

namespace Gen

variable {free : Option Int}

theorem Follows.thenReturn {g : Gen Unit} (hg : Works L T K E g) (hreg : T.Writes K reg) :
    Locates L T K E (do g; return reg) :=
  .next hg fun _ => .ret hreg.reads

theorem release_works (h : ∀ r, free = some r → .scratch r ∈ K) : Works L T K E (release free) := by
  cases free with
  | none => exact .done _
  | some r => exact .rule (.releaseTemp (h r rfl))

theorem releases_work {free' : Option Int} (h : ∀ r, free = some r → .scratch r ∈ K)
    (h' : ∀ r, free' = some r → .scratch r ∈ K) : Works L T K E (do release free; release free') :=
  .next (release_works h) fun _ => release_works h'

theorem goto_works {l : Label} (hl : E.Offers L l) : Works L T K E (goto l) :=
  .imp (.rule (.emitJump hl rfl (.none rfl rfl))) (by simp)

theorem tempOf_gives {target : Int → Gen Int} (he : T.Covers e)
    (h : ∀ {K reg}, T.Writes K reg → Locates L T K E (target reg)) : Gives L T K E (tempOf e target) Facts.held := by
  refine .idle (.hoists e) fun b => ?_
  split
  · exact .step (.hoist he) fun r => .hold (by simp) (by simp)
  · refine .step .getTemp fun temp => .bind (h (by simp)) fun r => ?_
    split
    · exact .hold (by simp) (by simp)
    · exact .pass (.releaseTemp (by simp)) fun _ => .hold (by simp) (by simp)

theorem jumpOnTruth_works {temp : Gen (Int × Option Int)} (h : Gives L T K E temp Facts.held) (wanted : Bool)
    {dest : Label} (hdest : E.Offers L dest) (jumpIfNull : Bool) :
    Works L T K E (jumpOnTruth e temp wanted dest jumpIfNull) := by
  unfold jumpOnTruth
  split
  split
  · exact goto_works hdest
  · split
    · refine .bind h fun r => .step (.emitJump hdest ?_ ?_) fun _ => release_works fun r hr => by simp [hr]
      · cases wanted <;> rfl
      · cases wanted <;> exact .test rfl rfl (by simp)
    · exact .done _

end Gen

namespace Code

theorem of_fits {body : Int → Gen Int} (he : T.Covers e)
    (h : ∀ {L K E reg}, T.Writes K reg → Locates L T K E (body reg)) : (Code.of e body).Fits T := by
  have htarget {L K E reg} (hreg : T.Writes K reg) : Locates L T K E ((Code.of e body).target reg) :=
    .step (.checkHeight he.clears) fun _ => h (by simp [hreg])
  exact ⟨he, htarget, tempOf_gives he htarget⟩

namespace Fits

variable {code : Code}

theorem exact (h : code.Fits T) (hreg : T.Writes K reg) : Works L T K E (code.exact reg) := by
  refine .bind (h.target hreg) fun found => ?_
  split
  · split
    · exact .rule (.emit rfl (.copy (by simp) (by simp [hreg])))
    · exact .rule (.emit rfl (.move rfl rfl (by simp) (by simp [hreg])))
  · exact .done _

theorem factored (h : code.Fits T) (hreg : T.Writes K reg) (hpins : T.pins → .fixed reg ∈ K) :
    Works L T K E (code.factored reg) := by
  refine .idle (.hoists _) fun b => ?_
  split
  · exact .discard (.rule (.hoistAt h.expr hreg.reads hpins))
  · exact h.exact hreg

end Fits

end Code

namespace Coded

variable {code : Code}

theorem ofJump_fits {jump : Bool → Label → Bool → Gen Unit} (h : code.Fits T)
    (hjump : ∀ {L K E} wanted l jumpIfNull, E.Offers L l → Works L T K E (jump wanted l jumpIfNull)) :
    (ofJump code jump).Fits T where
  toFits := h
  fields := List.forall_mem_nil _
  fields_le := Nat.zero_le _
  jump := hjump
  branch wanted l jumpIfNull hl := .pass (.checkHeight h.expr.clears) fun _ => hjump wanted l jumpIfNull hl
  subselect := .throw (by simp)
  member _ _ := .throw (by simp)

theorem ofCode_fits (h : code.Fits T) : (ofCode code).Fits T :=
  ofJump_fits h fun wanted _ jumpIfNull hl => jumpOnTruth_works h.temp wanted hl jumpIfNull

section

variable (he : T.Covers e)

include he

theorem of_fits {body : Int → Gen Int}
    (h : ∀ {L K E reg}, T.Writes K reg → Locates L T K E (body reg)) : (Coded.of e body).Fits T :=
  ofCode_fits (Code.of_fits he h)

theorem load_fits {body : Int → Gen Unit}
    (h : ∀ {L K E reg}, T.Writes K reg → Works L T K E (body reg)) : (load e body).Fits T :=
  of_fits he fun hreg => (h hreg).thenReturn hreg

theorem fail_fits {error : CompileError} (herror : ∀ limit, error ≠ .tooDeep limit) : (fail e error).Fits T :=
  of_fits he fun _ => .throw herror

theorem register_fits (hreg : T.free ∨ T.reads reg) : (register e reg).Fits T :=
  of_fits he fun _ => .ret (hreg.elim .of_free .of_given)

theorem collate_fits (h : operand.Fits T) : (collate e operand).Fits T :=
  ofCode_fits ⟨he, (Code.of_fits he h.target).target, h.temp⟩

end

theorem factorFields_works {fields : List Code} (h : ∀ f ∈ fields, f.Fits T) (hreg : T.WritesRow K reg fields.length)
    (hpins : T.pins → Facts.row .fixed reg fields.length ⊆ K) : Works L T K E (factorFields fields reg) := by
  induction fields generalizing reg with
  | nil => exact .done _
  | cons f rest ih =>
    obtain ⟨hf, hrest⟩ := List.forall_mem_cons.1 h
    refine .next (hf.factored (hreg.head (.inr (Nat.succ_pos _))) fun h => ?_) fun _ => ih hrest hreg.tail fun h => ?_
    · simpa using hpins h ⟨0, Nat.succ_pos _, rfl⟩
    · rintro _ ⟨k, hk, rfl⟩
      exact hpins h ⟨k + 1, Nat.succ_lt_succ hk, by simp [Int.add_assoc, Int.add_comm 1]⟩

theorem Fits.row {code : Coded} (h : code.Fits T) : Gives L T K E code.row (Facts.heldRow code.expr.vectorSize) := by
  unfold Coded.row
  split
  · rename_i hone
    refine .imp h.temp fun p f hf => ?_
    rcases Facts.mem_heldRow.1 hf with ⟨k, hk, rfl⟩ | hspare
    · obtain rfl : k = 0 := by omega
      simp [Terms.Knows]
    · exact Terms.knows_of_mem (.inr (.inr hspare))
  · split
    · rename_i reg source hkind
      exact .holdRow (h.expr.readsRow_register hkind) (by simp)
    · exact .bind h.subselect fun base => .holdRow (fun k hk => by simp [hk]) (by simp)
    · have hfits := h.fields_le
      refine .step (.allocRegs _) fun first => ?_
      refine .next (factorFields_works h.fields (fun k hk => ?_) fun _ => ?_) fun _ =>
        .holdRow (fun k hk => ?_) (by simp)
      · simp [show k < code.expr.vectorSize by omega]
      · rintro _ ⟨k, hk, rfl⟩
        simp [show k < code.expr.vectorSize by omega]
      · simp [hk]
    · exact .throw (by simp)

end Coded

/-! ## Lists -/

namespace Gen

variable {dest : Label} {op : BinaryOp} {code : Coded} {items : List (Item Code)} {opcode : Opcode}
  {mode : CompareMode} {E' : α → Ends} {Q : α → Facts} {base : Int} {i : Nat}

theorem copyOpcode_allows (m : ListMode) {source target : Int} (hs : T.Reads K source) (ht : T.Writes K target) :
    T.Allows K (.of m.copyOpcode source target) := by
  unfold ListMode.copyOpcode
  split
  · exact .copy hs ht
  · exact .move rfl rfl hs ht

/-- The result columns that items refer to may be read. -/
def ReadsResults (T : Terms) (K : Facts) (m : ListMode) (results : Int) (items : List (Item Code)) : Prop :=
  m.byReference = true → ∀ item ∈ items, item.resultColumn ≠ 0 → T.Reads K (results + item.resultColumn - 1)

/-- Constants are set aside in registers that were taken for good. -/
def Pinned (T : Terms) (K : Facts) (m : ListMode) (items : List (Item Code)) (reg : Int) : Prop :=
  T.pins → m.factor = true → (∃ item ∈ items, item.expr.expr.isConstant .notJoin = true) →
    ∀ k < items.length, .fixed (reg + (k : Nat)) ∈ K

theorem list_works (m : ListMode) (results : Int) (h : ∀ item ∈ items, item.expr.Fits T)
    (hresults : ReadsResults T K m results items) (hpins : Pinned T K m items reg)
    (hreg : T.WritesRow K reg items.length) : Works L T K E (list m results items reg) := by
  induction items generalizing reg K with
  | nil => exact .done _
  | cons item rest ih =>
    obtain ⟨hitem, hrest⟩ := List.forall_mem_cons.1 h
    have hhead : T.Writes K reg := hreg.head (.inr (Nat.succ_pos _))
    -- All branches but the one that leaves the item out go on with the rest in the next register.
    have hmore (S : Facts) : Works L T (K.and S) E (do return (← list m results rest (reg + 1)) + 1) := by
      refine .next (ih hrest (fun hm x hx hne => ?_) (fun hp hf hx k hk => ?_) hreg.tail.more) fun _ => .done _
      · simp [hresults hm x (List.mem_cons_of_mem _ hx) hne]
      · obtain ⟨x, hx, hconst⟩ := hx
        have hfixed := hpins hp hf ⟨x, List.mem_cons_of_mem _ hx, hconst⟩ (k + 1) (Nat.succ_lt_succ hk)
        rw [Int.natCast_succ, Int.add_comm (k : Int), ← Int.add_assoc] at hfixed
        exact .inl hfixed
    unfold list
    split
    · rename_i href
      simp only [Bool.and_eq_true, decide_eq_true_eq] at href
      split
      · refine ih hrest (fun hm x hx => hresults hm x (List.mem_cons_of_mem _ hx)) (fun hp hf hx k hk => ?_)
          (hreg.take (Nat.le_succ _))
        obtain ⟨x, hx, hconst⟩ := hx
        exact hpins hp hf ⟨x, List.mem_cons_of_mem _ hx, hconst⟩ k (Nat.lt_succ_of_lt hk)
      · have hread := hresults href.1 item List.mem_cons_self href.2
        exact .step (.emit (canJump_eq_false m.copyOpcode_jumps) (copyOpcode_allows m hread hhead)) fun _ =>
          hmore _
    · split
      · rename_i hconst
        obtain ⟨hfactor, hconst⟩ := Bool.and_eq_true_iff.1 hconst
        refine .bind (.discard (.rule (.hoistAt hitem.expr hhead.reads fun hp => ?_))) fun _ => hmore _
        simpa using hpins hp hfactor ⟨item, List.mem_cons_self, hconst⟩ 0 (Nat.succ_pos _)
      · refine .bind (hitem.target hhead) fun found => ?_
        split
        · exact .pass (.listCopy m (by simp) (by simp [hhead])) fun _ => hmore _
        · exact hmore _

theorem exprList_works (m : ListMode) {results : Int} (h : ∀ item ∈ items, item.expr.Fits T)
    (hresults : ReadsResults T K m results items) (hpins : Pinned T K m items reg)
    (hreg : T.WritesRow K reg items.length) : Works L T K E (exprList m items reg results) :=
  .idle .get fun _ => list_works _ _ h hresults (fun hp hfactor => hpins hp (Bool.and_eq_true_iff.1 hfactor).1) hreg

/-! ## Comparisons -/

/-- A comparison of registers that may be read. It jumps unless it stores its outcome. -/
theorem comparison_follows {l r : Expr} {r1 r2 p2 : Int} {k : Instr → Gen α} (hopcode : opcode.isComparison)
    (h1 : T.Reads K r1) (h2 : T.Reads K r2) (hp2 : mode.store → T.Writes K p2)
    (hk : ∀ i, T.Allows K i → i.canJump = !mode.store → Follows L T K E (k i) E' Q) :
    Follows L T K E (comparison l r opcode r1 r2 mode p2 >>= k) E' Q := by
  refine .idleMade (.bind (.lookup _) fun _ => .pure _) fun c i c' hmake => ?_
  simp only [comparison, makes_bind, makes_pure] at hmake
  obtain ⟨_, _, -, rfl, -⟩ := hmake
  refine hk _ (.comparison hopcode h1 h2 fun hstore => hp2 ?_) ?_
  · simpa [Instr.mode, CompareMode.ofBits_toBits] using hstore
  · simp [Instr.canJump, Instr.mode, CompareMode.ofBits_toBits, hopcode, Opcode.jumps]

theorem emitCompared_works {i : Instr} (hopcode : i.opcode.isComparison) (hstore : i.mode.store = false)
    (h1 : T.Reads K i.p1) (h3 : T.Reads K i.p3) (hdest : E.Offers L dest) : Works L T K E (emitJump i dest) := by
  refine .imp (.rule (.emitJump hdest ?_ (.comparison hopcode h1 h3 (by simp [hstore])))) (by simp)
  simp [canJump, Opcode.jumps, hopcode, hstore]

theorem opcode_isComparison (h : op.isComparison) : op.opcode.isComparison := by
  cases op <;> simp_all [BinaryOp.isComparison, BinaryOp.opcode, Opcode.isComparison]

theorem negated_isComparison (h : op.isComparison) : (op.opcode.negated?.getD op.opcode).isComparison := by
  cases op <;> first | rfl | cases h

theorem storeComparison_works (hop : op.isComparison) {left right : Code} (hl : left.Fits T)
    (hr : right.Fits T) (hreg : T.Writes K reg) : Works L T K E (storeComparison op left right reg) := by
  refine .bind hl.temp fun r1 => .bind hr.temp fun r2 => ?_
  refine comparison_follows (opcode_isComparison hop) (by simp) (by simp) (fun _ => by simp [hreg]) fun i hi hj => ?_
  exact .pass (.emit hj hi) fun _ => releases_work (fun r hr => by simp [hr]) fun r hr => by simp [hr]

theorem jumpComparison_works (hop : op.isComparison) {left right : Code} (hl : left.Fits T) (hr : right.Fits T)
    (wanted : Bool) (hdest : E.Offers L dest) (jumpIfNull : Bool) :
    Works L T K E (jumpComparison op left right wanted dest jumpIfNull) := by
  refine .bind hl.temp fun r1 => .bind hr.temp fun r2 => ?_
  have hopcode : (if wanted then op.opcode else op.opcode.negated?.getD op.opcode).isComparison := by
    split
    · exact opcode_isComparison hop
    · exact negated_isComparison hop
  have hstore : (if op.comparesNull then { nullEq := true } else { jumpIfNull } : CompareMode).store = false := by
    split <;> rfl
  refine comparison_follows hopcode (by simp) (by simp) (by simp [hstore]) fun i hi hj => ?_
  refine .step (.emitJump hdest (by simp [hj, hstore]) hi) fun _ => ?_
  exact releases_work (fun r hr => by simp [hr]) fun r hr => by simp [hr]

/-- The fields of a sub-query's row may be read. -/
def HoldsBase (T : Terms) (K : Facts) (code : Coded) (base : Int) : Prop :=
  ∀ id select, code.expr.kind = .subquery id select → T.ReadsRow K base code.expr.vectorSize

theorem HoldsBase.more {S : Facts} (h : HoldsBase T K code base) : HoldsBase T (K.and S) code base :=
  fun id select hkind => (h id select hkind).more

theorem rowBase_follows (h : code.Fits T) {k : Int → Gen α}
    (hk : ∀ S base, HoldsBase T (K.and S) code base → Follows L T (K.and S) E (k base) E' Q) :
    Follows L T K E (rowBase code >>= k) E' Q := by
  unfold rowBase
  split
  · exact .bind h.subselect fun base => hk _ base fun _ _ _ k hk => by simp [hk]
  · rename_i hkind
    refine .bind (.done _) fun base => hk _ base fun id select heq => (hkind id select heq).elim

theorem rowField_gives (h : code.Fits T) (hi : i < code.expr.vectorSize) (hbase : HoldsBase T K code base) :
    Gives L T K E (rowField code i base) fun p => Facts.held (p.1, p.2.2) := by
  unfold rowField
  split
  · rename_i hkind
    refine .pure rfl fun f hf => ?_
    obtain rfl : f = .reads _ := by simpa using hf
    exact h.expr.readsRow_register hkind i hi
  · rename_i hkind
    refine .pure rfl fun f hf => ?_
    obtain rfl : f = .reads _ := by simpa using hf
    exact hbase _ _ hkind i hi
  · have hfield : ((code.fields[i]?).getD code.toCode).Fits T := by
      cases hf : code.fields[i]? with
      | none => exact h.toFits
      | some f => exact h.fields f (List.mem_of_getElem? hf)
    exact .bind hfield.temp fun p => .pure rfl fun f hf => Terms.knows_of_mem (.inr hf)

theorem storeFields_works {op strict : Opcode} (hop : op.isComparison) (hstrict : strict.isComparison)
    (hstore : mode.store) (hl : left.Fits T) (hr : right.Fits T) {leftBase rightBase : Int}
    (hleft : HoldsBase T K left leftBase) (hright : HoldsBase T K right rightBase) (hreg : T.Writes K reg)
    {done : Label} (hdone : E.Offers L done) {n : Nat} (hn : i + n ≤ left.expr.vectorSize)
    (hn' : i + n ≤ right.expr.vectorSize) :
    Works L T K E (storeFields op strict mode left right leftBase rightBase reg done n i) := by
  induction n generalizing i K with
  | zero => exact .done _
  | succ n ih =>
    refine .bind (rowField_gives hl (by omega) hleft) fun r1 => ?_
    refine .bind (rowField_gives hr (by omega) hright.more) fun r2 => ?_
    have hopcode : (if n = 0 then op else strict).isComparison := by
      split
      · exact hop
      · exact hstrict
    refine comparison_follows hopcode (by simp) (by simp) (fun _ => by simp [hreg]) fun x hx hj => ?_
    refine .pass (.emit (by simpa [hstore] using hj) hx) fun _ => ?_
    refine .next (release_works fun r hr => by simp [hr]) fun _ => ?_
    refine .next (release_works fun r hr => by simp [hr]) fun _ => ?_
    split
    · extract_lets
      -- Whatever the jump behind a field is, it reads the outcome at most.
      have hmore (S : Facts) := ih (i := i + 1) (K := ((K.and (Facts.held (r1.1, r1.2.2))).and
        (Facts.held (r2.1, r2.2.2))).and S) hleft.more.more.more hright.more.more.more (by simp [hreg]) (by omega)
        (by omega)
      split
      · exact .step (.emitJump hdone rfl (.test rfl rfl (by simp [hreg]))) fun _ => hmore _
      · exact .step (.emitJump hdone rfl (.test rfl rfl (by simp [hreg]))) fun _ => hmore _
      · exact .step (.emitJump hdone rfl (.none rfl rfl)) fun _ => hmore _
    · exact .done _

theorem storeRows_works (hop : op.isComparison) (hl : left.Fits T) (hr : right.Fits T) (hreg : T.Writes K reg) :
    Works L T K E (storeRows op left right reg) := by
  have hopcode := opcode_isComparison hop
  unfold storeRows
  extract_lets n strict mode
  have hstrict : strict.isComparison := by
    simp only [strict]
    split
    · rfl
    · rfl
    · exact hopcode
  split
  · exact .throw (by simp)
  · rename_i hsame
    refine .pass .label fun done => rowBase_follows hl fun S l hleft => rowBase_follows hr fun S' r hright => ?_
    refine .next (storeFields_works hopcode hstrict rfl hl hr hleft.more hright (by simp [hreg]) (.inr (.head _))
      (Nat.le_of_eq (Nat.zero_add _)) ?_) fun _ => .rule (.resolve (.refl _))
    omega

/-! ## Operators -/

theorem withoutHoisting_gives {g : Gen Int} (h : Locates L T K E g) : Locates L T K E (withoutHoisting g) := by
  have hplain : Locates L T K E (do
      let saved := (← get).hoisting
      modify fun c => { c with hoisting := false }
      let a ← g
      modify fun c => { c with hoisting := saved }
      return a) :=
    .idle .get fun _ => .idle (.setHoisting _) fun _ => .bind h fun r => .idle (.setHoisting _) fun _ => .ret (by simp)
  refine .image (k := id) (fun c a c' hmake => ?_) (fun c hdeep => ?_) hplain
  · obtain ⟨c1, hg, rfl⟩ := makes_of_withoutHoisting hmake
    refine ⟨a, makes_bind.2 ⟨c, c, makes_get.2 ⟨rfl, rfl⟩, makes_bind.2 ⟨⟨⟩, _, makes_modify.2 rfl, ?_⟩⟩, rfl⟩
    exact makes_bind.2 ⟨a, c1, hg, makes_bind.2 ⟨⟨⟩, _, makes_modify.2 rfl, makes_pure.2 ⟨rfl, rfl⟩⟩⟩
  · exact Makes.deep (makes_get.2 ⟨rfl, rfl⟩) (Makes.deep (a := ⟨⟩) (makes_modify.2 rfl)
      hdeep.of_withoutHoisting.bind)

theorem arithmetic_works (hjumps : opcode.jumps = false) {left right : Code} (hl : left.Fits T) (hr : right.Fits T)
    (hread : ∀ x y z, (of opcode x y z).read = [x, y]) (hwritten : ∀ x y z, (of opcode x y z).written = [z])
    (hreg : T.Writes K reg) : Works L T K E (arithmetic opcode left right reg) := by
  refine .bind hl.temp fun r1 => .bind hr.temp fun r2 => ?_
  refine .pass (.emit (canJump_eq_false hjumps) (.two (hread _ _ _) (hwritten _ _ _) ?_ ?_ ?_)) fun _ => ?_
  · simp
  · simp
  · simp [hreg]
  · exact releases_work (fun r hr => by simp [hr]) fun r hr => by simp [hr]

section

variable (hl : left.Fits T) (hr : right.Fits T) (wanted : Bool) (hdest : E.Offers L dest)

include hl hr wanted hdest

theorem jumpAnd_works (jumpIfNull : Bool) : Works L T K E (jumpAnd left right wanted dest jumpIfNull) := by
  unfold jumpAnd
  split
  · refine .pass .label fun skip => .next (hl.branch _ _ _ (.inr (.head _))) fun _ => ?_
    exact .next (hr.branch _ _ _ (hdest.imp_right (.tail _))) fun _ => .rule (.resolve (.refl _))
  · exact .next (hl.branch _ _ _ hdest) fun _ => hr.branch _ _ _ hdest

theorem jumpOr_works (jumpIfNull : Bool) : Works L T K E (jumpOr left right wanted dest jumpIfNull) := by
  unfold jumpOr
  split
  · exact .next (hl.branch _ _ _ hdest) fun _ => hr.branch _ _ _ hdest
  · refine .pass .label fun skip => .next (hl.branch _ _ _ (.inr (.head _))) fun _ => ?_
    exact .next (hr.branch _ _ _ (hdest.imp_right (.tail _))) fun _ => .rule (.resolve (.refl _))

end

theorem jumpOnNull_works {operand : Code} (h : operand.Fits T) (ifNull : Bool) (hdest : E.Offers L dest) :
    Works L T K E (jumpOnNull operand ifNull dest) := by
  refine .bind h.temp fun r => .step (.emitJump hdest ?_ ?_) fun _ => release_works fun r hr => by simp [hr]
  · cases ifNull <;> rfl
  · cases ifNull <;> exact .test rfl rfl (by simp)

theorem loadReal_works (text : String) (negated : Bool) (hreg : T.Writes K reg) :
    Works L T K E (loadReal text negated reg) := .rule (.emit rfl (.load rfl rfl hreg))

theorem loadInteger_works (text : String) (negated : Bool) (hreg : T.Writes K reg) :
    Works L T K E (loadInteger text negated reg) := by
  unfold loadInteger
  split
  · exact .rule (.emit rfl (.load rfl rfl hreg))
  · split
    · exact .rule (.emit rfl (.none rfl rfl))
    · exact loadReal_works _ _ hreg

theorem loadBlob_works (hex : String) (hreg : T.Writes K reg) : Works L T K E (loadBlob hex reg) := by
  unfold loadBlob
  split
  · exact .rule (.emit rfl (.load rfl rfl hreg))
  · exact .throw (by simp)

end Gen

namespace Coded

variable {low high : Coded} {arms : List (Coded × Coded)}

theorem reduced_fits {op : BinaryOp} (hl : left.Fits T) (hr : right.Fits T) :
    ∀ code ∈ reduced? op left right, code.Fits T := by
  intro code hcode
  unfold reduced? at hcode
  grind

theorem binary_fits (he : T.Covers e) (op : BinaryOp) (hl : left.Fits T) (hr : right.Fits T) :
    (binary e op left right).Fits T := by
  unfold binary
  extract_lets rows code jump
  have hcode : code.Fits T := by
    refine Code.of_fits he fun hreg => ?_
    split
    · rename_i hop
      refine (arithmetic_works ?_ hl.toFits hr.toFits (fun x y z => ?_) (fun x y z => ?_) hreg).thenReturn hreg <;>
        cases op <;> first | rfl | cases hop
    · rename_i hop
      have hop : op.isComparison := by simpa using hop
      split
      · exact (storeRows_works hop hl hr hreg).thenReturn hreg
      · exact (storeComparison_works hop hl.toFits hr.toFits hreg).thenReturn hreg
  have hjump {L K E} (wanted : Bool) (l : Label) (jumpIfNull : Bool) (hlabel : E.Offers L l) :
      Works L T K E (jump wanted l jumpIfNull) := by
    simp only [jump]
    split
    · exact jumpAnd_works hl hr _ hlabel _
    · exact jumpOr_works hl hr _ hlabel _
    · split
      · rename_i hop
        simp only [Bool.and_eq_true] at hop
        exact jumpComparison_works hop.1 hl.toFits hr.toFits _ hlabel _
      · exact jumpOnTruth_works hcode.temp _ hlabel _
  -- With a literal on one side, AND and OR come down to one of their operands.
  refine { ofJump_fits hcode hjump with branch := fun wanted l jumpIfNull hlabel => ?_ }
  refine .pass (.checkHeight he.clears) fun _ => ?_
  cases hreduced : reduced? op left right with
  | none => exact hjump _ _ _ hlabel
  | some code => exact (reduced_fits hl hr code hreduced).jump _ _ _ hlabel

theorem negated_works (h : operand.Fits T) (hreg : T.Writes K reg) : Works L T K E (negated operand reg) := by
  unfold negated
  split
  · exact .rule (.emit rfl (.load rfl rfl hreg))
  · exact loadInteger_works _ _ hreg
  · exact loadReal_works _ _ hreg
  · have hzero : (Code.of (Expr.ofKind (.integer (.inline 0))) fun r => do
        emit (.of .integer 0 r)
        return r).Fits T := by
      refine Code.of_fits (.of_parts ⟨.inr trivial, fun _ => trivial⟩ (List.forall_mem_nil _) rfl ?_) fun hr => ?_
      · exact ⟨h.expr.clears.literal, h.expr.clears.literal, List.forall_mem_nil _⟩
      · exact Follows.thenReturn (.rule (.emit rfl (.load rfl rfl hr))) hr
    exact arithmetic_works rfl hzero h.toFits (fun _ _ _ => rfl) (fun _ _ _ => rfl) hreg

theorem applied_works {opcode : Opcode} (hjumps : opcode.jumps = false) {operand : Code} (h : operand.Fits T)
    (hread : ∀ x y, (Instr.of opcode x y).read = [x]) (hwritten : ∀ x y, (Instr.of opcode x y).written = [y])
    (hreg : T.Writes K reg) : Gen.Works L T K E (applied opcode operand reg) := by
  refine .bind h.temp fun r => .pass (.emit (Instr.canJump_eq_false hjumps)
    (.move (hread _ _) (hwritten _ _) (by simp) (by simp [hreg]))) fun _ => ?_
  exact Gen.release_works fun r hr => by simp [hr]

theorem nullTest_works (ifNull : Bool) {operand : Code} (h : operand.Fits T) (hreg : T.Writes K reg) :
    Works L T K E (nullTest ifNull operand reg) := by
  refine .pass (.emit rfl (.load rfl rfl hreg)) fun _ => .bind h.temp fun r => ?_
  refine .step (.emitLoose (by cases ifNull <;> exact .test rfl rfl (by simp))) fun a => ?_
  refine .pass (.emit rfl (.move rfl rfl (by simp [hreg]) (by simp [hreg]))) fun _ => ?_
  refine .pass (.jumpHere (.inr (.inl rfl)) ?_ ?_ fun _ => List.mem_cons.1) fun _ =>
    release_works fun r hr => by simp [hr]
  · cases ifNull <;> rfl
  · cases ifNull <;> rfl

theorem truthTest_works (test : TruthTest) {operand : Code} (h : operand.Fits T) (hreg : T.Writes K reg) :
    Works L T K E (truthTest test operand reg) := by
  refine .bind h.temp fun r => .pass (.emit rfl (.move rfl rfl ?_ ?_)) fun _ => ?_
  · simp
  · simp [hreg]
  · exact release_works fun r hr => by simp [hr]

theorem unary_fits (he : T.Covers e) (op : UnaryOp) (h : operand.Fits T) : (unary e op operand).Fits T := by
  unfold unary
  extract_lets code
  have hcode : code.Fits T := by
    refine Code.of_fits he fun hreg => ?_
    cases op with
    | positive => exact h.target hreg
    | negate => exact (negated_works h hreg).thenReturn hreg
    | not | bitNot => exact (applied_works rfl h.toFits (fun _ _ => rfl) (fun _ _ => rfl) hreg).thenReturn hreg
    | isNull | notNull => exact (nullTest_works _ h.toFits hreg).thenReturn hreg
    | isTrue | isNotTrue | isFalse | isNotFalse => exact (truthTest_works _ h.toFits hreg).thenReturn hreg
  refine ofJump_fits hcode fun wanted l jumpIfNull hlabel => ?_
  split
  · exact h.branch _ _ _ hlabel
  · exact h.branch _ _ _ hlabel
  · exact Gen.jumpOnNull_works h.toFits _ hlabel
  · exact Gen.jumpOnNull_works h.toFits _ hlabel
  · exact Gen.jumpOnTruth_works hcode.temp _ hlabel _

theorem cast_fits (he : T.Covers e) (h : operand.Fits T) (type : String) : (cast e operand type).Fits T := by
  refine load_fits he fun {L K E reg} hreg => .bind (h.target hreg) fun found => ?_
  have hcast {K : Facts} (hreg : T.Writes K reg) :
      Works L T K E (emit (.of .cast reg (Affinity.ofType type).code.toNat)) :=
    .rule (.emit rfl (.move rfl rfl hreg.reads hreg))
  split
  · refine .pass (.emit rfl (.move rfl rfl ?_ ?_)) fun _ => hcast (by simp [hreg])
    · simp
    · simp [hreg]
  · exact hcast (by simp [hreg])

theorem ifNullRow_fits (he : T.Covers e) (cursor : Int) (h : operand.Fits T) : (ifNullRow e cursor operand).Fits T := by
  refine of_fits he fun hreg => ?_
  -- The register is not known before the operand is computed; till then the instruction names register zero.
  refine .step (.emitLoose ⟨List.forall_mem_nil _, List.forall_mem_singleton.2 Terms.reads_zero⟩) fun a => ?_
  refine .bind (withoutHoisting_gives (h.target (by simp [hreg]))) fun found => ?_
  refine .pass (.jumpHere (.inl (.inr (.inl rfl))) rfl rfl fun _ => List.mem_cons.1) fun _ => ?_
  exact .pass (.setRegister (.inl (.inr (.inl rfl))) (by simp)) fun _ => .ret (by simp)

/-! ## BETWEEN and CASE -/

theorem held_fits {code : Coded} (h : T.Covers code.expr) (hheight : T.Admits (code.expr.height + 1)) :
    (code.held reg).Fits (T.grant reg code.expr.vectorSize) := by
  refine register_fits (.of_parts ⟨.inr fun k hk => .inr ?_, fun _ => trivial⟩
    (List.forall_mem_singleton.2 (h.grant _ _)) rfl ?_) (h.vectorSize_pos.imp_right fun hpos => .inr ?_)
  · exact mem_registerRow.2 ⟨k, hk, rfl⟩
  · refine ⟨h.clears.literal, ?_, List.forall_mem_nil _⟩
    exact Eq.mpr (congrArg T.Admits (Expr.height_register reg code.expr)) hheight
  · exact mem_registerRow.2 ⟨0, hpos, by simp⟩

theorem compared_fits (op : BinaryOp) (hl : left.Fits T) (hr : right.Fits T)
    (hheight : T.Admits (max left.expr.height right.expr.height + 1)) : (compared op left right).Fits T := by
  refine binary_fits (.of_parts ?_ ?_ rfl ?_) op hl hr
  · exact ⟨.inr trivial, fun _ => trivial⟩
  · exact List.forall_mem_cons.2 ⟨hl.expr, List.forall_mem_singleton.2 hr.expr⟩
  · refine ⟨hl.expr.clears.literal, ?_, List.forall_mem_nil _⟩
    exact Eq.mpr (congrArg T.Admits (Expr.height_binary op left.expr right.expr)) hheight

/-- The comparisons may read the registers that the operand is in. -/
theorem asConjunction_follows (h : operand.Fits T) (hlow : ∀ first n, low.Fits (T.grant first n))
    (hhigh : ∀ first n, high.Fits (T.grant first n))
    (hheight : T.Admits (max (operand.expr.height + 1) (max low.expr.height high.expr.height) + 2))
    {k : Coded × Option Int → Gen α} {E' : α → Ends} {Q : α → Facts}
    (hk : ∀ (S : Facts) both first n free, (∀ r, free = some r → .scratch r ∈ S) → both.Fits (T.grant first n) →
      T.ReadsRow (K.and S) first n → Follows L T (K.and S) E (k (both, free)) E' Q) :
    Follows L T K E (asConjunction operand low high >>= k) E' Q := by
  unfold asConjunction
  rw [bind_assoc]
  refine .bind h.row fun r => ?_
  have hheld : (operand.held r.1).Fits (T.grant r.1 operand.expr.vectorSize) :=
    held_fits h.expr (hheight.mono (by omega))
  have hexpr : (operand.held r.1).expr.height = operand.expr.height + 1 := Expr.height_register _ _
  have hleast := compared_fits .ge hheld (hlow _ _) (hheight.mono (by omega))
  have hmost := compared_fits .le hheld (hhigh _ _) (hheight.mono (by omega))
  refine hk _ _ r.1 _ r.2 (fun x hx => by simp [hx]) (compared_fits _ hleast hmost (hheight.mono ?_)) fun k hk => by
    simp [hk]
  have hleft : (compared .ge (operand.held r.1) low).expr.height = _ := Expr.height_binary _ _ _
  have hright : (compared .le (operand.held r.1) high).expr.height = _ := Expr.height_binary _ _ _
  omega

theorem between_fits (he : T.Covers e) (h : operand.Fits T) (hlow : ∀ first n, low.Fits (T.grant first n))
    (hhigh : ∀ first n, high.Fits (T.grant first n))
    (hheight : T.Admits (max (operand.expr.height + 1) (max low.expr.height high.expr.height) + 2)) :
    (between e operand low high).Fits T := by
  refine ofJump_fits (Code.of_fits he fun hreg => ?_) fun wanted l jumpIfNull hlabel => ?_
  · refine asConjunction_follows h hlow hhigh hheight fun S both first n free hfree hboth hrow => ?_
    refine .next (.grant hrow (hboth.exact (by simp [hreg]))) fun _ => ?_
    refine .next (release_works fun r hr => ?_) fun _ => ?_
    · simp [hfree r hr]
    · exact .ret (by simp [hreg])
  · refine asConjunction_follows h hlow hhigh hheight fun S both first n free hfree hboth hrow => ?_
    refine .next (.grant hrow (hboth.branch _ _ _ hlabel)) fun _ => release_works fun r hr => ?_
    simp [hfree r hr]

theorem caseArms_works {subject : Option Coded}
    (hsubject : ∀ x ∈ subject, ∀ arm ∈ arms, x.Fits T ∧ T.Admits (max x.expr.height arm.1.expr.height + 1))
    (h : ∀ arm ∈ arms, arm.1.Fits T ∧ arm.2.Fits T) (hreg : T.Writes K reg) {done : Label} (hdone : E.Offers L done) :
    Works L T K E (caseArms subject reg done arms) := by
  induction arms with
  | nil => exact .done _
  | cons arm rest ih =>
    obtain ⟨⟨hcondition, hresult⟩, hrest⟩ := List.forall_mem_cons.1 h
    refine .pass .label fun next => ?_
    extract_lets more
    -- Behind the test of the arm, the label of the next arm is open.
    have hmore (u : Unit) : Follows L T K { E with labels := next :: E.labels } (more u) (fun _ => E) fun _ => ∅ := by
      refine .next (hresult.exact hreg) fun _ => .next (goto_works (hdone.imp_right (.tail _))) fun _ => ?_
      exact .pass (.resolve (.refl _)) fun _ => ih (fun x hx => (List.forall_mem_cons.1 (hsubject x hx)).2) hrest
    cases subject with
    | some x =>
      obtain ⟨hx, hheight⟩ := hsubject x rfl arm List.mem_cons_self
      exact .next ((compared_fits .eq hx hcondition hheight).branch _ _ _ (.inr (.head _))) hmore
    | none => exact .next (hcondition.branch _ _ _ (.inr (.head _))) hmore

theorem caseOf_fits (he : T.Covers e) {base otherwise : Option Coded} (hbase : ∀ b ∈ base, b.Fits T)
    (harms : ∀ arm ∈ arms, ∀ first n, arm.1.Fits (T.grant first n) ∧ arm.2.Fits (T.grant first n))
    (hotherwise : ∀ x ∈ otherwise, x.Fits T)
    (hheight : ∀ b ∈ base, ∀ arm ∈ arms, T.Admits (max (b.expr.height + 1) arm.1.expr.height + 1)) :
    (caseOf e base arms otherwise).Fits T := by
  refine load_fits he fun {L K E reg} hreg => .pass .label fun done => ?_
  extract_lets last more
  -- The arms share the label at the end, which stays open up to there.
  have hlast {K} (u : Unit) : Follows L T K { E with labels := done :: E.labels } (last u) (fun _ => E) fun _ => ∅ :=
    .rule (.resolve (.refl _))
  have hmore {K} (hreg : T.Writes K reg) (u : Unit) :
      Follows L T K { E with labels := done :: E.labels } (more u) (fun _ => E) fun _ => ∅ := by
    cases otherwise with
    | some x => exact .next ((hotherwise x rfl).exact hreg) hlast
    | none => exact .pass (.emitNull hreg) hlast
  cases base with
  | some b =>
    have hb := hbase b rfl
    refine .bind hb.row fun r => .next (.grant (fun k hk => by simp [hk])
      (caseArms_works (T := T.grant r.1 b.expr.vectorSize) ?_
        (fun arm harm => harms arm harm _ _) (by simp [hreg]) (.inr (.head _)))) (hmore (by simp [hreg]))
    rintro x ⟨⟩ arm harm
    have hadmits := hheight b rfl arm harm
    have hexpr : (b.held r.1).expr.height = b.expr.height + 1 := Expr.height_register _ _
    exact ⟨held_fits hb.expr (hadmits.mono (by omega)), hadmits.mono (by omega)⟩
  | none =>
    refine .next (caseArms_works (by simp) (fun arm harm => ?_) hreg (.inr (.head _))) (hmore hreg)
    simpa using harms arm harm 0 0

theorem raise_fits (he : T.Covers e) (action : RaiseAction) (message : Option String) :
    (raise e action message).Fits T := by
  refine load_fits he fun _ => .idle .get fun _ => ?_
  split
  split
  · exact .throw (by simp)
  · exact .rule (.emit rfl (.none rfl rfl))

end Coded

/-! ## Columns and calls -/

namespace Gen

variable {args : List (Item Code)}

theorem readColumn_works (table : Option Table) (cursor column : Int) (hreg : T.Writes K reg) :
    Works L T K E (readColumn table cursor column reg) := by
  unfold readColumn
  split
  · exact .rule (.emit rfl (.load rfl rfl hreg))
  · split
    · exact .rule (.emit rfl (.load rfl rfl hreg))
    · refine .pass (.emit rfl (.load rfl rfl hreg)) fun _ => ?_
      split
      · exact .rule (.emit rfl (.move rfl rfl hreg.reads hreg))
      · exact .done _

theorem fixedColumn_gives (ref : ColumnRef Expr) {value : Code} (h : value.Fits T) (hreg : T.Writes K reg) :
    Locates L T K E (fixedColumn ref value reg) := by
  refine .bind (h.target hreg) fun found => ?_
  extract_lets affinity
  split
  · exact .ret (by simp)
  · have hconvert : Gives L T (K.and {.reads found}) E (do
        emit (.of .affinity reg 1 0 (.affinity (Affinity.codes [affinity])))
        return reg) fun r => {.reads r} := by
      refine .pass (.emit rfl (.affinity (n := 1) (fun k hk => ?_) _)) fun _ => .ret (by simp [hreg])
      obtain rfl : k = 0 := by omega
      simp [hreg]
    split
    · refine .pass (.emit rfl (.move rfl rfl ?_ ?_)) fun _ => hconvert
      · simp
      · simp [hreg]
    · exact hconvert

theorem column_gives (ref : ColumnRef Expr) {fixed : Option Code} (h : ∀ code ∈ fixed, code.Fits T)
    (hown : fixed = none → ref.cursor < 0 → T.free ∨ T.allotment.Column T.reads ref) (hreg : T.Writes K reg) :
    Locates L T K E (column ref fixed reg) := by
  have hread {K : Facts} (hreg : T.Writes K reg) (cursor : Int) :
      Locates L T K E (do readColumn ref.table cursor ref.column reg; return reg) :=
    (readColumn_works _ _ _ hreg).thenReturn hreg
  unfold column
  split
  · exact fixedColumn_gives ref (h _ rfl) hreg
  · split
    · exact hread hreg _
    · rename_i hcursor
      refine .withState fun c hc => ?_
      have hown := hown rfl (by omega)
      split
      · rename_i base hbase
        refine .ret ?_
        rcases hown with hfree | hown
        · exact .of_free hfree
        · rcases hc with hfree | hc
          · exact .of_free hfree
          · rw [Allotment.Column, ← hc, hbase] at hown
            exact .of_given hown
      · exact hread (by simp [hreg]) _
      · exact .throw (by simp)

theorem findFunction_idle (name : String) (n : Nat) : Idle (findFunction name n) := by
  refine .bind .get fun c => ?_
  extract_lets functions
  split
  · split
    · exact .throw (by simp)
    · exact .pure _
  · refine .throw fun limit => ?_
    split <;> simp

theorem firstNotNull_works {done : Label} (hdone : E.Offers L done) (h : ∀ arg ∈ args, arg.expr.Fits T)
    (hreg : T.Writes K reg) : Works L T K E (firstNotNull reg done args) := by
  induction args generalizing K with
  | nil => exact .done _
  | cons arg rest ih =>
    obtain ⟨harg, hrest⟩ := List.forall_mem_cons.1 h
    refine .step (.emitJump hdone rfl (.test rfl rfl hreg.reads)) fun _ => ?_
    exact .next (harg.exact (by simp [hreg])) fun _ => ih hrest (by simp [hreg])

theorem firstCollation_idle (args : List (Item Code)) : Idle (firstCollation args) := by
  induction args with
  | nil => exact .pure _
  | cons arg rest ih =>
    refine .bind (.lookup _) fun found => ?_
    split
    · exact .pure _
    · exact ih

theorem callFunction_works (f : Function) (h : ∀ arg ∈ args, arg.expr.Fits T) (hnarrow : T.pins → args.length ≤ 32)
    (hreg : T.Writes K reg) : Works L T K E (callFunction f args reg) := by
  unfold callFunction
  extract_lets n mask called
  have hcalled (collation : Option Collation) : Works L T K E (called collation) := by
    unfold called
    extract_lets written
    -- The arguments are in registers that may be written; without arguments, none is read.
    have hwritten {K} (hreg : T.Writes K reg) (first : Int) (hfirst : T.WritesRow K first args.length)
        (hscratch : (!args.isEmpty && mask = 0) → ∀ k < args.length, .scratch (first + (k : Nat)) ∈ K) :
        Works L T K E (written first) := by
      unfold written
      extract_lets last
      have hlast (u : Unit) : Works L T K E (last u) := by
        refine .pass (.emit rfl (.rowTo rfl rfl (hfirst.take ?_).reads hreg)) fun _ => ?_
        · exact Nat.le_trans (Nat.le_of_eq (UInt16.toNat_ofNat' ..)) (Nat.mod_le _ _)
        · split
          · rename_i hmask
            exact .rule (.releaseTempRange (hscratch hmask))
          · exact .done _
      split
      · exact .idle (.orBinary _) fun _ => .pass (.emit rfl (.none rfl rfl)) hlast
      · exact hlast ()
    split
    · rename_i hempty
      refine .next (.done _) fun first => hwritten hreg first ?_ (by simp [hempty])
      rw [List.isEmpty_iff.1 hempty]
      exact fun k hk => absurd hk (Nat.not_lt_zero k)
    · split
      · rename_i hmask
        refine .step (.getTempRange args.length) fun first => .next (.discard (exprList_works _ h
          (by simp [ReadsResults]) (fun hp _ hconst => ?_) fun k hk => ?_)) fun _ =>
            hwritten (by simp [hreg]) first (fun k hk => ?_) fun _ k hk => ?_
        · obtain ⟨arg, harg, hconst⟩ := hconst
          exact absurd (Expr.isConstant_plain hconst) (by simp [isConstant_of_constantMask (hnarrow hp) hmask arg harg])
        · simp [hk]
        · simp [hk]
        · simp [hk]
      · rename_i hmask
        refine .step (.allocRegs args.length) fun first => .next (.discard (exprList_works _ h
          (by simp [ReadsResults]) (fun _ _ _ k hk => ?_) fun k hk => ?_)) fun _ =>
            hwritten (by simp [hreg]) first (fun k hk => ?_) (by simp [hmask])
        · simp [hk]
        · simp [hk]
        · simp [hk]
  split
  · exact .idle (firstCollation_idle _) hcalled
  · exact .next (.done _) hcalled

theorem call_gives (he : T.Covers e) (name : String) (h : ∀ arg ∈ args, arg.expr.Fits T)
    (hnarrow : T.pins → args.length ≤ 32) (window : Option Identity) (hreg : T.Writes K reg) :
    Locates L T K E (call e name args window reg) := by
  unfold call
  split
  · refine .withState fun c _ => ?_
    split
    · rename_i found hfound
      exact .ret (.new (.window (mem_of_lookup hfound)))
    · exact .throw (by simp)
  · refine .idle (.hoists e) fun b => ?_
    split
    · exact .rule (.hoist he)
    · refine .idle .get fun _ => ?_
      extract_lets limit found
      split
      · exact .throw (by simp)
      · refine .idle (findFunction_idle _ _) fun f => ?_
        split
        · split
          · obtain ⟨hfirst, hrest⟩ := List.forall_mem_cons.1 h
            refine .pass .label fun done => .next (hfirst.exact hreg) fun _ => ?_
            refine .next (firstNotNull_works (.inr (.head _)) hrest hreg) fun _ => ?_
            exact .pass (.resolve (.refl _)) fun _ => .ret hreg.reads
          · exact .throw (by simp)
        · split
          · exact (h _ List.mem_cons_self).target hreg
          · exact (callFunction_works f h hnarrow hreg).thenReturn hreg

end Gen

end ScalarSql
