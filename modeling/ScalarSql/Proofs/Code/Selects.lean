import ScalarSql.Proofs.Code.Generators
import ScalarSql.Proofs.Code.Settled

/-!
# Sub-selects, IN and every expression follow the rules

A sub-select writes its result into registers that it takes, so its arms must not be wider than it is, and a routine
leaves its entry open until it ends. With them, the code of every expression follows the rules on terms on which its
nodes can be coded (`Expr.coded_fits`).
-/

namespace ScalarSql

open Coded Gen

variable {L : List Label} {T : Terms} {K : Facts} {E : Ends} {e : Expr} {operand : Coded} {reg : Int}
  {P : Coded → Prop} {items : List (Item Expr)}

structure ArmCode.Fits (T : Terms) (arm : ArmCode) : Prop where
  columns : ∀ item ∈ arm.columns, item.expr.Fits T
  filter : ∀ f ∈ arm.filter, f.Fits T

/-- Rows of `n` columns can be delivered: the registers for them may be written. -/
def Delivery.Takes (T : Terms) (K : Facts) (n : Nat) : Delivery → Prop
  | keys .. => True
  | registers base => T.WritesRow K base n
  | flag reg => T.Writes K reg

theorem Delivery.Takes.more {n : Nat} {dest : Delivery} {S : Facts} (h : dest.Takes T K n) :
    dest.Takes T (K.and S) n := by
  cases dest with
  | keys => trivial
  | registers base => exact Terms.WritesRow.more h
  | flag reg => exact Terms.writes_and.2 (.inl h)

namespace Gen

variable {finished : Label} {dest : Delivery} {arms : List ArmCode} {arm : ArmCode} {node : Identity}

/-! ## Sub-selects -/

theorem deliverRow_works {columns : List (Item Code)} (h : ∀ item ∈ columns, item.expr.Fits T)
    (hfinished : E.Offers L finished) (hdest : dest.Takes T K columns.length) :
    Works L T K E (deliverRow columns finished dest) := by
  have hlist {K} {first : Int} (hfirst : T.WritesRow K first columns.length) :
      Works L T K E (discard (exprList {} columns first 0)) :=
    .discard (exprList_works _ h (by simp [ReadsResults]) (by simp [Pinned]) hfirst)
  cases dest with
  | keys cursor affinity =>
    refine .step (.getTempRange columns.length) fun first => .next (hlist fun k hk => by simp [hk]) fun _ => ?_
    refine .step .getTemp fun record => .pass (.emit rfl (.rowTo rfl rfl (n := columns.length) ?_ ?_)) fun _ => ?_
    · exact fun k hk => by simp [hk]
    · simp
    · refine .pass (.emit rfl (.test rfl rfl (by simp))) fun _ => .pass (.releaseTemp (by simp)) fun _ => ?_
      exact .rule (.releaseTempRange fun k hk => by simp [hk])
  | registers base => exact .next (hlist hdest) fun _ => goto_works hfinished
  | flag reg => exact .pass (.emit rfl (.load rfl rfl hdest)) fun _ => goto_works hfinished

/-- A row is delivered or dropped; the label of dropped rows gets its address. -/
theorem deliverKept_follows (h : arm.Fits T) {dropped : Label} {rest : List Label}
    (hdropped : E.labels.Perm (dropped :: rest)) (hfinished : E.Offers L finished)
    (hdest : dest.Takes T K arm.columns.length) :
    Follows L T K E (deliverKept arm dropped finished dest) (fun _ => { E with labels := rest }) fun _ => ∅ := by
  unfold deliverKept
  extract_lets kept
  -- The code behind the filter, which is there without one too.
  have hkept (u : Unit) : Follows L T K E (kept u) (fun _ => { E with labels := rest }) fun _ => ∅ :=
    .next (deliverRow_works h.columns hfinished hdest) fun _ => .rule (.resolve hdropped)
  split
  · rename_i filter hfilter
    exact .next ((h.filter filter hfilter).branch _ _ _ (.inr (hdropped.mem_iff.2 List.mem_cons_self))) hkept
  · exact hkept ()

theorem runArm_works (h : arm.Fits T) (hfinished : E.Offers L finished) (hdest : dest.Takes T K arm.columns.length) :
    Works L T K E (runArm arm finished dest) := by
  unfold runArm
  extract_lets run unlimited
  split
  · exact .throw (by simp)
  unfold unlimited
  split
  · exact .throw (by simp)
  refine .pass .label fun dropped => ?_
  split
  · exact deliverKept_follows h (.refl _) (hfinished.imp_right (.tail _)) hdest
  · refine .idle (.noteCursor _) fun _ => .pass (.emit rfl (.none rfl rfl)) fun _ => .pass .label fun done => ?_
    refine .step (.emitJump (.inr (.head _)) rfl (.none rfl rfl)) fun _ => .step (.here (by simp)) fun top => ?_
    -- Inside the loop both labels are open, and rows that are dropped get theirs first.
    refine .next (deliverKept_follows h (.swap dropped done _) ?_ hdest.more.more) fun _ => ?_
    · exact hfinished.imp_right fun h => .tail _ (.tail _ h)
    · exact .pass (.emitBack (.inl (by simp)) (.none rfl rfl)) fun _ => .rule (.resolve (.refl _))
  · exact .throw (by simp)

theorem runArms_works (hfinished : E.Offers L finished) (h : ∀ arm ∈ arms, arm.Fits T)
    (hdest : ∀ arm ∈ arms, dest.Takes T K arm.columns.length) : Works L T K E (runArms finished dest arms) := by
  induction arms with
  | nil => exact .done _
  | cons arm rest ih =>
    obtain ⟨harm, hrest⟩ := List.forall_mem_cons.1 h
    obtain ⟨hfirst, hothers⟩ := List.forall_mem_cons.1 hdest
    exact .next (runArm_works harm hfinished hfirst) fun _ => ih hrest hothers

theorem runSelect_works (h : ∀ arm ∈ arms, arm.Fits T) (hdest : ∀ arm ∈ arms, dest.Takes T K arm.columns.length) :
    Works L T K E (runSelect arms dest) :=
  .pass .label fun _ => .next (runArms_works (.inr (.head _)) h hdest) fun _ => .rule (.resolve (.refl _))

theorem requireSelects_idle : Idle requireSelects := by
  refine .bind .get fun c => ?_
  split
  · exact .throw (by simp)
  · exact .pure _

/-! ## Routines -/

/-- What is known of a routine that is being written. -/
def OpenRoutine.facts (r : OpenRoutine) : Facts :=
  {.fixed r.ret, .stands r.load .integer, .stands r.entry .once, .mark r.entry}

/-- A routine that is being written leaves its entry without a target. -/
theorem openRoutine_follows :
    Follows L T K E openRoutine (fun r => { E with jumps := r.entry :: E.jumps }) OpenRoutine.facts := by
  refine .step (.allocRegs 1) fun ret => .step (.emitAt rfl (.load rfl rfl ?_)) fun load => ?_
  · simp
  · refine .step (.emitLoose (.none rfl rfl)) fun entry => .pure rfl fun f hf => Terms.knows_of_mem ?_
    rcases hf with rfl | rfl | rfl | rfl <;> simp

theorem closeRoutine_follows {r : OpenRoutine} {jumps : List Int} (hr : r.facts ⊆ K) (hE : E.jumps = r.entry :: jumps)
    {result : Int} (hresult : T.ReadsRow K result (T.allotment.width node)) :
    Follows L T K E (closeRoutine r node result) (fun _ => { E with jumps }) fun _ => ∅ := by
  have hret : T.Writes K r.ret := .inr (.inr (.inr (hr (by simp [OpenRoutine.facts]))))
  refine .pass (.jumpHere (o := .once) (hr (by simp [OpenRoutine.facts])) rfl rfl fun x hx =>
    List.mem_cons.1 (hE ▸ hx)) fun _ => ?_
  refine .step (.emitAt rfl (.test rfl rfl hret.reads)) fun address => ?_
  refine .pass (.setNumber (.inl (hr (by simp [OpenRoutine.facts])))) fun _ => .pass .clearTemps fun _ => ?_
  exact .rule (.keepRoutine (.inl (hr (by simp [OpenRoutine.facts]))) (by simp [hret]) hresult.more)

/-- A sub-select has its result in registers in a row, as many as its node stands for. -/
theorem subselect_gives {isFlag : Bool} {width n : Nat} (h : ∀ arm ∈ arms, arm.Fits T)
    (hn : n = if isFlag then 1 else width)
    (hnode : T.free ∨ T.allotment.width node = n ∧ 0 < n ∧ ∀ arm ∈ arms, isFlag ∨ arm.columns.length ≤ n) :
    Gives L T K E (subselect e node isFlag width arms) fun base => Facts.row .reads base n := by
  have hpos : T.free ∨ 0 < n := hnode.imp_right fun h => h.2.1
  refine .withState fun c _ => ?_
  extract_lets routines count run
  split
  · rename_i r hr
    have hr : c.routines.lookup node = some r := by
      split at hr
      · cases hr
      · exact hr
    have hmem := mem_of_lookup hr
    refine .pass (.emitBack (.inr ⟨rfl, .inr (.entry hmem)⟩) ⟨List.forall_mem_nil _, ?_⟩) fun _ => .pure rfl ?_
    · exact List.forall_mem_singleton.2 (Terms.Reads.new (.ret hmem))
    · rintro _ ⟨k, hk, rfl⟩
      rcases hnode with hfree | ⟨hwidth, -⟩
      · exact .of_free hfree
      · exact .new (.result hmem (hwidth ▸ hk))
  · have hcount : count = (n : Int) := by
      rw [hn]
      cases isFlag <;> rfl
    have hrun (routine : Option OpenRoutine) {K : Facts} (hroutine : ∀ r ∈ routine, r.facts ⊆ K) :
        Follows L T K { E with jumps := (routine.map (·.entry)).toList ++ E.jumps } (run routine) (fun _ => E)
          fun base => Facts.row .reads base n := by
      unfold run
      rw [hcount]
      refine .step (.allocRegs _) fun base => ?_
      generalize hK' : K.and (Facts.row .fixed base n) = K'
      have hbase : T.WritesRow K' base n := fun k hk => by simp [← hK', hk]
      have hhead : T.Writes K' base := hbase.head hpos
      extract_lets last select
      have hselect (u : Unit) : Follows L T K' { E with jumps := (routine.map (·.entry)).toList ++ E.jumps } (select u)
          (fun _ => E) fun base => Facts.row .reads base n := by
        have hret : Gives L T K' E (pure base) fun base => Facts.row .reads base n := by
          refine .pure rfl ?_
          rintro _ ⟨k, hk, rfl⟩
          exact (hbase k hk).reads
        refine .idle requireSelects_idle fun _ => .next (runSelect_works h fun arm harm => ?_) fun _ => ?_
        · -- The rows of each arm have room in the registers taken.
          cases isFlag with
          | true => exact hhead
          | false =>
            rcases hnode with hfree | ⟨-, -, harms⟩
            · exact .of_free hfree
            · exact hbase.take ((harms arm harm).resolve_left (by simp))
        · cases routine with
          | some r =>
            have hrow : T.ReadsRow K' base (T.allotment.width node) := by
              rcases hnode with hfree | ⟨hwidth, -⟩
              · exact .of_free hfree
              · exact hwidth ▸ hbase.reads
            refine .next (closeRoutine_follows (fun f hf => ?_) rfl hrow) fun _ => hret
            exact hK' ▸ .inl (hroutine r rfl hf)
          | none => exact hret
      split
      · exact .pass (.emit rfl (.load rfl rfl hhead)) hselect
      · refine .pass (.emit rfl (.of_eq rfl rfl (List.forall_mem_nil _) fun r hr => ?_)) hselect
        rcases hpos with hfree | hpos
        · exact .of_free hfree
        · obtain ⟨k, hk, rfl⟩ := mem_registerRow.1 hr
          exact hbase k (by simp only [Instr.of] at hk; omega)
    split
    · exact hrun none (by simp)
    · refine .bind (Q := fun routine => {f | ∃ r ∈ routine, f ∈ r.facts}) (.map ?_) fun routine =>
        hrun routine fun r hr f hf => .inr ⟨r, hr, hf⟩
      refine openRoutine_follows.imp ?_
      rintro _ f ⟨_, ⟨⟩, hf⟩
      exact Terms.knows_of_mem (.inr hf)

theorem sharedColumn_gives {share : Identity} {source : Coded} (h : source.Fits T) {column : Nat} (expected : Nat)
    (hshare : T.free ∨ T.allotment.shared share = source.expr.vectorSize ∧ column < source.expr.vectorSize) :
    Locates L T K E (sharedColumn share source column expected) := by
  unfold sharedColumn
  extract_lets n shared
  split
  · exact .throw (by simp)
  · refine .withState fun c _ => ?_
    split
    · rename_i base hbase
      refine .ret ?_
      rcases hshare with hfree | ⟨hsize, hcolumn⟩
      · exact .of_free hfree
      · exact .new (.shared (mem_of_lookup hbase) (hsize ▸ hcolumn))
    · refine .bind h.subselect fun base => .pass (.keepShared fun k hk => ?_) fun _ => .ret ?_
      · rcases hshare with hfree | ⟨hsize, -⟩
        · exact .of_free hfree
        · simp [hsize ▸ hk]
      · rcases hshare with hfree | ⟨-, hcolumn⟩
        · exact .of_free hfree
        · simp [hcolumn]

end Gen

namespace Coded

variable {node : Identity} {arms : List ArmCode}

theorem hasRows_fits (he : T.Covers e) (hsize : e.vectorSize = 1) (hnode : T.free ∨ T.allotment.width node = 1)
    (h : ∀ arm ∈ arms, arm.Fits T) : (hasRows e node arms).Fits T := by
  have hselect {L K E} : Gen.Gives L T K E (Gen.subselect e node true 1 arms) fun base => Facts.row .reads base 1 :=
    Gen.subselect_gives h rfl (hnode.imp_right fun hwidth => ⟨hwidth, Nat.one_pos, by simp⟩)
  refine { of_fits he fun hreg => hselect.imp ?_ with subselect := ?_ }
  · rintro base f ⟨⟩
    simp [Terms.Knows]
  · rw [show (hasRows e node arms).expr.vectorSize = 1 from hsize]
    exact hselect

theorem subquery_fits (he : T.Covers e) {width : Nat} (hsize : e.vectorSize = width) (h : ∀ arm ∈ arms, arm.Fits T)
    (hnode : T.free ∨ T.allotment.width node = width ∧ 0 < width ∧ ∀ arm ∈ arms, arm.columns.length ≤ width) :
    (subquery e node width arms).Fits T := by
  have hselect {L K E} :
      Gen.Gives L T K E (Gen.subselect e node false width arms) fun base => Facts.row .reads base width :=
    Gen.subselect_gives h rfl (hnode.imp_right fun hnode =>
      ⟨hnode.1, hnode.2.1, fun arm harm => .inr (hnode.2.2 arm harm)⟩)
  refine { of_fits he fun hreg => ?_ with subselect := ?_ }
  · split
    · exact .throw (by simp)
    · rename_i hone
      refine hselect.imp ?_
      rintro base f ⟨⟩
      simp [Terms.Knows, not_not.1 hone]
  · rw [show (subquery e node width arms).expr.vectorSize = width from hsize]
    exact hselect

end Coded

/-! ## Membership -/

def RightSide.Fits (T : Terms) : RightSide → Prop
  | list items => ∀ item ∈ items, item.expr.Fits T
  | select _ arms => ∀ arm ∈ arms, arm.Fits T

/-- The plan is for a left side of `n` fields: each of its key fields has a place among them. -/
structure Plan.For (n : Nat) (plan : Plan) : Prop where
  map_le : plan.map.length ≤ n
  map_lt : ∀ j ∈ plan.map, j < n

/-- What is known of a plan for a left side of `n` fields. The register that tells of NULL keys may be read. -/
def Plan.facts (n : Nat) (plan : Plan) : Facts :=
  {f | f = .given (plan.For n) ∨ ∃ r, plan.hasNull = some r ∧ f = .reads r}

namespace Gen

variable {left : Int} {n : Nat} {c c' : Compiler} {t : Table} {columns : List Int} {items : List (Item Code)}
  {right : RightSide} {node : Identity} {ifFalse ifNull : Label} {i : Nat} {found : Option (List Nat)} {dest : Label}
  {map : List Nat}

theorem Follows.plan {plan : Plan} (hplan : plan.For n) (hnull : ∀ r, plan.hasNull = some r → T.Reads K r) :
    Gives L T K E (Pure.pure plan) (Plan.facts n) := by
  refine .pure rfl ?_
  rintro f (rfl | ⟨r, hr, rfl⟩)
  · exact .inr hplan
  · exact hnull r hr

theorem Follows.somePlan {plan : Plan} (hplan : plan.For n) (hnull : ∀ r, plan.hasNull = some r → T.Reads K r) :
    Gives L T K E (Pure.pure (some plan)) fun found => {f | ∃ plan ∈ found, f ∈ Plan.facts n plan} := by
  refine .pure rfl ?_
  rintro f ⟨_, ⟨⟩, rfl | ⟨r, hr, rfl⟩⟩
  · exact .inr hplan
  · exact hnull r hr

theorem keyMap_idle (operand : Expr) (t : Table) (keys : List (Int × String)) (i : Nat) (columns : List Int)
    (used : List Nat) : Idle (keyMap operand t keys i columns used) := by
  induction columns generalizing i used with
  | nil => exact .pure _
  | cons column columns ih =>
    refine .bind (.lookup _) fun wanted => ?_
    split
    · exact .pure _
    · split
      · exact .pure _
      · exact .bind (ih _ _) fun _ => .pure _

theorem keyMap_makes {operand : Expr} {keys : List (Int × String)} {used : List Nat}
    (h : (keyMap operand t keys i columns used).Makes c found c') :
    ∀ map ∈ found, map.length = columns.length ∧ ∀ j ∈ map, j < keys.length := by
  induction columns generalizing i used found c c' with
  | nil =>
    obtain ⟨rfl, -⟩ := makes_pure.1 h
    rintro map ⟨⟩
    exact ⟨rfl, List.forall_mem_nil _⟩
  | cons column columns ih =>
    obtain ⟨wanted, c1, -, h⟩ := makes_bind.1 h
    split at h
    · obtain ⟨rfl, -⟩ := makes_pure.1 h
      rintro map ⟨⟩
    · rename_i j hj
      split at h
      · obtain ⟨rfl, -⟩ := makes_pure.1 h
        rintro map ⟨⟩
      · obtain ⟨rest, c2, hrest, h⟩ := makes_bind.1 h
        obtain ⟨rfl, -⟩ := makes_pure.1 h
        intro map hmap
        obtain ⟨map, hsome, rfl⟩ := Option.map_eq_some_iff.1 hmap
        obtain ⟨hlength, hlt⟩ := ih hrest map hsome
        refine ⟨congrArg (· + 1) hlength, List.forall_mem_cons.2 ⟨?_, hlt⟩⟩
        exact (List.findIdx?_eq_some_iff_getElem.1 hj).1

theorem indexMap_idle (operand : Expr) (t : Table) (columns : List Int) (index : Index) (use : ProbeUse) :
    Idle (indexMap? operand t columns index use) := by
  unfold indexMap?
  extract_lets n keys
  split
  · exact .pure _
  · split
    · exact .pure _
    · exact keyMap_idle _ _ _ _ _ _

theorem indexMap_makes {operand : Expr} {index : Index} {use : ProbeUse}
    (h : (indexMap? operand t columns index use).Makes c found c') :
    ∀ map ∈ found, map.length = columns.length ∧ ∀ j ∈ map, j < columns.length := by
  unfold indexMap? at h
  extract_lets n keys at h
  intro map hmap
  split at h
  · obtain ⟨rfl, -⟩ := makes_pure.1 h
    cases hmap
  · split at h
    · obtain ⟨rfl, -⟩ := makes_pure.1 h
      cases hmap
    · obtain ⟨hlength, hlt⟩ := keyMap_makes h map hmap
      exact ⟨hlength, fun j hj => Nat.lt_of_lt_of_le (hlt j hj) (List.length_take_le _ _)⟩

theorem loadHasNull_works (cursor : Int) (hreg : T.Writes K reg) : Works L T K E (loadHasNull cursor reg) := by
  refine .pass (.emit rfl (.load rfl rfl hreg)) fun _ => .step (.emitLoose (.none rfl rfl)) fun a => ?_
  refine .pass (.emit rfl (.load rfl rfl (by simp [hreg]))) fun _ => ?_
  exact .rule (.jumpHere (o := .rewind) (by simp) rfl rfl fun _ => List.mem_cons.1)

theorem planIndex_gives (operand : Expr) (t : Table) (columns : List Int) (cursor : Int) (use : ProbeUse)
    (wantNull : Bool) (indexes : List Index) :
    Gives L T K E (planIndex operand t columns cursor use wantNull indexes) fun found =>
      {f | ∃ plan ∈ found, f ∈ Plan.facts columns.length plan} := by
  induction indexes with
  | nil => exact .pure rfl (by simp)
  | cons index rest ih =>
    refine .idleMade (indexMap_idle _ _ _ _ _) fun c found c' hmake => ?_
    split
    · exact ih
    · rename_i map
      obtain ⟨hlength, hlt⟩ := indexMap_makes hmake map rfl
      refine .step (.emitLoose (.none rfl rfl)) fun once => .pass (.emit rfl (.none rfl rfl)) fun _ => ?_
      extract_lets notNull last
      -- The jump that skips the opening later on is sent behind it, whatever was asked about NULLs.
      have hlast (hasNull : Option Int) {K : Facts} (honce : .stands once .once ∈ K)
          (hreads : ∀ r, hasNull = some r → T.Reads K r) :
          Follows L T K { E with jumps := once :: E.jumps } (last hasNull) (fun _ => E) fun found =>
            {f | ∃ plan ∈ found, f ∈ Plan.facts columns.length plan} :=
        .pass (.jumpHere honce rfl rfl fun _ => List.mem_cons.1) fun _ =>
          .somePlan ⟨Nat.le_of_eq hlength, hlt⟩ hreads
      split
      · refine .step (.allocRegs 1) fun reg => ?_
        split
        · refine .next (loadHasNull_works cursor (by simp)) fun _ => hlast (some reg) (by simp) ?_
          rintro r ⟨⟩
          simp
        · refine hlast (some reg) (by simp) ?_
          rintro r ⟨⟩
          simp
      · exact hlast none (by simp) (by simp)

theorem planTable_gives (operand : Expr) (t : Table) (columns : List Int) (cursor : Int) (use : ProbeUse)
    (wantNull : Bool) : Gives L T K E (planTable operand t columns cursor use wantNull) fun found =>
      {f | ∃ plan ∈ found, f ∈ Plan.facts columns.length plan} := by
  unfold planTable
  extract_lets single
  split
  · rename_i hsingle
    have hone : columns.length = 1 := by
      unfold single at hsingle
      split at hsingle
      · rfl
      · cases hsingle
    refine .step (.emitLoose (.none rfl rfl)) fun once => .pass (.emit rfl (.none rfl rfl)) fun _ => ?_
    refine .pass (.jumpHere (o := .once) (by simp) rfl rfl fun _ => List.mem_cons.1) fun _ => ?_
    exact .somePlan ⟨by simp [hone], by simp [hone]⟩ (by simp)
  · split
    · exact planIndex_gives _ _ _ _ _ _ _
    · exact .pure rfl (by simp)

theorem keyCollations_idle (operand : Expr) (columns : List (Item Expr)) (n i : Nat) :
    Idle (keyCollations operand columns n i) := by
  induction n generalizing i with
  | zero => exact .pure _
  | succ n ih =>
    unfold keyCollations
    extract_lets more
    have hmore (c : Option Collation) : Idle (more c) := .bind (.orBinary c) fun _ => .bind (ih _) fun _ => .pure _
    split
    · exact .bind (.lookup _) hmore
    · exact hmore none

/-- The items are inserted. The instruction that makes the routine run once stays without a target, or is removed. -/
theorem insertItems_follows (cursor : Int) {value record : Int} (affinity : String)
    (h : ∀ item ∈ items, item.expr.Fits T) (once : Option Int) (honce : ∀ a, once = some a → .stands a .once ∈ K)
    (hvalue : T.Writes K value) (hrecord : T.Writes K record) :
    Follows L T K { E with jumps := once.toList ++ E.jumps } (insertItems cursor value record affinity once items)
      (fun found => { E with jumps := found.elim E.jumps fun _ => once.toList ++ E.jumps }) fun _ => ∅ := by
  induction items generalizing once K with
  | nil => cases once <;> exact .pure rfl (by simp)
  | cons item rest ih =>
    obtain ⟨hitem, hrest⟩ := List.forall_mem_cons.1 h
    unfold insertItems
    extract_lets insert
    -- `keep` is the address of the instruction if it is still there behind this item.
    have hinsert (keep : Option Int) (hkeep : ∀ a, keep = some a → .stands a .once ∈ K) :
        Follows L T K { E with jumps := keep.toList ++ E.jumps } (insert keep)
          (fun found => { E with jumps := found.elim E.jumps fun _ => keep.toList ++ E.jumps }) fun _ => ∅ := by
      refine .bind (hitem.target hvalue) fun r => .pass (.emit rfl (.rowTo rfl rfl (n := 1) ?_ ?_)) fun _ => ?_
      · intro k hk
        obtain rfl : k = 0 := by omega
        simp
      · simp [hrecord]
      · refine .pass (.emit rfl (.test rfl rfl (by simp [hrecord]))) fun _ => ?_
        exact ih hrest keep (fun a ha => .inl (hkeep a ha)) (by simp [hvalue]) (by simp [hrecord])
    split
    · rename_i address
      split
      · exact hinsert (some address) honce
      · -- Once it is removed nothing is loose, which is less than what the statement allows.
        refine .pass (.cancel (honce address rfl) fun _ => List.mem_cons.1) fun _ => ?_
        refine .weaken (hinsert none (by simp)) (fun _ => rfl) (fun found x hx => ?_) (by simp)
        cases found with
        | none => exact hx
        | some _ => exact .tail _ hx
    · exact hinsert none (by simp)

theorem fillTable_follows (operand : Expr) (h : right.Fits T) (cursor : Int) (once : Option Int)
    (honce : ∀ a, once = some a → .stands a .once ∈ K) :
    Follows L T K { E with jumps := once.toList ++ E.jumps } (fillTable e operand right cursor once)
      (fun found => { E with jumps := found.elim E.jumps fun _ => once.toList ++ E.jumps }) fun _ => ∅ := by
  unfold fillTable
  split
  · refine .idle (keyCollations_idle _ _ _ _) fun _ => .pass (.emit rfl (.none rfl rfl)) fun _ => ?_
    refine .idle requireSelects_idle fun _ => .next (runSelect_works h fun _ _ => trivial) fun _ => ?_
    cases once <;> exact .pure rfl (by simp)
  · refine .idle (.lookup _) fun _ => .idle (.orBinary _) fun _ => .pass (.emit rfl (.none rfl rfl)) fun _ => ?_
    refine .step .getTemp fun value => .step .getTemp fun record => ?_
    refine .next (insertItems_follows cursor _ h once (fun a ha => ?_) (by simp) (by simp)) fun found => ?_
    · simp [honce a ha]
    · exact .pass (.releaseTemp (by simp)) fun _ => .pass (.releaseTemp (by simp)) fun _ => .pure rfl (by simp)

theorem fillRight_works (hnode : T.free ∨ T.allotment.width node = 0) (operand : Expr) (h : right.Fits T)
    (cursor : Int) : Works L T K E (fillRight e node operand right cursor) := by
  refine .withState fun c _ => ?_
  extract_lets shares
  split
  · rename_i r hr
    have hr : c.routines.lookup node = some r := by
      split at hr
      · exact hr
      · cases hr
    have hmem := mem_of_lookup hr
    refine .step (.emitLoose (.none rfl rfl)) fun once => ?_
    refine .pass (.emitBack (.inr ⟨rfl, .inl (.inr (.entry hmem))⟩) ⟨List.forall_mem_nil _, ?_⟩) fun _ => ?_
    · refine List.forall_mem_singleton.2 (Terms.reads_and.2 (.inl (Terms.Reads.new (.ret hmem))))
    · refine .pass (.emit rfl (.none rfl rfl)) fun _ => ?_
      exact .rule (.jumpHere (o := .once) (by simp) rfl rfl fun _ => List.mem_cons.1)
  · split
    · refine .bind openRoutine_follows fun r => ?_
      -- The entry of the routine is the instruction that the items may remove.
      refine .next (fillTable_follows operand h cursor (some r.entry) ?_) fun found => ?_
      · rintro a ⟨⟩
        simp [OpenRoutine.facts]
      · split
        · -- The result of this routine is a cursor, so no register of it is kept.
          refine closeRoutine_follows (fun f hf => .inr hf) rfl ?_
          rcases hnode with hfree | hwidth
          · exact .of_free hfree
          · rw [hwidth]
            exact fun k hk => absurd hk (Nat.not_lt_zero k)
        · exact .done _
    · have hfill : Works L T (K.and {f | c.Tells T.allotment f}) E (fillTable e operand right cursor none) := by
        refine .weaken (fillTable_follows operand h cursor none (by simp)) (fun _ => rfl) (fun found x hx => ?_)
          (by simp)
        cases found <;> exact hx
      exact .discard hfill

theorem wholeTable_length {s : Select} (h : wholeTable? e s = some (t, columns)) : columns.length = s.width := by
  unfold wholeTable? at h
  extract_lets p at h
  split at h
  · cases h
  · split at h
    · obtain ⟨found, hfound, heq⟩ := Option.map_eq_some_iff.1 h
      cases heq
      exact length_of_mapM hfound
    · cases h

/-- The right side of IN fits the left side in width. -/
def FitsWidth (operand : Expr) : RightSide → Prop
  | .select s _ => s.width = operand.vectorSize
  | .list _ => operand.vectorSize = 1

theorem checkWidths_gives (operand : Expr) (right : RightSide) :
    Gives L T K E (checkWidths operand right) fun _ => {.given (FitsWidth operand right)} := by
  unfold checkWidths
  split
  · split
    · exact .throw (by simp)
    · rename_i hwidth
      refine .pure rfl ?_
      rintro _ ⟨⟩
      exact .inr (not_not.1 hwidth)
  · split
    · split <;> exact .throw (by simp)
    · rename_i hwidth
      refine .pure rfl ?_
      rintro _ ⟨⟩
      exact .inr (not_not.1 hwidth)

theorem planRight_gives (hnode : T.free ∨ T.allotment.width node = 0) {operand : Expr}
    (hwidth : FitsWidth operand right) (h : right.Fits T) (use : ProbeUse) (wantNull : Bool) :
    Gives L T K E (planRight e node operand right use wantNull) (Plan.facts operand.vectorSize) := by
  refine .idle .allocCursor fun cursor => ?_
  extract_lets notNull wanted map filled chosen
  have hmap (strategy : Strategy) (hasNull : Option Int) :
      Plan.For operand.vectorSize { strategy, cursor, hasNull, notNull, map } :=
    ⟨by simp [map], by simp [map]⟩
  have hfilled (hasNull : Option Int) {K : Facts} (hwrites : ∀ r, hasNull = some r → T.Writes K r) :
      Gives L T K E (filled hasNull) (Plan.facts operand.vectorSize) := by
    refine .next (fillRight_works hnode operand h cursor) fun _ => ?_
    have hplan : Gives L T K E (pure { strategy := .ephemeral, cursor, hasNull, notNull, map })
        (Plan.facts operand.vectorSize) :=
      .plan (hmap _ _) fun r hr => (hwrites r hr).reads
    cases hasNull with
    | some reg => exact .next (loadHasNull_works cursor (hwrites reg rfl)) fun _ => hplan
    | none => exact hplan
  have hchosen (found : Option Plan) {K : Facts}
      (hfound : ∀ plan, found = some plan → plan.facts operand.vectorSize ⊆ K) :
      Gives L T K E (chosen found) (Plan.facts operand.vectorSize) := by
    unfold chosen
    split
    · exact .pure rfl fun f hf => Terms.knows_of_mem (hfound _ rfl hf)
    · refine .idle .get fun _ => ?_
      split
      · exact .plan (hmap _ _) (by simp)
      · split
        · refine .bind (Q := fun o => {f | ∃ r, o = some r ∧ f = .fixed r}) (.map ?_) fun hasNull => hfilled hasNull ?_
          · refine .imp (.rule (.allocRegs 1)) ?_
            rintro _ f ⟨r, ⟨⟩, rfl⟩
            exact Terms.knows_of_mem (by simp)
          · rintro r rfl
            simp
        · exact hfilled none (by simp)
  split
  · split
    · rename_i t columns hwhole
      have hlength : columns.length = operand.vectorSize := (wholeTable_length hwhole).trans hwidth
      refine .bind (planTable_gives _ _ _ _ _ _) fun found => hchosen found ?_
      rintro plan rfl f hf
      exact .inr ⟨plan, rfl, hlength ▸ hf⟩
    · exact hchosen none (by simp)
  · exact hchosen none (by simp)

/-! ## The test for membership -/

theorem compareItems_works (hleft : T.Reads K left) (collation : Operand) (affinity : Affinity)
    {nullSeen : Option Int} (hnull : ∀ r, nullSeen = some r → T.Writes K r) {matched : Label}
    (hmatched : E.Offers L matched) (hfalse : E.Offers L ifFalse) (h : ∀ item ∈ items, item.expr.Fits T) :
    Works L T K E (compareItems left collation affinity nullSeen matched ifFalse items) := by
  induction items generalizing K with
  | nil => exact .done _
  | cons item rest ih =>
    obtain ⟨hitem, hrest⟩ := List.forall_mem_cons.1 h
    refine .bind hitem.temp fun r => ?_
    split
    rename_i reg free
    extract_lets more mode mode' compared
    have hmore (u : Unit) : Works L T (K.and (Facts.held (reg, free))) E (more u) := by
      refine .next (release_works fun r hr => by simp [hr]) fun _ => ih (by simp [hleft]) (fun r hr => ?_) hrest
      simp [hnull r hr]
    have hcompared (u : Unit) : Works L T (K.and (Facts.held (reg, free))) E (compared u) := by
      unfold compared
      split
      · refine .next (emitCompared_works rfl ?_ ?_ ?_ hmatched) hmore
        · simp [Instr.mode, CompareMode.ofBits_toBits, mode]
        · simp [hleft]
        · simp
      · refine .next (emitCompared_works rfl ?_ ?_ ?_ hfalse) hmore
        · simp [Instr.mode, CompareMode.ofBits_toBits, mode']
        · simp [hleft]
        · simp
    split
    · rename_i seen
      have hseen := hnull seen rfl
      split
      · refine .pass (.emit rfl (.two rfl rfl ?_ ?_ ?_)) hcompared
        · simp [hseen]
        · simp
        · simp [hseen]
      · exact hcompared ()
    · exact hcompared ()

theorem testChain_works (operand : Expr) (h : ∀ item ∈ items, item.expr.Fits T) (hleft : T.Reads K left)
    (codes : String) (hfalse : E.Offers L ifFalse) (hnull : E.Offers L ifNull) :
    Works L T K E (testChain operand items left codes ifFalse ifNull) := by
  refine .idle (.lookup _) fun found => ?_
  refine .pass .label fun matched => ?_
  have hfalse : Ends.Offers { E with labels := matched :: E.labels } L ifFalse := hfalse.imp_right (.tail _)
  have hnull : Ends.Offers { E with labels := matched :: E.labels } L ifNull := hnull.imp_right (.tail _)
  extract_lets last tested
  have htested (nullSeen : Option Int) {K : Facts} (hleft : T.Reads K left)
      (hseen : ∀ r, nullSeen = some r → .scratch r ∈ K) :
      Follows L T K { E with labels := matched :: E.labels } (tested nullSeen) (fun _ => E) fun _ => ∅ := by
    refine .next (compareItems_works hleft _ _ (fun r hr => .inr (.inr (.inl (hseen r hr)))) (.inr (.head _)) hfalse h)
      fun _ => ?_
    cases nullSeen with
    | some reg =>
      have hreg := hseen reg rfl
      refine .step (.emitJump hnull rfl (.test rfl rfl (Terms.Writes.reads (.inr (.inr (.inl hreg)))))) fun _ => ?_
      refine .next (goto_works hfalse) fun _ => .pass (.releaseTemp (.inl hreg)) fun _ => .rule (.resolve (.refl _))
    | none => exact .rule (.resolve (.refl _))
  split
  · exact htested none hleft (by simp)
  · refine .step .getTemp fun reg => .pass (.emit rfl (.two rfl rfl ?_ ?_ ?_)) fun _ => htested (some reg) ?_ ?_
    · simp [hleft]
    · simp [hleft]
    · simp
    · simp [hleft]
    · simp

theorem jumpNullFields_works (operand : Expr) (hleft : T.ReadsRow K left n) (hdest : E.Offers L dest) (i : Nat)
    (hmap : ∀ j ∈ map, j < n) : Works L T K E (jumpNullFields operand left dest i map) := by
  induction map generalizing i K with
  | nil => exact .done _
  | cons j map ih =>
    obtain ⟨hj, hrest⟩ := List.forall_mem_cons.1 hmap
    unfold jumpNullFields
    split
    · exact .step (.emitJump hdest rfl (.test rfl rfl (hleft j hj))) fun _ => ih hleft.more _ hrest
    · exact ih hleft _ hrest

theorem jumpDifferent_works (operand : Expr) (plan : Plan) (hleft : T.ReadsRow K left n) (hdest : E.Offers L dest)
    {k j : Nat} (hk : j + k ≤ n) : Works L T K E (jumpDifferent operand plan left dest k j) := by
  induction k generalizing j K with
  | zero => exact .done _
  | succ k ih =>
    refine .idle (.lookup _) fun collation => .step .getTemp fun r => ?_
    refine .pass (.emit rfl (.load rfl rfl (by simp))) fun _ => ?_
    refine .next (emitCompared_works rfl ?_ ?_ ?_ hdest) fun _ => .pass (.releaseTemp (by simp)) fun _ => ?_
    · simp only [Instr.mode, Instr.of]
      decide
    · simp [hleft j (by omega)]
    · simp
    · exact ih hleft.more (by omega)

theorem testUnknown_works (operand : Expr) (plan : Plan) (hleft : T.ReadsRow K left operand.vectorSize)
    (hfalse : E.Offers L ifFalse) (hnull : E.Offers L ifNull) :
    Works L T K E (testUnknown operand plan left ifFalse ifNull) := by
  have hall := Nat.le_of_eq (Nat.zero_add operand.vectorSize)
  refine .hereJump hfalse rfl (.none rfl rfl) fun top => ?_
  split
  · refine .pass .label fun different => ?_
    refine .next (jumpDifferent_works operand plan hleft.more (.inr (.head _)) hall) fun _ => ?_
    refine .next (goto_works (hnull.imp_right (.tail _))) fun _ => .pass (.resolve (.refl _)) fun _ => ?_
    exact .pass (.emitBack (.inl (by simp)) (.none rfl rfl)) fun _ => goto_works hfalse
  · exact .next (jumpDifferent_works operand plan hleft.more hfalse hall) fun _ => goto_works hnull

theorem testNotFound_follows (operand : Expr) {plan : Plan} (hplan : ∀ r, plan.hasNull = some r → T.Reads K r)
    (hleft : T.ReadsRow K left operand.vectorSize) (distinct : Bool) {scan : Label} (hfalse : E.Offers L ifFalse)
    (hnull : E.Offers L ifNull) :
    Follows L T K { E with labels := scan :: E.labels } (testNotFound operand plan left distinct scan ifFalse ifNull)
      (fun _ => E) fun _ => ∅ := by
  have hopen : Ends.Offers { E with labels := scan :: E.labels } L ifFalse := hfalse.imp_right (.tail _)
  unfold testNotFound
  extract_lets search nulls
  have hsearch (u : Unit) : Follows L T K { E with labels := scan :: E.labels } (search u) (fun _ => E) fun _ => ∅ :=
    .pass (.resolve (.refl _)) fun _ => testUnknown_works operand plan hleft hfalse hnull
  have hnulls (u : Unit) : Follows L T K { E with labels := scan :: E.labels } (nulls u) (fun _ => E) fun _ => ∅ := by
    unfold nulls
    split
    · exact .next (goto_works hopen) hsearch
    · exact hsearch ()
  split
  · rename_i r hr
    split
    · refine .next ?_ hnulls
      exact .imp (.rule (.emitJump hopen rfl (.test rfl rfl (hplan r hr)))) (by simp)
    · exact hnulls ()
  · exact hnulls ()

theorem permute_works {source target : Int} (hsource : T.ReadsRow K source n) (htarget : T.WritesRow K target n)
    (hi : i + map.length ≤ n) (hmap : ∀ j ∈ map, j < n) : Works L T K E (permute source target i map) := by
  induction map generalizing i with
  | nil => exact .done _
  | cons j map ih =>
    obtain ⟨hj, hrest⟩ := List.forall_mem_cons.1 hmap
    have hlt : i + (map.length + 1) ≤ n := hi
    exact .pass (.emit rfl (.copy (hsource i (by omega)) (htarget j hj))) fun _ => ih (by omega) hrest

section

variable (operand : Expr) {plan : Plan} (hplan : plan.For operand.vectorSize)
  (hhasNull : ∀ r, plan.hasNull = some r → T.Reads K r) (hleft : T.ReadsRow K left operand.vectorSize)
  (hpos : T.free ∨ 0 < operand.vectorSize) (codes : String) (hfalse : E.Offers L ifFalse) (hnull : E.Offers L ifNull)

include hplan hhasNull hleft hpos hfalse hnull

theorem testLookup_works : Works L T K E (testLookup operand plan left codes ifFalse ifNull) := by
  unfold testLookup
  extract_lets n distinct
  refine .pass .label fun scan => ?_
  have hopen : Ends.Offers { E with labels := scan :: E.labels } L ifFalse := hfalse.imp_right (.tail _)
  -- A NULL field leads to the search for unknown rows, if NULL is to be told from false.
  have hdest : Ends.Offers { E with labels := scan :: E.labels } L (if distinct then scan else ifFalse) := by
    split
    · exact .inr (.head _)
    · exact hopen
  refine .next (jumpNullFields_works operand hleft hdest 0 hplan.map_lt) fun _ => ?_
  -- Behind a look-up that finds something, its own jump is still to be given a target.
  have hrest {i : Instr} (hi : T.Allows K i) (hjumps : i.opcode.jumps) (hcompares : i.opcode.isComparison = false) :
      Follows L T K { E with labels := scan :: E.labels } (do
        let found ← emitAt i
        testNotFound operand plan left distinct scan ifFalse ifNull
        jumpHere found) (fun _ => E) fun _ => ∅ := by
    refine .step (.emitLoose hi) fun found => ?_
    refine .next (testNotFound_follows (E := { E with jumps := found :: E.jumps }) operand (fun r hr => ?_) hleft.more
      distinct hfalse hnull) fun _ =>
        .rule (.jumpHere (.inr (.inl rfl)) hjumps hcompares fun _ => List.mem_cons.1)
    simp [hhasNull r hr]
  split
  · refine .next (.imp (.rule (.emitJump hopen rfl (.test rfl rfl (hleft.head hpos)))) (by simp)) fun _ => ?_
    exact hrest (.none rfl rfl) rfl rfl
  · refine .pass (.emit rfl (.affinity hleft _)) fun _ => ?_
    split
    · exact hrest (.row rfl rfl hleft) rfl rfl
    · refine .next (.imp (.rule (.emitJump hopen rfl (.row rfl rfl hleft))) (by simp)) fun _ => ?_
      exact .rule (.resolve (.refl _))

theorem testPlanned_works (h : right.Fits T) :
    Works L T K E (testPlanned operand right plan left codes ifFalse ifNull) := by
  unfold testPlanned
  split
  · exact testChain_works operand h (hleft.head hpos) codes hfalse hnull
  · exact .throw (by simp)
  · exact testLookup_works operand hplan hhasNull hleft hpos codes hfalse hnull

end

theorem member_works (hnode : T.free ∨ T.allotment.width node = 0) (hoperand : operand.Fits T) (h : right.Fits T)
    (hfalse : E.Offers L ifFalse) (hnull : E.Offers L ifNull) :
    Works L T K E (member e node operand right ifFalse ifNull) := by
  have hpos := hoperand.expr.vectorSize_pos
  refine .bind (checkWidths_gives _ _) fun _ => .use (.inr rfl) fun hwidth => ?_
  extract_lets isEmpty n codes
  split
  · exact goto_works hfalse
  · refine .bind (planRight_gives hnode hwidth h _ _) fun plan => .use (.inr (.inl rfl)) fun hplan => ?_
    refine .bind hoperand.row fun r => ?_
    split
    rename_i left free
    extract_lets last
    have hlast {K : Facts} (hfree : ∀ r, free = some r → .scratch r ∈ K) (u : Unit) : Works L T K E (last u) :=
      release_works hfree
    split
    · refine .next (testPlanned_works _ hplan (fun r hr => ?_) (fun k hk => ?_) hpos _ hfalse hnull h)
        (hlast fun r hr => ?_)
      · simp [Plan.facts, hr]
      · simp [hk]
      · simp [hr]
    · refine .step (.getTempRange operand.expr.vectorSize) fun ordered => ?_
      refine .next (permute_works (fun k hk => ?_) (fun k hk => ?_) (by simpa using hplan.map_le) hplan.map_lt)
        fun _ => ?_
      · simp [hk]
      · simp [hk]
      · refine .next (testPlanned_works _ hplan (fun r hr => ?_) (fun k hk => ?_) hpos _ hfalse hnull h) fun _ => ?_
        · simp [Plan.facts, hr]
        · simp [hk]
        · split
          · refine .pass (.releaseTempRange fun k hk => ?_) (hlast fun r hr => ?_)
            · exact .inr ⟨k, hk, rfl⟩
            · simp [hr]
          · exact hlast (fun r hr => by simp [hr]) ()

end Gen

namespace Coded

theorem membership_fits (he : T.Covers e) {node : Identity} (hnode : T.free ∨ T.allotment.width node = 0)
    (hoperand : operand.Fits T) {right : RightSide} (h : right.Fits T) : (membership e node operand right).Fits T := by
  unfold membership
  extract_lets test code jump
  have htest {L K E ifFalse ifNull} (hfalse : E.Offers L ifFalse) (hnull : E.Offers L ifNull) :
      Works L T K E (test ifFalse ifNull) :=
    member_works hnode hoperand h hfalse hnull
  have hcode : code.Fits T := by
    refine Code.of_fits he fun hreg => .pass .label fun ifFalse => .pass .label fun ifNull => ?_
    refine .pass (.emitNull hreg) fun _ => .next (htest (.inr (.tail _ (.head _))) (.inr (.head _))) fun _ => ?_
    refine .pass (.emit rfl (.load rfl rfl hreg)) fun _ => .pass (.resolve (.swap ifFalse ifNull _)) fun _ => ?_
    refine .pass (.emit rfl (.move rfl rfl hreg.reads hreg)) fun _ => .pass (.resolve (.refl _)) fun _ => ?_
    exact .ret hreg.reads
  have hjump {L K E} (wanted : Bool) (dest : Label) (jumpIfNull : Bool) (hdest : E.Offers L dest) :
      Works L T K E (jump wanted dest jumpIfNull) := by
    have hopen (l : Label) : Ends.Offers { E with labels := l :: E.labels } L dest := hdest.imp_right (.tail _)
    unfold jump
    split
    · refine .pass .label fun ifFalse => .next (htest (.inr (.head _)) ?_) fun _ => ?_
      · split
        · exact hopen _
        · exact .inr (.head _)
      · exact .next (goto_works (hopen _)) fun _ => .rule (.resolve (.refl _))
    · split
      · exact htest hdest hdest
      · refine .pass .label fun ifNull => .next (htest (hopen _) (.inr (.head _))) fun _ => .rule (.resolve (.refl _))
  exact { ofJump_fits hcode hjump with member := htest }

end Coded

/-! ## Every expression -/

theorem forall_optionCoded {o : Option Expr} (h : ∀ e ∈ o.toList, P e.coded) : ∀ c ∈ optionCoded o, P c := by
  cases o with
  | none => rintro c ⟨⟩
  | some e =>
    rintro c ⟨⟩
    exact h e List.mem_cons_self

theorem forall_itemsCoded (h : ∀ e ∈ items.map (·.expr), P e.coded) : ∀ item ∈ itemsCoded items, P item.expr := by
  induction items with
  | nil => exact List.forall_mem_nil _
  | cons item rest ih =>
    obtain ⟨hitem, hrest⟩ := List.forall_mem_cons.1 h
    exact List.forall_mem_cons.2 ⟨hitem, ih hrest⟩

theorem forall_itemCodes {P : Code → Prop} (h : ∀ e ∈ items.map (·.expr), P e.coded.toCode) :
    ∀ item ∈ (itemsCoded items).map Item.toCode, P item.expr :=
  List.forall_mem_map.2 (forall_itemsCoded (P := fun code => P code.toCode) h)

theorem forall_armsCoded {arms : List (Expr × Expr)} (h : ∀ e ∈ arms.flatMap fun arm => [arm.1, arm.2], P e.coded) :
    ∀ arm ∈ armsCoded arms, P arm.1 ∧ P arm.2 := by
  induction arms with
  | nil => exact List.forall_mem_nil _
  | cons arm rest ih =>
    simp only [List.flatMap_cons, List.forall_mem_append, List.forall_mem_cons] at h
    obtain ⟨⟨hcondition, hresult, -⟩, hrest⟩ := h
    exact List.forall_mem_cons.2 ⟨⟨hcondition, hresult⟩, ih hrest⟩

theorem length_itemsCoded (items : List (Item Expr)) : (itemsCoded items).length = items.length := by
  rw [itemsCoded_eq_map, List.length_map]

/-- A column is computed from the constant that it is known to equal, or read. -/
theorem Gen.columnCoded_gives {ref : ColumnRef Expr} (hfixed : ∀ e ∈ ref.fixed.toList, e.coded.Fits T)
    (hown : T.free ∨ (ref.fixed.isNone → ref.cursor < 0 → T.allotment.Column T.reads ref)) (hreg : T.Writes K reg) :
    Locates L T K E (column ref ((optionCoded ref.fixed).map toCode) reg) := by
  obtain ⟨cursor, column, table, fixed⟩ := ref
  cases fixed with
  | none =>
    exact column_gives _ (by simp [optionCoded]) (fun _ hcursor => hown.imp_right fun h => h rfl hcursor) hreg
  | some e =>
    refine column_gives _ ?_ (fun heq => by cases heq) hreg
    rintro code ⟨⟩
    exact (hfixed e List.mem_cons_self).toFits

/-- The code of a node follows the rules if the code of its parts does. -/
theorem Kind.coded_fits {info : NodeInfo} (kind : Kind Expr Select) (he : T.Covers (.node info kind))
    (hparts : ∀ p ∈ kind.subexpressions, ∀ {U : Terms}, U.Covers p → p.coded.Fits U)
    (hselects : ∀ s ∈ kind.selects, ∀ arm ∈ s.coded, arm.Fits T) : (Expr.node info kind).coded.Fits T := by
  obtain ⟨hnode, hnarrow⟩ := he.node
  have hgrants (p : Expr) (hp : p ∈ kind.subexpressions) (first : Int) (n : Nat) : p.coded.Fits (T.grant first n) :=
    hparts p hp ((he.part p hp).grant first n)
  replace hparts (p : Expr) (hp : p ∈ kind.subexpressions) : p.coded.Fits T := hparts p hp (he.part p hp)
  show (Kind.coded (.node info kind) kind).Fits T
  cases kind with
  | null => exact load_fits he fun hreg => .rule (.emitNull hreg)
  | string s | boolean b | param index name =>
    exact load_fits he fun hreg => .rule (.emit rfl (.load rfl rfl hreg))
  | integer literal =>
    cases literal with
    | inline v => exact load_fits he fun hreg => .rule (.emit rfl (.load rfl rfl hreg))
    | text t => exact load_fits he fun hreg => loadInteger_works _ _ hreg
  | float t => exact load_fits he fun hreg => loadReal_works _ _ hreg
  | blob hex => exact load_fits he fun hreg => loadBlob_works _ hreg
  | ident name =>
    unfold Kind.coded
    split
    · exact load_fits he fun hreg => .rule (.emit rfl (.load rfl rfl hreg))
    · exact fail_fits he (by simp)
  | column ref => exact of_fits he fun hreg => columnCoded_gives hparts hnode hreg
  | aggColumn index ref =>
    refine of_fits he fun hreg => .withState fun c _ => ?_
    split
    · rename_i found hfound
      exact .ret (.new (.aggColumn (List.mem_of_getElem? hfound)))
    · exact columnCoded_gives hparts hnode (by simp [hreg])
  | aggCall index name args =>
    refine of_fits he fun hreg => .withState fun c _ => ?_
    split
    · rename_i found hfound
      exact .ret (.new (.aggCall (List.mem_of_getElem? hfound)))
    · exact .throw (by simp)
  | register reg source =>
    refine register_fits he ?_
    rcases hnode with hfree | hrow
    · exact .inl hfree
    · refine (he.part source List.mem_cons_self).vectorSize_pos.imp_right fun hpos => ?_
      simpa using hrow 0 hpos
  | unary op operand => exact unary_fits he op (hparts operand List.mem_cons_self)
  | binary op left right =>
    obtain ⟨hl, hr⟩ := List.forall_mem_cons.1 hparts
    exact binary_fits he op hl (hr right List.mem_cons_self)
  | collate operand name => exact collate_fits he (hparts operand List.mem_cons_self)
  | cast operand type => exact cast_fits he (hparts operand List.mem_cons_self) type
  | call name args window =>
    have hargs := (List.forall_mem_append.1 hparts).1
    refine of_fits he fun hreg =>
      call_gives he name (forall_itemCodes fun x hx => (hargs x hx).toFits) ?_ _ hreg
    rw [List.length_map, length_itemsCoded]
    exact hnarrow
  | caseOf base arms otherwise =>
    obtain ⟨hfirst, hotherwise⟩ := List.forall_mem_append.1 hparts
    obtain ⟨hbase, -⟩ := List.forall_mem_append.1 hfirst
    obtain ⟨-, harms⟩ := List.forall_mem_append.1 (List.forall_mem_append.1 hgrants).1
    refine caseOf_fits he (forall_optionCoded hbase) ?_ (forall_optionCoded hotherwise) ?_
    · have harms := forall_armsCoded (P := fun code => ∀ first n, code.Fits (T.grant first n)) harms
      exact fun arm harm first n => ⟨(harms arm harm).1 first n, (harms arm harm).2 first n⟩
    · cases base with
      | none => rintro _ ⟨⟩
      | some b =>
        rintro _ ⟨⟩
        rw [armsCoded_eq_map]
        refine List.forall_mem_map.2 fun arm harm => ?_
        simp only [Expr.coded_expr]
        exact he.clears.compared _ (List.mem_map_of_mem harm)
  | between operand low high =>
    obtain ⟨-, hbounds⟩ := List.forall_mem_cons.1 hgrants
    obtain ⟨hlow, hhigh⟩ := List.forall_mem_cons.1 hbounds
    refine between_fits he (hparts operand List.mem_cons_self) hlow (hhigh high List.mem_cons_self) ?_
    simp only [Expr.coded_expr]
    exact he.clears.compared _ List.mem_cons_self
  | inList id operand items =>
    obtain ⟨hoperand, hitems⟩ := List.forall_mem_cons.1 hparts
    exact membership_fits he hnode hoperand (forall_itemCodes fun x hx => (hitems x hx).toFits)
  | inSelect id operand select =>
    exact membership_fits he hnode (hparts operand List.mem_cons_self) (hselects select List.mem_cons_self)
  | hasRows id select => exact hasRows_fits he rfl hnode (hselects select List.mem_cons_self)
  | subquery id select => exact subquery_fits he rfl (hselects select List.mem_cons_self) hnode
  | selectColumn share source column expected =>
    have hsource := hparts source List.mem_cons_self
    refine of_fits he fun _ => sharedColumn_gives hsource expected ?_
    rw [source.coded_expr]
    exact hnode
  | vector items =>
    refine { fail_fits he (by simp) with fields := List.forall_mem_map.2 fun item hitem => ?_, fields_le := ?_ }
    · exact (forall_itemsCoded hparts item hitem).toFits
    · show ((itemsCoded items).map fun item => item.expr.toCode).length ≤ items.length
      simp [length_itemsCoded]
  | ifNullRow cursor operand => exact ifNullRow_fits he cursor (hparts operand List.mem_cons_self)
  | raise action message => exact raise_fits he action message

theorem Select.coded_fits (s : Select) (hclauses : ∀ p ∈ s.parts.clauses, p.coded.Fits T)
    (hprior : ∀ prior ∈ s.parts.prior.toList, ∀ arm ∈ prior.coded, arm.Fits T) : ∀ arm ∈ s.coded, arm.Fits T := by
  obtain ⟨id, columns, sources, filter, groupBy, having, orderBy, limit, flags, prior⟩ := s
  simp only [Select.parts, SelectParts.clauses, List.forall_mem_append] at hclauses
  obtain ⟨⟨⟨⟨⟨hcolumns, hfilter⟩, -⟩, -⟩, -⟩, -⟩ := hclauses
  have hcolumns := forall_itemCodes fun e he => (hcolumns e he).toFits
  refine List.forall_mem_append.2 ⟨?_, List.forall_mem_singleton.2 ⟨hcolumns, forall_optionCoded hfilter⟩⟩
  cases prior with
  | none => exact List.forall_mem_nil _
  | some p => exact hprior p List.mem_cons_self

def Tree.Fits (T : Terms) : Tree → Prop
  | expr e => e.coded.Fits T
  | select s => ∀ arm ∈ s.coded, arm.Fits T

theorem Tree.Covered.fits {t : Tree} (h : t.Covered T) : t.Fits T := by
  induction t using Tree.induction generalizing T with
  | step t ih =>
    cases h with
    | intro here below =>
      have hbelow (u : Tree) (hu : u ∈ t.below) : u.Fits T := ih u hu (below u hu)
      cases t with
      | expr e =>
        obtain ⟨info, kind⟩ := e
        have hparts := List.forall_mem_map.1 (List.forall_mem_append.1 ih).1
        have hselects := List.forall_mem_map.1 (List.forall_mem_append.1 hbelow).2
        exact Kind.coded_fits kind (.intro here below) hparts hselects
      | select s =>
        obtain ⟨hclauses, hprior⟩ := List.forall_mem_append.1 hbelow
        have hclauses := List.forall_mem_map.1 hclauses
        have hprior := List.forall_mem_map.1 hprior
        exact Select.coded_fits s hclauses hprior

/-- The code of an expression follows the rules on terms on which its nodes can be coded. -/
theorem Expr.coded_fits (h : T.Covers e) : e.coded.Fits T := Tree.Covered.fits h

/-- Every expression can be coded where registers are of no concern. -/
theorem Expr.covers_lax (e : Expr) : Terms.lax.Covers e := by
  have hcovered (t : Tree) : t.Covered .lax := by
    induction t using Tree.induction with
    | step t ih => exact .intro (fun _ _ => ⟨⟨.inl trivial, False.elim⟩, .of_unlimited rfl⟩) ih
  exact hcovered _

theorem Expr.coded_fits_lax (e : Expr) : e.coded.Fits .lax := coded_fits e.covers_lax

end ScalarSql
