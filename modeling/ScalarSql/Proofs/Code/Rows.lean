import ScalarSql.Proofs.Code.Operands

/-!
# Row values

A row value is compared field by field, and the first fields that differ decide. Its fields are computed
one at a time; those of a row value that was computed before stand in registers in a row.
-/

namespace ScalarSql

open Compiler ScalarSql.Expr Gen Instr Meaning

variable {σ : Scope} {K : Known} {code left right : Coded} {μ ν : Meaning} {e : Expr} {reg : Int}
  {values : List Value}

/-! ## Fields -/

theorem Coded.Realizes.computes (h : code.Realizes σ K μ) : code.Computes σ K μ where
  alike := h.alike
  temp := h.value.temp
  split hv := by
    obtain ⟨info, items, he, -⟩ := h.vector hv
    rw [he, fieldIdentities, identities, itemsIdentities_eq_flatMap]
    rfl
  base hv := by
    obtain ⟨info, items, he, -⟩ := h.vector hv
    rw [rowBase, he]
    rfl
  field hv i hi := by
    obtain ⟨info, items, he, hfields⟩ := h.vector hv
    have hsize : 1 < items.length := by simpa [isVector, he, vectorSize] using hv
    have hlt : i < items.length := by simpa [he, vectorSize] using hi
    have hlen : code.fields.length = items.length := by simpa using congrArg List.length hfields
    obtain ⟨f, hf⟩ : ∃ f, code.fields[i]? = some f := ⟨_, List.getElem?_eq_getElem (by omega)⟩
    have hitem : items[i]? = some items[i] := List.getElem?_eq_getElem hlt
    have hexpr : f.expr = items[i].expr := by
      have hget := congrArg (fun es => es[i]?) hfields
      simpa [List.getElem?_map, hf, hitem] using hget
    obtain ⟨d, hd, hreal⟩ : ∃ d, μ.fields[i]? = some d ∧ f.Realizes σ K d := by
      have hrel := List.Forall₂.get h.fields (i := i) (by omega) (by rw [← h.fields.length_eq]; omega)
      refine ⟨_, List.getElem?_eq_getElem (by rw [← h.fields.length_eq]; omega), ?_⟩
      rw [List.getElem?_eq_some_iff] at hf
      obtain ⟨_, rfl⟩ := hf
      exact hrel
    have hfield : rowField code i 0 = do
        let p ← f.temp
        return (p.1, f.expr, p.2) := by
      rw [rowField, he, hf]
      rfl
    intro c c' r y free hmakes hc hids
    rw [hfield] at hmakes
    simp only [makes_bind, makes_pure, Prod.mk.injEq] at hmakes
    obtain ⟨p, _, htemp, ⟨rfl, rfl, rfl⟩, rfl⟩ := hmakes
    have hids' : (code.expr.fieldIdentities[i]?).getD [] = f.expr.identities := by
      rw [he, hexpr]
      simp [fieldIdentities, hitem]
    have hd' : μ.field i = d := by
      funext env
      rw [field, hd]
      rfl
    rw [hids'] at hids ⊢
    rw [hd']
    obtain ⟨s, hp, hrun⟩ := hreal.temp htemp hc hids
    refine ⟨s, hp, ?_, hrun⟩
    have halike := h.alike.field i
    rw [he, vectorField, if_pos hsize, hitem] at halike
    rw [hexpr]
    exact halike

section

variable {ids : List Identity} {v : Value} {target : Int → Gen Int}

/-- The step finds the value in the register and writes no code. -/
def Gen.Finding (reg : Int) (target : Int → Gen Int) : Prop :=
  ∀ ⦃c temp r c'⦄, (target temp).Makes c r c' → r = reg ∧ c' = c

theorem Gen.Finding.checked (h : Finding reg target) : Finding reg (fun temp => do checkHeight e; target temp) := by
  intro c temp r c' hmakes
  simp only [makes_bind] at hmakes
  obtain ⟨_, _, hcheck, hmakes⟩ := hmakes
  cases makes_checkHeight hcheck
  exact h hmakes

theorem Gen.Finding.register : Finding reg (Code.of e fun _ => return reg).target := by
  have hfound : Finding reg fun _ => return reg := by
    intro c temp r c' hmakes
    obtain ⟨rfl, rfl⟩ := makes_pure.1 hmakes
    exact ⟨rfl, rfl⟩
  exact hfound.checked

theorem Temps.finding (hstays : (!isRegister e && e.isConstant .notJoin) = false) (h : Finding reg target)
    (hv : (reg, v) ∈ K) : Temps σ K ids (tempOf e target) fun _ => some v := by
  intro c c' p hmakes hc hids
  simp only [tempOf, makes_bind, makes_hoists] at hmakes
  obtain ⟨_, _, ⟨rfl, rfl⟩, hmakes⟩ := hmakes
  rw [Bool.and_left_comm, hstays, Bool.and_false] at hmakes
  simp only [Bool.false_eq_true, if_false, makes_bind] at hmakes
  obtain ⟨temp, c1, htemp, x, c2, htarget, hmakes⟩ := hmakes
  obtain ⟨rfl, rfl⟩ := h htarget
  obtain ⟨s1, htaken⟩ := getTemp_spec htemp hc
  have hsize : c2.size = c.size := by rw [size, getTemp_builder htemp, size]
  split at hmakes
  · rename_i heq
    obtain ⟨rfl, rfl⟩ := makes_pure.1 hmakes
    refine ⟨s1.mono (by simp), .inl ⟨heq ▸ htaken, by rw [heq]⟩, fun w m ready => ?_⟩
    -- a register that is held is not free
    exact absurd (heq ▸ htaken.free) (ready.held _ hv).1
  · simp only [makes_bind, makes_pure] at hmakes
    obtain ⟨⟨⟩, c3, hrelease, rfl, rfl⟩ := hmakes
    refine ⟨(releaseTemp_step s1 htaken hrelease).mono (by simp), .inr ⟨rfl, .inr ⟨v, hv⟩⟩, fun w m ready => ?_⟩
    refine .done ?_ rfl rfl (ready.held _ hv).2.2
    rw [size, releaseTemp_builder hrelease]
    exact hsize

end

section

variable {base : Int} (halike : code.expr.Alike e) (hlen : values.length = code.expr.vectorSize)

include halike hlen

theorem Coded.fieldsFrom_held (hK : ∀ (i : Nat) v, values[i]? = some v → (reg + i, v) ∈ K)
    (hfield : ∀ i, Gen.rowField code i base = pure (reg + i, code.expr.vectorField i, none)) :
    code.FieldsFrom σ K (Meaning.held e values) base := by
  intro i hi
  have hlt : i < values.length := by
    rw [hlen]
    exact hi
  have hv := hK i values[i] (List.getElem?_eq_getElem hlt)
  have hvalue : (Meaning.held e values).field i = fun _ => some values[i] := by
    funext env
    simp [Meaning.field, Meaning.held, List.getElem?_eq_getElem hlt]
  intro c c' r y free hmakes hc hids
  rw [hfield] at hmakes
  obtain ⟨hp, rfl⟩ := makes_pure.1 hmakes
  cases hp
  rw [hvalue]
  exact ⟨(Step.refl hc).mono (by simp), .inr ⟨rfl, .inr ⟨_, hv⟩⟩, halike.field i,
    fun w m ready => .done rfl rfl rfl (ready.held _ hv).2.2⟩

theorem Coded.computes_held (hpos : values ≠ []) (hK : ∀ (i : Nat) v, values[i]? = some v → (reg + i, v) ∈ K) :
    (code.held reg).Computes σ K (Meaning.held e values) := by
  have hself : (code.held reg).expr.Alike e := (Expr.alike_register reg code.expr).trans halike
  refine ⟨hself, ?_, fun _ => rfl, fun _ => rfl, fun _ => fieldsFrom_held hself hlen hK fun _ => rfl⟩
  obtain ⟨v, rest, rfl⟩ := List.exists_cons_of_ne_nil hpos
  have hv := hK 0 v rfl
  rw [Int.natCast_zero, Int.add_zero] at hv
  exact .finding rfl .register hv

end

/-! ## Whole rows -/

/-- What is in the register stays there behind the code, and no code can change it by writing its own
target. -/
def World.Stays (w : World σ) (K : Known) (c c' : Compiler) (r : Int) : Prop :=
  ¬ c'.Free r ∧ ¬ w.lent r ∧ ∀ t, ¬ c.Free t → w.Avoids K t → r ≠ t

/-- The step computes values into registers in a row, which stay taken behind it. -/
def Rows (σ : Scope) (K : Known) (ids : List Identity) (g : Gen (Int × Option Int))
    (d : Env → Option (List Value)) : Prop :=
  ∀ ⦃c c' p⦄, g.Makes c p c' → c.Good σ → Unused ids c → Step σ ids c c' ∧ Lends c c' p.2 ∧ ∀ w : World σ,
      Runs w K nowhere c c' d (fun _ => none) (Filled p.1) ∧
        ∀ c2 m values, Ready w K c c2 m → Extends (fun _ => True) (fun _ => True) c' c2 →
          d w.env = some values → ∀ i : Nat, i < values.length → w.Stays K c c' (p.1 + i)

/-- The values of an expression can be computed into registers in a row. -/
theorem Coded.Realizes.row (h : code.Realizes σ K μ) : Rows σ K code.expr.identities code.row μ.row := by
  intro c c' p hmakes hc hids
  unfold Coded.row at hmakes
  unfold Meaning.row
  rw [← h.alike.size]
  by_cases hone : code.expr.vectorSize = 1
  · rw [if_pos hone] at hmakes
    simp only [if_pos hone]
    obtain ⟨s, hp, hrun⟩ := h.value.temp hmakes hc hids
    refine ⟨s, hp.lends, fun w => ⟨fun m ready => ?_, fun c2 m values ready e hvalues i hi => ?_⟩⟩
    · refine (hrun w m ready).map (f := ([·])) rfl (fun _ => rfl) fun v m1 hv => ?_
      exact .cons hv fun i u hu => by simp at hu
    · obtain ⟨v, -, rfl⟩ := Option.map_eq_some_iff.1 hvalues
      obtain rfl : i = 0 := by simpa using hi
      rw [Int.natCast_zero, Int.add_zero]
      obtain ⟨hfree, hlent⟩ := ready.steady s e hp
      exact ⟨hfree, hlent, fun t ht havoid => ready.apart e hp ht havoid⟩
  · have hv : code.expr.isVector := by
      have := h.nonempty
      simp only [isVector, decide_eq_true_eq]
      omega
    obtain ⟨info, items, he, hfields⟩ := h.vector hv
    have hsize : code.expr.vectorSize = μ.fields.length := by
      rw [← h.fields.length_eq, he, vectorSize]
      simpa using (congrArg List.length hfields).symm
    have hids' : code.expr.identities = code.fields.flatMap (·.expr.identities) := by
      rw [he, identities, itemsIdentities_eq_flatMap, ← List.flatMap_map, ← hfields, List.flatMap_map]
    rw [if_neg hone] at hmakes
    simp only [if_neg hone]
    have hkind : code.expr.kind = .vector items := by
      rw [he]
      rfl
    rw [hkind] at hmakes
    simp only [makes_bind, makes_pure] at hmakes
    obtain ⟨first, c1, halloc, ⟨⟩, c2, hfill, rfl, rfl⟩ := hmakes
    rw [hids'] at hids ⊢
    rw [hsize] at halloc
    obtain ⟨s, htaken, hrun⟩ := (FillsRow.factorFields h.fields (P := True) trivial).alloc halloc hfill hc hids
    refine ⟨s, by rintro r ⟨⟩, fun w => ⟨hrun w, fun c2 m values ready e hvalues i hi => ?_⟩⟩
    have hlen := length_of_mapM hvalues
    have hrow : InRow first μ.fields.length (first + i) := ⟨by omega, by omega⟩
    exact ⟨(htaken _ hrow).2, fun hl => (ready.lent _ hl).1 (htaken _ hrow).1,
      fun t ht _ he => ht (he ▸ (htaken _ hrow).1)⟩

/-! ## Comparisons -/

/-- The mode in which all fields of row values are compared, but for the first one. -/
def Meaning.rowMode (op : BinaryOp) : CompareMode :=
  { store := true, nullEq := op.comparesNull, keepNull := strict op == .eq || strict op == .ne }

/-- The jump behind a comparison of fields that are not the last ones. -/
def Gen.jumpDecided (strict : Opcode) (reg : Int) (done : Label) : Gen Unit :=
  match strict with
  | .eq => emitJump (.of .ifFalse reg) done
  | .ne => emitJump (.of .ifTrue reg) done
  | _ => emitJump (.of .elseNotEq) done

theorem Gen.jumpDecided_spec {strict : Opcode} {done : Label} {c c' : Compiler}
    (h : (jumpDecided strict reg done).Makes c () c') (hc : c.Good σ) (hl : c.Made done) :
    Step σ [] c c' ∧ ∀ (w : World σ) m order, Ready w K c c' m → m.lastCompare = order.getD .lt →
      RunsFrom w nowhere c c' (fun _ => some (decides strict order (m.register reg)))
        (fun t => if t then some done else none) (fun _ m' => m' = m) m := by
  obtain ⟨ins, hne, hmakes, hstep⟩ : ∃ ins : Instr, ins.opcode ≠ .copy ∧
      (emitJump ins done).Makes c () c' ∧ ∀ p2 a m order, m.lastCompare = order.getD .lt →
        (({ ins with p2 } : Instr).step a).outcome m = (.ok (.jumpIf (decides strict order (m.register reg))), m) := by
    unfold jumpDecided at h
    split at h
    · refine ⟨_, by simp, h, fun p2 a m order _ => ?_⟩
      rw [step_ifFalse rfl]
      simp only [branches, of, decides]
      cases (m.register reg).truth <;> rfl
    · refine ⟨_, by simp, h, fun p2 a m order _ => ?_⟩
      rw [step_ifTrue rfl]
      simp only [branches, of, decides]
      cases (m.register reg).truth <;> rfl
    · rename_i heq hne
      refine ⟨_, by simp, h, fun p2 a m order horder => ?_⟩
      rw [step_elseNotEq rfl, horder]
      simp only [decides]
  obtain ⟨s, e⟩ := emitJump_spec hmakes hc hne hl
  refine ⟨s, fun w m order ready horder => ?_⟩
  exact ready.emitBranch e hne (hstep _ _ m order horder) rfl rfl rfl rfl (.refl w _ _ _ m)

theorem flatten_drop {α : Type} (L : List (List α)) (i : Nat) :
    (L.drop i).flatten = (L[i]?).getD [] ++ (L.drop (i + 1)).flatten := by
  rcases Nat.lt_or_ge i L.length with hlt | hge
  · rw [List.drop_eq_getElem_cons hlt, List.flatten_cons, List.getElem?_eq_getElem hlt]
    rfl
  · rw [List.drop_eq_nil_of_le hge, List.drop_eq_nil_of_le (by omega), List.getElem?_eq_none hge]
    rfl

theorem strict_comparing {op : BinaryOp} (h : op.isComparison) (last : Prop) [Decidable last] :
    (if last then op.opcode else strict op) ∈ comparing := by
  split
  · exact opcode_comparing h
  · cases op <;> first
      | exact absurd h (by decide)
      | decide

theorem Gen.storeFields_succ (op strict : Opcode) (mode : CompareMode) (left right : Coded)
    (leftBase rightBase reg : Int) (done : Label) (n i : Nat) :
    storeFields op strict mode left right leftBase rightBase reg done (n + 1) i = (do
      let p ← rowField left i leftBase
      let q ← rowField right i rightBase
      let ins ← comparison p.2.1 q.2.1 (if n = 0 then op else strict) p.1 q.1
        { mode with keepNull := mode.keepNull && i != 0 } reg
      emit ins
      release p.2.2
      release q.2.2
      if n = 0 then pure ()
      else
        jumpDecided strict reg done
        storeFields op strict mode left right leftBase rightBase reg done n (i + 1)) := by
  rw [storeFields]
  simp only [jumpDecided]
  by_cases hn : n = 0
  · simp [hn]
  · cases strict <;> simp [hn]

/-- The identities below the fields of two row values from field `i` on. -/
def fieldIds (left right : Expr) (i : Nat) : List Identity :=
  (left.fieldIdentities.drop i).flatten ++ (right.fieldIdentities.drop i).flatten

/-- The identities below field `i` come apart from the later ones. -/
theorem fieldIds_perm (left right : Expr) (i : Nat) :
    (fieldIds left right i).Perm ((left.fieldIdentities[i]?).getD [] ++
      (right.fieldIdentities[i]?).getD [] ++ fieldIds left right (i + 1)) := by
  unfold fieldIds
  rw [flatten_drop, flatten_drop right.fieldIdentities]
  simp only [List.append_assoc]
  exact (List.perm_append_comm_assoc _ _ _).append_left _

section

variable {op : BinaryOp} {reg leftBase rightBase : Int} {done : Label} {c c' : Compiler} {n : Nat}

/-- The fields from `i` on, `n` of them, are compared and the outcome is stored in a register, where
`before` is the outcome so far; the label stands behind the code. -/
def StoresFields (σ : Scope) (K : Known) (op : BinaryOp) (left right : Coded)
    (leftBase rightBase : Int) (μ ν : Meaning) (reg : Int) (done : Label) (n i : Nat) : Prop :=
  ∀ ⦃c c'⦄, (storeFields op.opcode (strict op) (rowMode op) left right leftBase rightBase reg
      done n i).Makes c () c' → c.Good σ → c.Open reg → c.Made done →
    Unused (fieldIds left.expr right.expr i) c →
    Step σ (fieldIds left.expr right.expr i) c c' ∧ ∀ (w : World σ) before, w.Avoids K reg →
      (w.addr done.index).toNat = c'.size →
      Runs w ((reg, before) :: K) (· = reg) c c' (fun env => compareFields op μ ν env n i before) (fun _ => none)
        fun v m => m.register reg = v

/-- What follows the comparison of a field: unless it is the last one or decides, the other fields are
compared. -/
theorem StoresFields.rest {i : Nat} (ih : StoresFields σ K op left right leftBase rightBase μ ν reg done n (i + 1))
    (h : (if n = 0 then pure () else do
        jumpDecided (strict op) reg done
        storeFields op.opcode (strict op) (rowMode op) left right leftBase rightBase reg done n
          (i + 1)).Makes c () c') (hc : c.Good σ) (hreg : c.Open reg) (hdone : c.Made done)
    (hids : Unused (fieldIds left.expr right.expr (i + 1)) c) :
    Step σ (fieldIds left.expr right.expr (i + 1)) c c' ∧ ∀ (w : World σ) m order,
      w.Avoids K reg → (w.addr done.index).toNat = c'.size → m.lastCompare = order.getD .lt →
      Ready w K c c' m →
      RunsFrom w (· = reg) c c' (fun env => if n = 0 || decides (strict op) order (m.register reg) then
            some (m.register reg)
          else compareFields op μ ν env n (i + 1) (m.register reg)) (fun _ => none)
        (fun v m => m.register reg = v) m := by
  by_cases hn : n = 0
  · rw [if_pos hn] at h
    obtain ⟨-, rfl⟩ := makes_pure.1 h
    exact ⟨(Step.refl hc).mono (by simp), fun w m order _ _ _ ready => .done rfl (by simp [hn]) rfl rfl⟩
  · simp only [if_neg hn, makes_bind] at h
    obtain ⟨⟨⟩, c1, hjump, hfields⟩ := h
    obtain ⟨s1, hrun1⟩ := jumpDecided_spec (K := K) hjump hc hdone
    obtain ⟨s2, hrun2⟩ := ih hfields s1.good (hreg.step s1) (s1.made hdone) (hids.step s1)
    refine ⟨(s1.trans s2).mono (by simp), fun w m order havoid hplace hlast ready => ?_⟩
    refine ready.bindBranch s1 s2.continues (fun ready => hrun1 w m order ready hlast) (fun _ hf => hf.elim) (by simp)
      ?_ ?_
    · rintro m1 ht rfl
      simp only [Option.some.injEq] at ht
      exact ⟨m1.register reg, by simp [ht], hplace, rfl⟩
    · rintro m1 ht rfl ready1
      simp only [Option.some.injEq] at ht
      refine (hrun2 w _ havoid hplace m1 (ready1.hold (s1.not_free hreg.taken) havoid.lent)).congr ?_
      simp [hn, ht]

theorem storesFields (hop : op.isComparison) (hl : left.FieldsFrom σ K μ leftBase)
    (hr : right.FieldsFrom σ K ν rightBase) (n i : Nat) (hnl : i + n ≤ left.expr.vectorSize)
    (hnr : i + n ≤ right.expr.vectorSize) : StoresFields σ K op left right leftBase rightBase μ ν reg done n i := by
  induction n generalizing i with
  | zero =>
    intro c c' h hc hreg hdone hids
    obtain ⟨-, rfl⟩ := makes_pure.1 (show (pure () : Gen Unit).Makes c () c' from h)
    refine ⟨(Step.refl hc).mono (by simp), fun w before _ _ m ready => ?_⟩
    exact .done rfl rfl rfl (ready.held _ List.mem_cons_self).2.2
  | succ n ih =>
    intro c c' h hc hreg hdone hids
    rw [storeFields_succ] at h
    simp only [makes_bind] at h
    obtain ⟨⟨r1, x1, free1⟩, c1, hleft, ⟨r2, x2, free2⟩, c2, hright, ins, c3, hins, ⟨⟩, c4, hemit,
      ⟨⟩, c5, hr1, ⟨⟩, c6, hr2, hrest⟩ := h
    have hids' := hids.perm (fieldIds_perm left.expr right.expr i)
    obtain ⟨s1, hp1, halike1, hrun1⟩ := hl i (by omega) hleft hc hids'.left.left
    obtain ⟨s2, hp2, halike2, hrun2⟩ := hr i (by omega) hright s1.good (hids'.left.right s1)
    obtain ⟨s6, hrun6⟩ := compareStored s1 hp1 hrun1 s2 hp2 hrun2 halike1 halike2
      (strict_comparing hop (n = 0)) rfl hreg.pos hins hemit hr1 hr2
    obtain ⟨s7, hrun7⟩ := (ih (i + 1) (by omega) (by omega)).rest hrest s6.good (hreg.step s6)
      (s6.made hdone) (hids'.right s6)
    refine ⟨(s6.trans s7).mono fun j hj => (fieldIds_perm left.expr right.expr i).mem_iff.2 hj,
      fun w before havoid hplace m ready => ?_⟩
    have hfirst := hrun6 w before m (ready.first s6 s7.grows s7.continues.guarded)
    refine (ready.forget fun _ => List.mem_cons_of_mem _).bind s6 s7.continues (fun _ => hfirst) havoid.only ?_
      (fun _ _ _ _ hg => by cases hg) ?_
    · intro hnone
      simp only [compareFields]
      cases ha : μ.field i w.env <;> cases hb : ν.field i w.env <;> simp_all
    · intro order m1 horder _ hholds ready1
      refine (hrun7 w m1 order havoid hplace hholds.2 ready1).congr ?_
      simp only [compareFields]
      cases ha : μ.field i w.env <;> cases hb : ν.field i w.env <;> simp_all [rowMode]

/-- The outcome does not depend on what was in the register before. -/
theorem Meaning.compareFields_zero (op : BinaryOp) (μ ν : Meaning) (env : Env) (hn : n ≠ 0) (before : Value) :
    compareFields op μ ν env n 0 before = compareFields op μ ν env n 0 .null := by
  obtain ⟨n, rfl⟩ := Nat.exists_eq_succ_of_ne_zero hn
  have hstored (opcode : Opcode) (order : Option Ordering) :
      opcode.stored false order before = opcode.stored false order .null := by
    cases order <;> rfl
  simp only [compareFields, bne_self_eq_false, Bool.and_false, hstored]

theorem Loads.rows (hop : op.isComparison) (hl : left.Computes σ K μ)
    (hr : right.Computes σ K ν) (hv : (left.expr.isVector || right.expr.isVector)) :
    Loads σ K (left.expr.identities ++ right.expr.identities) (storeRows op left right)
      fun env => compareFields op μ ν env μ.expr.vectorSize 0 .null := by
  intro c c' reg hmakes hc hreg hids
  by_cases hsize : left.expr.vectorSize = right.expr.vectorSize
  · have hvl : left.expr.isVector := by
      simpa [isVector, hsize] using hv
    have hvr : right.expr.isVector := by
      simpa [isVector, hsize] using hv
    have hzero : left.expr.vectorSize ≠ 0 := by
      simp only [isVector, decide_eq_true_eq] at hvl
      omega
    have hsplit : left.expr.identities ++ right.expr.identities = fieldIds left.expr right.expr 0 := by
      rw [hl.split hvl, hr.split hvr]
      rfl
    simp only [storeRows, hl.base hvl, hr.base hvr, ne_eq, hsize, not_true_eq_false, if_false,
      pure_bind, makes_bind] at hmakes
    obtain ⟨done, c1, hlabel, ⟨⟩, c2, hfields, hresolve⟩ := hmakes
    obtain ⟨s1, hnew⟩ := label_spec hlabel hc
    rw [hsplit] at hids ⊢
    rw [← hsize] at hfields
    obtain ⟨s2, hrun⟩ := storesFields hop (hl.field hvl) (hr.field hvr) left.expr.vectorSize 0 (by omega) (by omega)
      hfields s1.good (hreg.step s1) hnew.made (hids.step s1)
    obtain ⟨s3, hcontinues, hsize3, hplace⟩ := hnew.resolve hresolve s1 s2
    refine ⟨s3, fun w havoid m ready => ?_⟩
    refine ready.silent s1 (s2.continues.trans hcontinues).grows hnew.size fun ready1 => ?_
    have hopen := hreg.step s1
    have ready2 := ready1.hold hopen.taken havoid.lent
    refine (ready2.before s2 hcontinues.grows hcontinues.guarded hsize3 (hrun w _ havoid
      ((hplace _ ready.settled).trans hsize3))).congr ?_
    rw [← hl.alike.size, compareFields_zero op μ ν w.env hzero (m.register reg)]
  · simp [storeRows, hsize] at hmakes

end

end ScalarSql
