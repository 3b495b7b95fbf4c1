import ScalarSql.Proofs.Code.Membership

/-!
# The code of plain expressions

The code of every plain expression realizes its meaning: the value that its code leaves in a register,
and the branches that it takes, are those of `Expr.meaning`.
-/

namespace ScalarSql

open Coded Compiler ScalarSql.Expr

variable {σ : Scope} {K : Known} {e : Expr}

/-- A plain node that is no row value stands for its own meaning. -/
theorem Expr.Plain.stands {ids : List Identity} (h : e.Plain σ) (hsingle : e.vectorSize = 1)
    (hreg : Gen.isRegister e = false) (hids : e.identities = ids) : e.Stands σ e ids e.meaning.value :=
  ⟨.refl e, ⟨rfl, rfl⟩, hsingle, hreg, hids, fun _ => ⟨h, rfl⟩⟩

theorem Arguments.ofItems {items : List (Item Expr)} (h : ∀ x ∈ items.map (·.expr), x.coded.Realizes σ K x.meaning) :
    Arguments σ K ((itemsCoded items).map Item.toCode) (itemsMeaning items) := by
  rw [itemsCoded_eq_map, itemsMeaning_eq_map, List.map_map]
  refine List.forall₂_map_left_iff.2 (List.forall₂_map_right_iff.2 (List.forall₂_same.2 fun item hitem => ?_))
  refine ⟨(h item.expr (List.mem_map_of_mem hitem)).value, ?_⟩
  show item.expr.coded.expr = item.expr.meaning.expr
  rw [coded_expr, meaning_expr]

theorem flatMap_identities_items (items : List (Item Expr)) :
    itemIds ((itemsCoded items).map Item.toCode) = itemsIdentities items := by
  rw [itemIds, itemsCoded_eq_map, itemsIdentities_eq_flatMap, List.map_map, List.flatMap_map]
  refine List.flatMap_congr fun item _ => ?_
  show item.expr.coded.expr.identities = item.expr.identities
  rw [coded_expr]

theorem optionIdentities_eq_elim (o : Option Expr) :
    optionIdentities o = (optionCoded o).elim [] (·.expr.identities) := by
  cases o with
  | none => rfl
  | some x =>
    show x.identities = x.coded.expr.identities
    rw [x.coded_expr]

theorem armsIdentities_eq_armIds (arms : List (Expr × Expr)) : armsIdentities arms = armIds (armsCoded arms) := by
  induction arms with
  | nil => rfl
  | cons arm rest ih =>
    obtain ⟨condition, result⟩ := arm
    rw [armsIdentities, ih, armsCoded, armIds, armIds, List.flatMap_cons]
    rw [condition.coded_expr, result.coded_expr]

section

variable {info : NodeInfo} {items : List (Item Expr)} {name : String}

/-- A row value has no value of its own, but its fields have. -/
theorem Coded.realizes_vector (h : (node info (.vector items)).Plain σ)
    (hitems : ∀ x ∈ items.map (·.expr), x.coded.Realizes σ K x.meaning) :
    (node info (.vector items)).coded.Realizes σ K (node info (.vector items)).meaning := by
  have hvalue : (node info (.vector items)).coded.toCode.Realizes σ K fun _ => none := by
    have htarget : Targets σ K (node info (.vector items)).identities
        (node info (.vector items)).coded.target fun _ => none :=
      Targets.checked fun _ _ _ _ hmakes => (Gen.makes_throw.1 hmakes).elim
    exact ⟨fun _ => ⟨h, rfl⟩, htarget, .of_targets rfl (fun _ => ⟨h, rfl⟩) htarget⟩
  have hjump (wanted jumpIfNull : Bool) := Jumps.onTruth
    (⟨rfl, rfl⟩ : (node info (.vector items)).SameLiteral (.node info (.vector items)))
    hvalue.temp wanted jumpIfNull
  refine
    { alike := .refl _
      literal := ⟨rfl, rfl⟩
      value := hvalue
      nonempty := fun hzero => h.here.scalar.2 (List.length_eq_zero_iff.1 hzero)
      vector := fun _ => ⟨info, items, rfl, ?_⟩
      fields := ?_
      jump := hjump
      branch := fun wanted jumpIfNull => (hjump wanted jumpIfNull).checked }
  · show ((itemsCoded items).map fun item => item.expr.toCode).map (·.expr) = _
    rw [itemsCoded_eq_map, List.map_map, List.map_map]
    exact List.map_congr_left fun item _ => item.expr.coded_expr
  · show List.Forall₂ _ ((itemsCoded items).map fun item => item.expr.toCode) ((itemsMeaning items).map (·.value))
    rw [itemsCoded_eq_map, itemsMeaning_eq_map, List.map_map, List.map_map]
    refine List.forall₂_map_left_iff.2 (List.forall₂_map_right_iff.2 (List.forall₂_same.2 fun item hitem => ?_))
    exact (hitems item.expr (List.mem_map_of_mem hitem)).value

/-- The code of a name that is TRUE or FALSE; any other name is refused. -/
theorem Coded.realizes_ident (h : (node info (.ident name)).Plain σ) :
    (node info (.ident name)).coded.Realizes σ K (node info (.ident name)).meaning := by
  have hstands := h.stands rfl rfl rfl
  have hmeaning : (node info (.ident name)).meaning = .ofValue (.node info (.ident name)) fun _ =>
      (node info (.ident name)).truthName?.map .ofBool := rfl
  rw [hmeaning] at hstands ⊢
  cases htruth : (node info (.ident name)).truthName? with
  | some b =>
    have hcoded : (node info (.ident name)).coded = .load (.node info (.ident name)) fun reg =>
        Gen.emit (.of .integer (if b then 1 else 0) reg) := by
      rw [coded, Kind.coded, htruth]
    rw [htruth] at hstands
    rw [hcoded]
    exact realizes_load hstands (.boolean b)
  | none =>
    have hcoded : (node info (.ident name)).coded = .fail (.node info (.ident name)) (.unresolvedIdentifier name) := by
      rw [coded, Kind.coded, htruth]
    rw [htruth] at hstands
    rw [hcoded]
    exact realizes_of hstands fun _ _ _ _ hmakes => (Gen.makes_throw.1 hmakes).elim

theorem Coded.realizes_column {cursor column : Int} {table : Option Table} {fixed : Option Expr}
    (h : (node info (.column ⟨cursor, column, table, fixed⟩)).Plain σ)
    (hfixed : ∀ x ∈ fixed.toList, x.coded.Realizes σ K x.meaning) :
    (node info (.column ⟨cursor, column, table, fixed⟩)).coded.Realizes σ K
      (node info (.column ⟨cursor, column, table, fixed⟩)).meaning := by
  cases fixed with
  | none => exact realizes_of (h.stands rfl rfl rfl) (Targets.column (h.here.scalar.2 rfl))
  | some f =>
    have hids : (node info (.column ⟨cursor, column, table, some f⟩)).identities = f.coded.expr.identities := by
      rw [f.coded_expr]
      rfl
    exact realizes_of (h.stands rfl rfl hids) (Targets.fixedColumn (hfixed f (by simp)).value)

theorem Coded.realizes_call {args : List (Item Expr)} {window : Option (Window Expr)}
    (h : (node info (.call name args window)).Plain σ)
    (hargs : ∀ x ∈ args.map (·.expr), x.coded.Realizes σ K x.meaning) :
    (node info (.call name args window)).coded.Realizes σ K (node info (.call name args window)).meaning := by
  obtain ⟨hwindow, hlen, hfound, -⟩ := h.here.scalar.2
  cases Option.isNone_iff_eq_none.1 hwindow
  have harguments := Arguments.ofItems hargs
  have hids : (node info (.call name args none)).identities =
      itemIds ((itemsCoded args).map Item.toCode) :=
    (flatMap_identities_items args).symm
  have hlength : ((itemsCoded args).map Item.toCode).length = args.length := by
    rw [itemsCoded_eq_map, List.length_map, List.length_map]
  have hlands (hmerged : σ.Unmerged) : ∀ item ∈ (itemsCoded args).map Item.toCode, item.expr.Lands σ := by
    rcases hmerged with hfree | hdirect
    · exact absurd rfl (hfree _ h.here.part name args none)
    · simp only [itemsCoded_eq_map, List.map_map, List.forall_mem_map]
      intro item hitem hconst c c' reg r hmakes hc
      have hplain : item.expr.Plain σ := h.children _ (List.mem_map_of_mem hitem)
      exact hplain.target_eq hdirect (item.expr.coded_expr ▸ hconst) hmakes hc
  refine realizes_of (h.stands rfl rfl rfl) (Targets.call hlands (fun _ => ⟨h, rfl⟩) hids ?_ ?_ harguments)
  · rw [hlength]
    exact hlen
  · rw [hlength]
    exact fun f hf => (hfound f hf).1

theorem Coded.realizes_inList {id : Identity} {operand : Expr}
    (h : (node info (.inList id operand items)).Plain σ) (hoperand : operand.coded.Realizes σ [] operand.meaning)
    (hitems : ∀ x ∈ items.map (·.expr), x.coded.Realizes σ K x.meaning) :
    (node info (.inList id operand items)).coded.Realizes σ K (node info (.inList id operand items)).meaning := by
  have hsettles : operand.coded.Settles σ operand.meaning.value := by
    intro c c' p hmakes hc hnone env hfunctions v hv
    have hplain : operand.Plain σ := h.children operand (by simp)
    rcases hplain.settles_or_computesAnew with hsettles | hanew
    · rw [operand.coded_expr]
      exact hsettles env hfunctions v hv
    · exact absurd hnone (hanew.temp hmakes hc)
  have hids : (node info (.inList id operand items)).identities = id :: (operand.coded.expr.identities ++
      itemIds ((itemsCoded items).map Item.toCode)) := by
    rw [flatMap_identities_items, operand.coded_expr]
    rfl
  refine realizes_membership hoperand.value.temp (operand.coded_expr.trans operand.meaning_expr.symm) hsettles
    (.ofItems hitems) (fun hsingle => ?_) (fun hconst env hblind => ?_) (h.stands rfl rfl hids)
  · rw [operand.coded_expr] at hsingle ⊢
    show Affinity.codes ((List.range operand.vectorSize).map fun i => (operand.vectorField i).affinity) = _
    have hfield : operand.vectorField 0 = operand :=
      vectorField_of_single (by rw [isVector, hsingle]; rfl) 0
    rw [hsingle]
    show Affinity.codes [(operand.vectorField 0).affinity] = _
    rw [hfield]
  · rw [h.here.node id operand items rfl, operand.coded_expr]
    refine Meaning.keyTable_bare hblind operand fun item hitem => ?_
    rw [itemsCoded_eq_map, List.map_map] at hconst
    have hcoded : item.expr.coded.expr.isConstant .plain := hconst _ (List.mem_map_of_mem hitem)
    rwa [item.expr.coded_expr] at hcoded

theorem Coded.realizes_case {base : Option Expr} {arms : List (Expr × Expr)} {otherwise : Option Expr}
    (h : (node info (.caseOf base arms otherwise)).Plain σ)
    (hparts : ∀ x ∈ (Kind.caseOf base arms otherwise : Kind Expr Select).children, x.coded.Realizes σ K x.meaning) :
    (node info (.caseOf base arms otherwise)).coded.Realizes σ K (node info (.caseOf base arms otherwise)).meaning := by
  have hoption (o : Option Expr) (ho : ∀ x ∈ o.toList, x.coded.Realizes σ K x.meaning) :
      Option.Rel (Realizes σ K) (optionCoded o) (optionMeaning o) := by
    cases o with
    | none => exact .none
    | some x => exact .some (ho x (by simp))
  have hids : (node info (.caseOf base arms otherwise)).identities =
      (optionCoded base).elim [] (·.expr.identities) ++ armIds (armsCoded arms) ++
        (optionCoded otherwise).elim [] (·.expr.identities) := by
    rw [← optionIdentities_eq_elim, ← optionIdentities_eq_elim, ← armsIdentities_eq_armIds]
    rfl
  refine realizes_caseOf (h.stands rfl rfl hids) (hoption base fun x hx => hparts x ?_) ?_
    (hoption otherwise fun x hx => hparts x ?_)
  · simp [hx]
  · rw [armsCoded_eq_map, armsMeaning_eq_map]
    refine List.forall₂_map_left_iff.2 (List.forall₂_map_right_iff.2 (List.forall₂_same.2 fun arm harm => ?_))
    have hmem (x : Expr) (hx : x ∈ [arm.1, arm.2]) : x ∈ arms.flatMap fun arm => [arm.1, arm.2] :=
      List.mem_flatMap.2 ⟨arm, harm, hx⟩
    exact ⟨hparts arm.1 (by simp [hmem arm.1]), hparts arm.2 (by simp [hmem arm.2])⟩
  · simp [hx]

end

/-- The code of a plain expression does what its meaning says. -/
theorem Expr.Plain.realizes (h : e.Plain σ) (K : Known) : e.coded.Realizes σ K e.meaning := by
  induction e using children_induction generalizing K with
  | step info kind ih =>
    have hparts (K : Known) (x : Expr) (hx : x ∈ kind.children) :
        x.coded.Realizes σ K x.meaning := ih x hx (h.children x hx) K
    have hexpr (x : Expr) : x.coded.expr = x.meaning.expr := x.coded_expr.trans x.meaning_expr.symm
    have hids (x : Expr) : x.identities = x.coded.expr.identities := congrArg identities x.coded_expr.symm
    cases kind with
    | null => exact realizes_load (h.stands rfl rfl rfl) .null
    | integer literal =>
      cases literal with
      | inline v => exact realizes_load (h.stands rfl rfl rfl) (.inline _)
      | text t => exact realizes_load (h.stands rfl rfl rfl) (.integer t false)
    | float t => exact realizes_load (h.stands rfl rfl rfl) (.real t false)
    | string s => exact realizes_load (h.stands rfl rfl rfl) (.text s)
    | blob hex => exact realizes_load (h.stands rfl rfl rfl) (.blob hex)
    | boolean b => exact realizes_load (h.stands rfl rfl rfl) (.boolean b)
    | param index name => exact realizes_load (h.stands rfl rfl rfl) (.param index _)
    | ident name => exact realizes_ident h
    | column ref =>
      exact realizes_column h (hparts K)
    | unary op operand =>
      exact realizes_unary (h.stands rfl rfl (hids operand)) (hparts K operand (by simp)) (hexpr operand)
    | binary op left right =>
      have hleft := hparts K left (by simp)
      have hright := hparts K right (by simp)
      have hboth := congrArg₂ (· ++ ·) (hids left) (hids right)
      exact realizes_binary (h.stands rfl rfl hboth) hleft.computes hright.computes (.inr ⟨hleft, hright⟩)
    | collate operand name => exact realizes_collate (h.stands rfl rfl (hids operand)) (hparts K operand (by simp))
    | cast operand type => exact realizes_cast (h.stands rfl rfl (hids operand)) (hparts K operand (by simp))
    | call name args window => exact realizes_call h (hparts K)
    | caseOf base arms otherwise => exact realizes_case h (hparts K)
    | between operand low high =>
      have hall : (node info (.between operand low high)).identities = operand.coded.expr.identities ++
          (low.coded.expr.identities ++ high.coded.expr.identities) := by
        rw [← hids, ← hids, ← hids, ← List.append_assoc]
        rfl
      exact realizes_between (h.stands rfl rfl hall) (hparts K operand (by simp))
        (hparts K low (by simp)) (hparts K high (by simp))
    | inList id operand items =>
      exact realizes_inList h (hparts [] operand (by simp)) fun x hx =>
        hparts K x (List.mem_cons_of_mem _ hx)
    | vector items => exact realizes_vector h (hparts K)
    | _ => exact h.here.scalar.2.elim

end ScalarSql
