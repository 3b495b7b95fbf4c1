import ScalarSql.Proofs.Expr.Plain

/-!
# Constant expressions

What may be computed before the first row has constant parts, and it is also constant in the plain
sense, by which the arguments of a call are marked.
-/

namespace ScalarSql.Expr

theorem itemsConstant_eq_all (mode : ConstMode) (items : List (Item Expr)) :
    itemsConstant mode items = items.all fun item => item.expr.isConstant mode := by
  induction items with
  | nil => rfl
  | cons item rest ih =>
    rw [itemsConstant, ih]
    rfl

theorem optionConstant_eq_all (mode : ConstMode) (o : Option Expr) :
    optionConstant mode o = o.toList.all (·.isConstant mode) := by
  cases o <;> simp [optionConstant]

theorem armsConstant_eq_all (mode : ConstMode) (arms : List (Expr × Expr)) : armsConstant mode arms =
      (arms.flatMap fun arm => [arm.1, arm.2]).all (·.isConstant mode) := by
  induction arms with
  | nil => rfl
  | cons arm rest ih =>
    rw [armsConstant, ih]
    simp [Bool.and_assoc]

variable {e : Expr}

/-- Whether a node is constant if its parts are. -/
def constantNode (e : Expr) : Bool :=
  match e.kind with
  | .call _ _ window => e.flags.constantCall && window.isNone
  | .ident _ => e.truthName?.isSome
  | .column _ | .aggColumn _ _ | .aggCall _ _ _ | .ifNullRow _ _ | .register _ _ | .raise _ _
  | .hasRows _ _ | .subquery _ _ | .inSelect _ _ _ => false
  | _ => true

theorem isConstant_notJoin (e : Expr) : e.isConstant .notJoin =
      (!e.flags.fromJoin && e.constantNode && e.kind.children.all (·.isConstant .notJoin)) := by
  obtain ⟨info, kind⟩ := e
  rw [isConstant.eq_def]
  simp only [flags, Expr.info, constantNode, Expr.kind, BEq.rfl, Bool.true_and, Bool.and_assoc]
  cases kind with
  | column ref =>
    obtain ⟨cursor, column, table, fixed⟩ := ref
    cases fixed <;> simp
  | aggColumn index ref =>
    simp
  | _ =>
    simp [itemsConstant_eq_all, optionConstant_eq_all, armsConstant_eq_all, Kind.children,
      ConstMode.allowsCalls, Bool.and_assoc, Function.comp_def]

theorem isConstant_plain_of_node (h : e.constantNode)
    (hparts : e.kind.children.all (·.isConstant .plain)) : e.isConstant .plain := by
  obtain ⟨info, kind⟩ := e
  rw [isConstant.eq_def]
  simp only [constantNode, Expr.kind] at h hparts ⊢
  cases kind with
  | caseOf base arms otherwise =>
    simp only [Kind.children, List.all_append, Bool.and_eq_true] at hparts
    simp [optionConstant_eq_all, armsConstant_eq_all, hparts.1.1, hparts.1.2, hparts.2]
  | _ =>
    simp_all [itemsConstant_eq_all, Kind.children, ConstMode.allowsCalls, Expr.flags, Expr.info]

variable (h : e.isConstant .notJoin)

include h

theorem not_fromJoin : e.flags.fromJoin = false := by
  rw [isConstant_notJoin, Bool.and_eq_true, Bool.and_eq_true] at h
  simpa using h.1.1

theorem children_constant : ∀ x ∈ e.kind.children, x.isConstant .notJoin := by
  rw [isConstant_notJoin, Bool.and_eq_true, List.all_eq_true] at h
  exact h.2

theorem isConstant_plain : e.isConstant .plain := by
  induction e using Expr.children_induction with
  | step info kind ih =>
    have hparts := children_constant h
    rw [isConstant_notJoin, Bool.and_eq_true, Bool.and_eq_true] at h
    refine isConstant_plain_of_node h.1.2 (List.all_eq_true.2 fun x hx => ?_)
    exact ih x hx (hparts x hx)

end ScalarSql.Expr
