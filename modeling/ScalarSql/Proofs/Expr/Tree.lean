import ScalarSql.Expr.Basic

/-!
# Trees of expressions and sub-selects

Expressions hold sub-selects, and these hold expressions. `Tree` is either of the two, `Tree.below` what stands
directly below it, and `Tree.induction` the one recursion through all of them. Unlike `Expr.children_induction`
it also enters sub-selects, the known value of an accumulated column and the terms of a window.
-/

namespace ScalarSql

/-! ## Parts -/

section

variable {ε σ : Type}

/-- All expressions directly below the node, not those of a sub-select: its children, the known value of an
accumulated column and the terms of a window. -/
def Kind.subexpressions : Kind ε σ → List ε
  | .aggColumn _ ref => ref.fixed.toList
  | .call _ args window =>
    args.map (·.expr) ++ window.toList.flatMap fun w => w.partitionBy.map (·.expr) ++ w.orderBy.map (·.expr)
  | kind => kind.children

/-- The expressions of the clauses of a sub-select, without those of the arm before it. -/
def SelectParts.clauses (parts : SelectParts ε σ) : List ε :=
  parts.columns.map (·.expr) ++ parts.filter.toList ++ parts.having.toList ++ parts.limit.toList ++
    (parts.groupBy.getD []).map (·.expr) ++ (parts.orderBy.getD []).map (·.expr)

end

inductive Tree where
  | expr (e : Expr)
  | select (s : Select)

/-- The trees directly below a tree. The arm before a sub-select stands below it. -/
def Tree.below : Tree → List Tree
  | .expr e => e.kind.subexpressions.map .expr ++ e.kind.selects.map .select
  | .select s => s.parts.clauses.map .expr ++ s.parts.prior.toList.map .select

/-! ## Induction -/

section

variable {ε σ : Type} [SizeOf ε] [SizeOf σ] {x : ε} {kind : Kind ε σ}

@[grind →]
theorem sizeOf_lt_of_option {o : Option ε} (h : x ∈ o.toList) : sizeOf x < sizeOf o := by
  obtain rfl := Option.mem_toList.1 h
  simp

@[grind →]
theorem sizeOf_lt_of_items {items : List (Item ε)} (h : x ∈ items.map (·.expr)) : sizeOf x < sizeOf items := by
  obtain ⟨⟨x, _, _⟩, hitem, rfl⟩ := List.mem_map.1 h
  have hlt := List.sizeOf_lt_of_mem hitem
  simp only [Item.mk.sizeOf_spec] at hlt ⊢
  omega

@[grind →]
theorem sizeOf_lt_of_optionItems {o : Option (List (Item ε))} (h : x ∈ (o.getD []).map (·.expr)) :
    sizeOf x < sizeOf o := by
  cases o with
  | none => cases h
  | some items => exact Nat.lt_trans (sizeOf_lt_of_items h) (by simp)

@[grind →]
theorem sizeOf_lt_of_arms {arms : List (ε × ε)} (h : x ∈ arms.flatMap fun arm => [arm.1, arm.2]) :
    sizeOf x < sizeOf arms := by
  obtain ⟨⟨condition, result⟩, harm, hx⟩ := List.mem_flatMap.1 h
  have hlt := List.sizeOf_lt_of_mem harm
  rw [Prod.mk.sizeOf_spec] at hlt
  simp only [List.mem_cons, List.not_mem_nil, or_false] at hx
  rcases hx with rfl | rfl <;> omega

@[grind →]
theorem sizeOf_lt_of_window {o : Option (Window ε)}
    (h : x ∈ o.toList.flatMap fun w => w.partitionBy.map (·.expr) ++ w.orderBy.map (·.expr)) : sizeOf x < sizeOf o := by
  obtain ⟨⟨_, _, partitionBy, orderBy, _⟩, hw, hx⟩ := List.mem_flatMap.1 h
  have hlt := sizeOf_lt_of_option hw
  have hle := (List.mem_append.1 hx).imp sizeOf_lt_of_items sizeOf_lt_of_items
  simp only [Window.mk.sizeOf_spec] at hlt hle
  omega

@[grind →]
theorem Kind.sizeOf_lt_of_subexpressions (h : x ∈ kind.subexpressions) : sizeOf x < sizeOf kind := by
  cases kind with
  | column ref | aggColumn _ ref =>
    cases ref
    grind [subexpressions, children]
  | _ => grind [subexpressions, children]

@[grind →]
theorem Kind.sizeOf_lt_of_selects {s : σ} (h : s ∈ kind.selects) : sizeOf s < sizeOf kind := by
  cases kind <;> grind [selects]

/-- An expression of a clause is smaller than the sub-select. -/
@[grind →]
theorem SelectParts.sizeOf_lt_of_clauses {parts : SelectParts ε σ} (h : x ∈ parts.clauses) :
    sizeOf x < sizeOf parts := by
  cases parts
  grind [clauses]

end

theorem Tree.sizeOf_lt_of_below {t u : Tree} (h : u ∈ t.below) : sizeOf u < sizeOf t := by
  cases t with
  | expr e =>
    cases e
    grind [below, Expr.kind]
  | select s =>
    obtain ⟨parts⟩ := s
    cases parts
    grind [below, Select.parts]

theorem Tree.induction {P : Tree → Prop} (step : ∀ t, (∀ u ∈ t.below, P u) → P t) (t : Tree) : P t :=
  step t fun u _ => Tree.induction step u
termination_by sizeOf t
decreasing_by exact sizeOf_lt_of_below (by assumption)

end ScalarSql
