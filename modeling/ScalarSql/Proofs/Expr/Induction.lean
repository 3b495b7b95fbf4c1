import ScalarSql.Proofs.Expr.Tree

/-!
# Induction over expressions

What holds of a node whenever it holds of the expressions directly below it holds of every expression
(`Expr.children_induction`). `Expr.Every` says that each node of a tree satisfies a condition.
-/

namespace ScalarSql

variable {P : Expr → Prop}

attribute [simp] Kind.children

@[simp]
theorem Expr.kind_node (info : NodeInfo) (kind : Kind Expr Select) : (Expr.node info kind).kind = kind := rfl

@[simp]
theorem Expr.kind_ofKind (kind : Kind Expr Select) : (Expr.ofKind kind).kind = kind := rfl

theorem Kind.children_subset {ε σ : Type} (kind : Kind ε σ) : kind.children ⊆ kind.subexpressions := by
  cases kind with
  | aggColumn index ref => exact List.nil_subset _
  | call name args window => exact List.subset_append_left _ _
  | _ => exact List.Subset.refl _

/-- What passes from all expressions directly below a node to the node holds of every expression. -/
theorem Expr.subexpressions_induction (step : ∀ info kind, (∀ e ∈ kind.subexpressions, P e) → P (.node info kind))
    (e : Expr) : P e := by
  have htree (t : Tree) : ∀ e, t = .expr e → P e := by
    induction t using Tree.induction with
    | step t ih =>
      rintro ⟨info, kind⟩ rfl
      exact step info kind fun x hx => ih (.expr x) (List.mem_append_left _ (List.mem_map_of_mem hx)) x rfl
  exact htree (.expr e) e rfl

theorem Expr.children_induction (step : ∀ info kind, (∀ e ∈ kind.children, P e) → P (.node info kind)) (e : Expr) :
    P e := by
  induction e using Expr.subexpressions_induction with
  | step info kind ih => exact step info kind fun x hx => ih x (kind.children_subset hx)

/-- Each node of the tree satisfies the condition. -/
inductive Expr.Every (p : Expr → Prop) : Expr → Prop
  | node {info kind} (here : p (.node info kind)) (parts : ∀ e ∈ kind.children, Every p e) :
    Every p (.node info kind)

namespace Expr.Every

variable {p q : Expr → Prop} {e : Expr}

theorem here (h : e.Every p) : p e := by
  cases h
  assumption

theorem children (h : e.Every p) : ∀ x ∈ e.kind.children, x.Every p := by
  cases h
  assumption

theorem ofKind {kind : Kind Expr Select} (here : p (.ofKind kind)) (parts : ∀ x ∈ kind.children, x.Every p) :
    (Expr.ofKind kind).Every p := .node here parts

theorem mono (hpq : ∀ x, p x → q x) (h : e.Every p) : e.Every q := by
  induction h with
  | node hhere _ ih => exact .node (hpq _ hhere) ih

theorem and (hp : e.Every p) (hq : e.Every q) : e.Every fun x => p x ∧ q x := by
  induction hp with
  | node here _ ih => exact .node ⟨here, hq.here⟩ fun x hx => ih x hx (hq.children x hx)

end Expr.Every

theorem Expr.every_node {info : NodeInfo} {kind : Kind Expr Select} :
    (Expr.node info kind).Every P ↔ P (.node info kind) ∧ ∀ x ∈ kind.children, x.Every P :=
  ⟨fun h => ⟨h.here, h.children⟩, fun h => .node h.1 h.2⟩

theorem Expr.every_ofKind {kind : Kind Expr Select} :
    (Expr.ofKind kind).Every P ↔ P (.ofKind kind) ∧ ∀ x ∈ kind.children, x.Every P := every_node

end ScalarSql
