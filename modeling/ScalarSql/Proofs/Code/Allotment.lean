import ScalarSql.Code.Compile
import ScalarSql.Proofs.Expr.Equality

/-!
# What nodes refer to

A node of an expression may refer to registers that hold something already: the statement's own row, a value that was
computed before, the result of a routine. An `Allotment` says how wide these results are, and `Expr.Allotted` that all
registers which an expression refers to are among given ones.
-/

namespace ScalarSql

/-- What the identities of a statement and its own row stand for. -/
structure Allotment where
  /-- The number of registers in the result of a node's routine. -/
  width : Identity → Nat
  /-- The number of registers in the result of a shared sub-query. -/
  shared : Identity → Nat
  /-- Where references to the statement's own row read. -/
  ownRow : Option OwnRow

namespace Allotment

variable {ν : Allotment} {R S : Int → Prop}

/-- If the own row is in registers, the column is in one of the given ones. -/
def Column (ν : Allotment) (R : Int → Prop) (ref : ColumnRef Expr) : Prop :=
  match ν.ownRow with
  | some (.registers base) => R (if Gen.isRowidRef ref then base - 1 else base + ref.column)
  | _ => True

/-- The registers that a node refers to are among the given ones, and its identity stands for what is there. Row values
and sub-queries have a field at least, and no arm of a sub-query is wider than the sub-query. -/
def Node (ν : Allotment) (R : Int → Prop) : Kind Expr Select → Prop
  | .column ref => ref.fixed.isNone = true → ref.cursor < 0 → ν.Column R ref
  | .aggColumn _ ref => ref.fixed.isNone = true → ref.cursor < 0 → ν.Column R ref
  | .register reg source => ∀ k < source.vectorSize, R (reg + (k : Nat))
  | .inList id _ _ => ν.width id = 0
  | .inSelect id _ _ => ν.width id = 0
  | .hasRows id _ => ν.width id = 1
  | .subquery id select =>
    ν.width id = select.width ∧ 0 < select.width ∧ ∀ arm ∈ select.coded, arm.columns.length ≤ select.width
  | .selectColumn share source column _ => ν.shared share = source.vectorSize ∧ column < source.vectorSize
  | .vector items => 0 < items.length
  | _ => True

instance [DecidablePred R] (ref : ColumnRef Expr) : Decidable (ν.Column R ref) :=
  match ν with
  | ⟨_, _, some (.registers base)⟩ =>
    inferInstanceAs (Decidable (R (if Gen.isRowidRef ref then base - 1 else base + ref.column)))
  | ⟨_, _, some (.cursor _)⟩ => .isTrue trivial
  | ⟨_, _, none⟩ => .isTrue trivial

instance [DecidablePred R] : (kind : Kind Expr Select) → Decidable (ν.Node R kind)
  | .column ref => inferInstanceAs (Decidable (ref.fixed.isNone = true → ref.cursor < 0 → ν.Column R ref))
  | .aggColumn _ ref => inferInstanceAs (Decidable (ref.fixed.isNone = true → ref.cursor < 0 → ν.Column R ref))
  | .register reg source => inferInstanceAs (Decidable (∀ k < source.vectorSize, R (reg + (k : Nat))))
  | .inList id _ _ => inferInstanceAs (Decidable (ν.width id = 0))
  | .inSelect id _ _ => inferInstanceAs (Decidable (ν.width id = 0))
  | .hasRows id _ => inferInstanceAs (Decidable (ν.width id = 1))
  | .subquery id select => inferInstanceAs (Decidable (ν.width id = select.width ∧ 0 < select.width ∧
      ∀ arm ∈ select.coded, arm.columns.length ≤ select.width))
  | .selectColumn share source column _ =>
    inferInstanceAs (Decidable (ν.shared share = source.vectorSize ∧ column < source.vectorSize))
  | .vector items => inferInstanceAs (Decidable (0 < items.length))
  | .null | .integer _ | .float _ | .string _ | .blob _ | .boolean _ | .param _ _ | .ident _ | .aggCall _ _ _
  | .unary _ _ | .binary _ _ _ | .collate _ _ | .cast _ _ | .call _ _ _ | .caseOf _ _ _ | .between _ _ _
  | .ifNullRow _ _ | .raise _ _ => .isTrue trivial

theorem Column.mono {ref : ColumnRef Expr} (h : ν.Column R ref) (hR : ∀ r, R r → S r) : ν.Column S ref := by
  unfold Column at h ⊢
  split
  · rename_i base heq
    rw [heq] at h
    exact hR _ h
  · trivial

theorem Node.mono {kind : Kind Expr Select} (h : ν.Node R kind) (hR : ∀ r, R r → S r) : ν.Node S kind := by
  cases kind with
  | column ref | aggColumn index ref => exact fun hfixed hcursor => (h hfixed hcursor).mono hR
  | register reg source => exact fun k hk => hR _ (h k hk)
  | _ => exact h

end Allotment

/-- Throughout the tree, the registers that nodes refer to are among the given ones. -/
inductive Tree.Allotted (ν : Allotment) (R : Int → Prop) : Tree → Prop
  | intro {t : Tree} (here : ∀ e, t = .expr e → ν.Node R e.kind) (below : ∀ u ∈ t.below, Allotted ν R u) :
    Allotted ν R t

/-- Throughout the expression, the registers that nodes refer to are among the given ones. -/
def Expr.Allotted (ν : Allotment) (R : Int → Prop) (e : Expr) : Prop := Tree.Allotted ν R (.expr e)

theorem Expr.Allotted.mono {ν : Allotment} {R S : Int → Prop} {e : Expr} (h : e.Allotted ν R) (hR : ∀ r, R r → S r) :
    e.Allotted ν S := by
  have htree (t : Tree) (ht : t.Allotted ν R) : t.Allotted ν S := by
    induction ht with
    | intro here _ ih => exact .intro (fun x hx => (here x hx).mono hR) ih
  exact htree _ h

end ScalarSql
