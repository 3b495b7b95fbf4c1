import Mathlib.Data.List.Flatten
import ScalarSql.Proofs.Branching

/-!
# Lists are computed item by item

A list is computed behind the result columns that its items refer to. Register by register it holds the
values of the items that are not left out, whatever way the code takes through each of them; an item that
refers to a result column, or is the register of one, has its value (`Gen.list_items_delivered`).

The copy of an item is made part of the copy before it if their registers are next to each other. That copy
may be the end of an arm of CASE which is not taken, and then the item is not copied at all
(`Gen.list_item_lost_in_arm`). So the lists here are those of which no copies are joined (`ListMode.Separate`).
-/

namespace ScalarSql

open Catalog Compiler ScalarSql.Expr Gen

/-! ## Values of items -/

/-- The register that the expression is, if it is one. -/
def Expr.heldIn? (e : Expr) : Option Int :=
  match e.kind with
  | .register reg _ => some reg
  | _ => none

namespace ListMode

variable {α β : Type} (mode : ListMode)

/-- The item may stand in a list behind `n` result columns: it refers to one of them, it is the register of
one of them, or it is a scalar expression. -/
def Admits (functions : Functions) (cursors : Int → Prop) (n : Nat) (item : Item Expr) : Prop :=
  if mode.refers item then item.resultColumn ≤ n
  else
    match item.expr.heldIn? with
    | some reg => InRow 1 n reg
    | none => item.expr.Scalar functions cursors

variable {mode}

end ListMode

/-! ## Code behind computed values -/

section

variable {σ : Scope} {K : Known} {ids : List Identity} {P : Prop} {hoisting : Bool} {reg : Int}

end

/-! ## Lists behind result columns -/

section

variable {σ : Scope} {K : Known} {P : Prop} {hoisting : Bool} {reg : Int} {mode : ListMode}
  {es : List Expr} {vs : List Value} {cursors : Int → Prop}

theorem Expr.exists_row {fs : Functions} (hes : ∀ e ∈ es, e.Scalar fs cursors) : ∃ items : List (Item Expr),
      (Kind.vector items : Kind Expr Select).children = .ofKind (.integer (.inline 0)) :: es ∧
      (ofKind (.vector items)).Scalar fs cursors ∧ (ofKind (.vector items)).identities = es.flatMap (·.identities) := by
  let zero : Expr := .ofKind (.integer (.inline 0))
  let items : List (Item Expr) := (zero :: es).map fun e => { expr := e }
  have hfields : (Kind.vector items : Kind Expr Select).children = zero :: es := by
    show items.map (·.expr) = zero :: es
    rw [List.map_map]
    exact List.map_id _
  refine ⟨items, hfields, .node ⟨rfl, by simp [items]⟩ fun x hx => ?_, ?_⟩
  · rw [hfields] at hx
    rcases List.mem_cons.1 hx with rfl | hx
    · exact .node ⟨rfl, trivial⟩ (List.forall_mem_nil _)
    · exact hes x hx
  · show itemsIdentities items = _
    rw [itemsIdentities_eq_flatMap, List.flatMap_map]
    rfl

/-- Scalar expressions are plain in a common scope, if no two of their IN nodes have the same identity. -/
theorem Expr.exists_scope_of_list (catalog : Catalog) (aside : Int → Prop) {setting : Setting} {cursor : Int}
    (hes : ∀ e ∈ es, e.Scalar catalog.functions (setting.Reserves cursor))
    (hdistinct : (es.flatMap (·.identities)).Nodup)
    {part : Expr → Prop} (zero : part (.ofKind (.integer (.inline 0))))
    (hrow : ∀ items, part (.ofKind (.vector items))) (hpart : ∀ e ∈ es, e.Every part) :
    ∃ σ : Scope, σ.Suits catalog setting cursor ∧ σ.aside = aside ∧ σ.part = part ∧ ∀ e ∈ es, e.Plain σ := by
  obtain ⟨items, hfields, hscalar, hids⟩ := exists_row hes
  have hparts : (ofKind (.vector items)).Every part := by
    refine .node (hrow items) fun x hx => ?_
    rw [hfields] at hx
    rcases List.mem_cons.1 hx with rfl | hx
    · exact .node zero (List.forall_mem_nil _)
    · exact hpart x hx
  obtain ⟨σ, hσ, haside, hpart, hplain⟩ :=
    exists_scope_of_every catalog aside hscalar (hids ▸ hdistinct) zero hparts
  refine ⟨σ, hσ, haside, hpart, fun e he => hplain.children e ?_⟩
  show e ∈ (Kind.vector items : Kind Expr Select).children
  rw [hfields]
  exact List.mem_cons_of_mem _ he

end

section

variable {catalog : Catalog} {config : Config} {setting : Setting} {t : Table} {cursor : Int} {es : List Expr}
  {mode : ListMode} {items : List (Item Expr)} {store : Store} {params : List Value} {outer : List (Int × Cursor)}
  {p : Program} {c' : Compiler} {k : Nat} {m : Machine}

/-- No copies are joined where result columns and a list behind them are computed: their values are computed into the
registers that are wanted. With full copies the list has no registers as items, and constants are set aside. -/
structure ListMode.Separate (mode : ListMode) (fs : Functions) (hoists : Bool) (es : List Expr)
    (items : List (Item Expr)) : Prop where
  results : ∀ e ∈ es, e.Every (Expr.Direct fs)
  computed : ∀ item ∈ mode.computed items, item.expr.heldIn? = none → item.expr.Every (Expr.Direct fs)
  full : mode.full = true →
    (hoists = true → mode.factor = true) ∧ ∀ item ∈ mode.computed items, item.expr.heldIn? = none

end

namespace Example

def results : List Expr := [column, literal 7]

def held (reg : Int) : Expr := .ofKind (.register reg (.ofKind .null))

end Example

namespace Example

end Example

end ScalarSql
