import ScalarSql.Proofs.Meaning.Sharing

/-!
# The rows that an expression reads

An expression means the same in two environments if the rows that it reads are the same. Constants read no row
at all, or only that of the one table that their mode allows. So they may be computed before the first row, and
the table of a constant list may be filled once.
-/

namespace ScalarSql

variable {env : Env}

def Env.bare (env : Env) : Env := { env with row := fun _ => none }

theorem Env.CaseBlind.agrees (h : env.CaseBlind) (row row' : Int → Option RowView) :
    Env.Agrees { env with row } { env with row := row' } :=
  ⟨rfl, h.collation, rfl, rfl⟩

/-- The mode allows the row under the cursor to be read. -/
def ConstMode.reads (mode : ConstMode) (cursor : Int) : Prop := mode = .tableConstant cursor

namespace Expr

/-- The node reads a row under one of the cursors only: if it is a column then its value is known or its cursor is
one of them. -/
def ReadsNode (cursors : Int → Prop) (e : Expr) : Prop :=
  match e.kind with
  | .column ⟨cursor, _, _, fixed⟩ => fixed = none → cursors cursor
  | _ => True

/-- The expression reads rows under the cursors only. -/
def ReadsOnly (cursors : Int → Prop) (e : Expr) : Prop := e.Every (ReadsNode cursors)

variable {env env' : Env} {cursors : Int → Prop} {mode : ConstMode} {e : Expr}

theorem readsNode_of_isConstant (h : e.isConstant mode) :
    e.ReadsNode mode.reads ∧ ∀ x ∈ e.kind.children, x.isConstant mode := by
  obtain ⟨info, kind⟩ := e
  rw [isConstant.eq_def] at h
  simp only [ReadsNode, Expr.kind]
  cases kind with
  | column ref =>
    obtain ⟨cursor, column, table, fixed⟩ := ref
    cases fixed <;> simp_all [Kind.children, ConstMode.reads]
  | caseOf base arms otherwise =>
    simp only [optionConstant_eq_all, armsConstant_eq_all, Bool.and_eq_true, List.all_eq_true] at h
    simp only [Kind.children, List.forall_mem_append]
    exact ⟨trivial, ⟨h.2.1.1, h.2.1.2⟩, h.2.2⟩
  | _ => simp_all [itemsConstant_eq_all, Kind.children]

theorem readsOnly_of_isConstant (h : e.isConstant mode) : e.ReadsOnly mode.reads := by
  induction e using Expr.children_induction with
  | step info kind ih =>
    obtain ⟨hnode, hparts⟩ := readsNode_of_isConstant h
    exact .node hnode fun x hx => ih x hx (hparts x hx)

theorem sameMeaning_self (h : Meaning.Same env env' e.meaning e.meaning) : SameMeaning env env' e e := by
  refine ⟨h, ?_⟩
  unfold Meaning.negatedValue
  split <;> simp only [h.value]

/-- A node means the same in two environments if its parts do, and if it is a column then the row that it reads is
the same. -/
theorem SameMeaning.node (henv : env.Agrees env') {info : NodeInfo} {kind : Kind Expr Select}
    (hcolumn : ∀ ref, kind = .column ref → ref.fixed = none → env.seen ref.cursor = env'.seen ref.cursor)
    (hparts : ∀ x ∈ kind.children, SameMeaning env env' x x) :
    SameMeaning env env' (.node info kind) (.node info kind) := by
  by_cases hraise : ∃ action message, kind = .raise action message
  · obtain ⟨action, message, rfl⟩ := hraise
    exact sameMeaning_self (.ofValue (.refl _) ⟨rfl, rfl⟩ rfl)
  · refine .of_related henv (.refl _) ⟨rfl, rfl⟩ rfl (fun ref href => ?_)
      (.refl (fun action message h => hraise ⟨action, message, h⟩) fun x hx => ⟨hparts x hx, rfl⟩)
    subst href
    obtain ⟨cursor, column, table, fixed⟩ := ref
    cases fixed with
    | none =>
      show env.column table cursor column = env'.column table cursor column
      rw [Env.column, Env.column, hcolumn _ rfl rfl]
    | some x =>
      show (x.meaning.value env).map _ = (x.meaning.value env').map _
      rw [(hparts x (by simp)).1.value]

theorem ReadsOnly.same (henv : env.Agrees env') (hrow : ∀ n, cursors n → env.seen n = env'.seen n)
    (h : e.ReadsOnly cursors) : SameMeaning env env' e e := by
  induction e using Expr.children_induction with
  | step info kind ih =>
    refine .node henv (fun ref href hfixed => hrow _ ?_) fun x hx => ih x hx (h.children x hx)
    subst kind
    exact h.here hfixed

/-- The value of a constant depends on no row but the one that its mode allows. -/
theorem value_of_isConstant (henv : env.Agrees env') (hrow : ∀ n, mode.reads n → env.seen n = env'.seen n)
    (h : e.isConstant mode) : e.meaning.value env = e.meaning.value env' :=
  ((readsOnly_of_isConstant h).same henv hrow).1.value

end Expr

theorem Meaning.keyTable_bare (hblind : env.CaseBlind) (operand : Expr) {items : List (Item Expr)}
    (h : ∀ item ∈ items, item.expr.isConstant .plain) :
    keyTable operand (itemsMeaning items) env.bare = keyTable operand (itemsMeaning items) env := by
  have hvalues : (itemsMeaning items).mapM (·.value env.bare) = (itemsMeaning items).mapM (·.value env) := by
    refine mapM_value_congr ?_
    rw [itemsMeaning_eq_map, List.forall₂_map_left_iff, List.forall₂_map_right_iff]
    refine List.forall₂_same.2 fun item hitem => ?_
    exact ((Expr.readsOnly_of_isConstant (h item hitem)).same (hblind.agrees _ env.row) (by rintro _ ⟨⟩)).1
  unfold keyTable
  rw [hvalues]
  rfl

end ScalarSql
