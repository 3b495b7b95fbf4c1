import ScalarSql.Proofs.Expr.Plain
import ScalarSql.Proofs.Resolution.Correlation

/-!
# What resolution leaves at a node

Flags are no part of the structure by which trees are matched, and neither are the tables of columns. Both are settled
by resolution: a call takes its flags from the function that its name and the number of its arguments stand for, a
column takes its table from the FROM clause. So nodes of the same structure carry the same marks behind it
(`Resolve.expr_bound`).
-/

namespace ScalarSql

open ScalarSql.Expr

namespace Expr

/-- A node before resolution: it has no marks but quotes, and it is no column. -/
structure Unbound (e : Expr) : Prop where
  fromJoin : e.flags.fromJoin = false
  canBeNull : e.flags.canBeNull = false
  constantCall : e.flags.constantCall = false
  unlikely : e.flags.unlikely = false
  column : ∀ ref, e.kind ≠ .column ref

structure Bound (fs : Functions) (tables : Int → Option Table) (e : Expr) : Prop where
  fromJoin : e.flags.fromJoin = false
  /-- It is not said to be NULL where its table has no NULL. -/
  canBeNull : e.flags.canBeNull = false
  call : ∀ name args window, e.kind = .call name args window → ∃ flags : ExprFlags,
    Resolve.callFlags fs name args.length = .ok flags ∧ e.flags.constantCall = flags.constantCall ∧
      e.flags.unlikely = flags.unlikely
  ident : ∀ name, e.kind ≠ .ident name
  /-- A column is of the table on its cursor, and not known to equal a constant. -/
  column : ∀ ref, e.kind = .column ref → ref.table = tables ref.cursor ∧ ref.fixed = none

end Expr

namespace Resolve

variable {fs : Functions} {tables : Int → Option Table} {cursors : Int → Prop} {Γ : Scopes} {r : Reach}
  {name : String} {ref : ColumnRef Expr} {info : NodeInfo} {e : Expr}

def Reads (tables : Int → Option Table) (Γ : Scopes) : Prop :=
  ∀ scope ∈ Γ, ∀ source ∈ scope, tables source.cursor = some source.table

theorem table_of_found {scope : List Source} (h : ref ∈ found name scope)
    (hscope : ∀ source ∈ scope, tables source.cursor = some source.table) : ref.table = tables ref.cursor := by
  obtain ⟨source, hsource, href⟩ := List.mem_filterMap.1 h
  unfold inSource? at href
  split at href
  · obtain ⟨n, -, rfl⟩ := Option.map_eq_some_iff.1 href
    exact (hscope source hsource).symm
  · cases href

theorem bound_of_lookup {depth : Nat} (h : lookup name Γ = .ok (ref, depth)) (hΓ : Reads tables Γ) :
    ref.table = tables ref.cursor ∧ ref.fixed = none := by
  obtain ⟨inner, scope, outer, rfl, -, hfound⟩ := exists_of_lookup h
  have hmem : ref ∈ found name scope := by simp [hfound]
  exact ⟨table_of_found hmem (hΓ scope (by simp)), (found_mem hmem).2⟩

/-- Every scalar result of the expression is bound throughout. -/
def Binds (fs : Functions) (tables : Int → Option Table) (cursors : Int → Prop) (Γ : Scopes) (e : Expr) : Prop :=
  ∀ e' r, expr fs Γ e = .ok (e', r) → e'.Scalar fs cursors → e'.Every (Bound fs tables)

/-- The name and the number of arguments decide the marks of a call that had none. -/
theorem bound_of_callFlags {args args' : List (Item Expr)} {window : Option (Window Expr)} {flags : ExprFlags}
    (h : (node info (.call name args window)).Unbound) (hflags : callFlags fs name args'.length = .ok flags) :
    (node { info with flags := info.flags.union flags } (.call name args' window)).Bound fs tables := by
  have hplain : flags.fromJoin = false ∧ flags.canBeNull = false := by
    unfold callFlags at hflags
    split at hflags
    · cases hflags
      exact ⟨rfl, rfl⟩
    · cases hflags
  have hmarks {b c : Bool} (hb : b = false) : (b || c) = c := by rw [hb, Bool.false_or]
  refine ⟨(hmarks h.fromJoin).trans hplain.1, (hmarks h.canBeNull).trans hplain.2, ?_, by rintro _ ⟨⟩, by rintro _ ⟨⟩⟩
  rintro _ _ _ ⟨⟩
  exact ⟨flags, hflags, hmarks h.constantCall, hmarks h.unlikely⟩

theorem bound_of_expr (hΓ : Reads tables Γ) {e' : Expr} (h : e.Unbound) (hres : expr fs Γ e = .ok (e', r)) :
    e'.Bound fs tables := by
  rcases expr_cases hres with ⟨name, ⟨cursor, column, table, fixed⟩, depth, hfound, rfl, -⟩ | ⟨-, -, hnode, -⟩
  · obtain ⟨htable, hfixed⟩ := bound_of_lookup hfound hΓ
    obtain rfl : fixed = none := hfixed
    refine ⟨h.fromJoin, h.canBeNull, by rintro _ _ _ ⟨⟩, by rintro _ ⟨⟩, ?_⟩
    rintro _ ⟨⟩
    exact ⟨htable, rfl⟩
  · cases hnode with
    | call hflags => exact bound_of_callFlags h hflags
    | column => exact absurd rfl (h.column _)
    | @other info info' _ kind' hkind hinfo =>
      have hmarks : info'.flags.fromJoin = false ∧ info'.flags.canBeNull = false := by
        rcases hinfo with rfl | rfl
        · exact ⟨h.fromJoin, h.canBeNull⟩
        · exact ⟨(Bool.or_false _).trans h.fromJoin, (Bool.or_false _).trans h.canBeNull⟩
      refine ⟨hmarks.1, hmarks.2, ?_, fun _ hk => ?_, fun _ hk => ?_⟩
      · rintro _ _ _ ⟨⟩
        exact hkind.elim
      all_goals
        cases hk
        exact hkind.elim

theorem expr_bound (hΓ : Reads tables Γ) (h : e.Every Unbound) : Binds fs tables cursors Γ e := by
  induction e using children_induction with
  | step info kind ih =>
    rintro ⟨info', kind'⟩ r hres hs
    refine .node (bound_of_expr hΓ h.here hres) fun x' hx' => ?_
    rcases expr_cases hres with ⟨name, ref, depth, hfound, hnode, -⟩ | hrebuilt
    · obtain rfl : kind' = .column ref := congrArg Expr.kind hnode
      simp [(bound_of_lookup hfound hΓ).2] at hx'
    · have hentered : x' ∈ kind'.entered := by
        cases kind' with
        | selectColumn => exact hs.here.2.elim
        | _ => exact hx'
      obtain ⟨_, ht, ρ, hpart, -⟩ := hrebuilt.parts.origin (List.mem_append_left _ (List.mem_map_of_mem hentered))
      cases hpart with
      | @expr x _ _ hx =>
        have hchild : x ∈ kind.children := by
          have hmem : x ∈ kind.entered := by simpa [Tree.entered] using ht
          cases kind with
          | selectColumn => cases hmem
          | _ => exact hmem
        exact ih x hchild (h.children x hchild) x' ρ hx (hs.children x' hx')

end Resolve

end ScalarSql
