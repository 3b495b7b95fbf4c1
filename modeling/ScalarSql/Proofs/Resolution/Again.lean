import ScalarSql.Function.Builtin
import ScalarSql.Proofs.Resolution.Correlation

/-!
# What resolution leaves to do

Nothing: no name is left in a resolved expression, each call has the marks of its function, and resolving the result
again, in whatever clauses, leaves it as it is (`Resolve.resolves_again`).
-/

namespace ScalarSql

/-- The tree at a place: the positions of the parts, among those that are entered, on the way down to it. -/
def Tree.at? : List Nat → Tree → Option Tree
  | [], t => some t
  | i :: place, t => t.entered[i]?.bind (at? place)

namespace Resolve

variable {fs : Functions} {Γ Δ : Scopes} {t t' u' : Tree} {r : Reach} {e e' : Expr}

/-- A part of a resolved tree was resolved from the part in its place. -/
theorem resolves_part {i : Nat} (h : Resolves fs Γ t t' r) (hu' : t'.entered[i]? = some u') :
    ∃ u, t.entered[i]? = some u ∧ ∃ Δ ρ, Resolves fs Δ u u' ρ := by
  obtain ⟨name, ref, depth, e', hfound, rfl, hkind, -⟩ | ⟨-, hparts, -, -⟩ := resolves_cases h
  · have hmem := Tree.entered_subset _ (List.mem_of_getElem? hu')
    simp [below_of_lookup hfound hkind] at hmem
  · obtain ⟨u, hu, ρ, hres, -⟩ := hparts.at_place hu'
    exact ⟨u, hu, _, ρ, hres⟩

theorem resolves_at {place : List Nat} (h : Resolves fs Γ t t' r) (hu' : t'.at? place = some u') :
    ∃ u, t.at? place = some u ∧ ∃ Δ ρ, Resolves fs Δ u u' ρ := by
  induction place generalizing Γ t t' r with
  | nil =>
    cases hu'
    exact ⟨t, rfl, Γ, r, h⟩
  | cons i place ih =>
    obtain ⟨v', hv', hu'⟩ := Option.bind_eq_some_iff.1 hu'
    obtain ⟨v, hv, Δ, ρ, hres⟩ := resolves_part h hv'
    obtain ⟨u, hplace, hu⟩ := ih hres hu'
    exact ⟨u, Option.bind_eq_some_iff.2 ⟨v, hv, hplace⟩, hu⟩

/-- A resolved node is no name, and a call has taken the marks of its function already. -/
theorem kept_of_expr (h : expr fs Γ e = .ok (e', r)) : (∀ name, e'.kind ≠ .ident name) ∧
    ∀ name args window, e'.kind = .call name args window → ∃ flags, callFlags fs name args.length = .ok flags ∧
      e'.flags = e.flags.union flags := by
  rcases expr_cases h with ⟨name, ref, depth, -, rfl, -⟩ | ⟨-, -, hnode, -⟩
  · exact ⟨by rintro _ ⟨⟩, by rintro _ _ _ ⟨⟩⟩
  · cases hnode with
    | column => exact ⟨by rintro _ ⟨⟩, by rintro _ _ _ ⟨⟩⟩
    | @call _ _ _ _ _ flags hflags =>
      refine ⟨by rintro _ ⟨⟩, ?_⟩
      rintro _ _ _ ⟨⟩
      exact ⟨flags, hflags, rfl⟩
    | other hkind =>
      constructor
      · rintro _ ⟨⟩
        exact hkind
      · rintro _ _ _ ⟨⟩
        exact hkind.elim

/-! ## Trees that stay -/

/-- Resolution leaves the expression as it is. -/
abbrev Stays (fs : Functions) (Γ : Scopes) (e : Expr) : Prop := expr fs Γ e = .ok (e, none)

theorem option_stays {o : Option Expr} (h : ∀ e ∈ o.toList, Stays fs Γ e) : option fs Γ o = .ok (o, none) := by
  cases o with
  | none => rfl
  | some e => rw [option, h e (List.mem_singleton_self e)]; rfl

theorem items_stay {list : List (Item Expr)} (h : ∀ e ∈ list.map (·.expr), Stays fs Γ e) :
    items fs Γ list = .ok (list, none) := by
  induction list with
  | nil => rfl
  | cons item rest ih =>
    obtain ⟨hitem, hrest⟩ := List.forall_mem_cons.1 h
    rw [items, hitem, ih hrest]
    rfl

theorem optionItems_stay {o : Option (List (Item Expr))}
    (h : ∀ e ∈ (o.getD []).map (·.expr), Stays fs Γ e) : optionItems fs Γ o = .ok (o, none) := by
  cases o with
  | none => rfl
  | some list =>
    have hlist : items fs Γ list = .ok (list, none) := items_stay h
    rw [optionItems, hlist]
    rfl

theorem arms_stay {arms : List (Expr × Expr)} (h : ∀ e ∈ arms.flatMap fun arm => [arm.1, arm.2], Stays fs Γ e) :
    armsOf fs Γ arms = .ok (arms, none) := by
  induction arms with
  | nil => rfl
  | cons arm rest ih =>
    obtain ⟨hcondition, hrest⟩ := List.forall_mem_cons.1 h
    obtain ⟨hresult, hrest⟩ := List.forall_mem_cons.1 hrest
    rw [armsOf, hcondition, hresult, ih hrest]
    rfl

theorem expr_stays (hident : ∀ name, e.kind ≠ .ident name)
    (hcall : ∀ name args window, e.kind = .call name args window → ∃ flags, callFlags fs name args.length = .ok flags ∧
      e.flags.union flags = e.flags) (hparts : ∀ x ∈ e.kind.entered, Stays fs Γ x)
    (hselects : ∀ s ∈ e.kind.selects, select fs Γ s = .ok (s, none)) : expr fs Γ e = .ok (e, none) := by
  obtain ⟨info, kind⟩ := e
  cases kind with
  | ident name => exact absurd rfl (hident name)
  | call name args window =>
    obtain ⟨flags, hflags, hunion⟩ := hcall name args window rfl
    have hunion : info.flags.union flags = info.flags := hunion
    rw [expr, hflags, items_stay hparts]
    show Except.ok (Expr.node { info with flags := info.flags.union flags } _, none) = _
    rw [hunion]
  | column ref =>
    rw [expr, option_stays hparts]; rfl
  | aggCall | vector => rw [expr, items_stay hparts]; rfl
  | register | unary | collate | cast | ifNullRow => rw [expr, hparts _ (.head _)]; rfl
  | binary => rw [expr, hparts _ (.head _), hparts _ (.tail _ (.head _))]; rfl
  | between => rw [expr, hparts _ (.head _), hparts _ (.tail _ (.head _)), hparts _ (.tail _ (.tail _ (.head _)))]; rfl
  | caseOf base arms otherwise =>
    obtain ⟨⟨hbase, harms⟩, hotherwise⟩ := List.forall_mem_append.1 hparts |>.imp_left List.forall_mem_append.1
    rw [expr, option_stays hbase, arms_stay harms, option_stays hotherwise]; rfl
  | inList id operand list =>
    obtain ⟨hoperand, hlist⟩ := List.forall_mem_cons.1 hparts
    rw [expr, hoperand, items_stay hlist]; rfl
  | inSelect => rw [expr, hparts _ (.head _), hselects _ (.head _)]; rfl
  | hasRows | subquery => rw [expr, hselects _ (.head _)]; rfl
  | _ => rfl

theorem select_stays {s : Select} (hparts : ∀ x ∈ s.parts.clauses, Stays fs (s.parts.sources :: Γ) x)
    (hprior : ∀ p ∈ s.parts.prior, select fs (s.parts.sources :: Γ) p = .ok (p, none)) :
    select fs Γ s = .ok (s, none) := by
  obtain ⟨id, columns, sources, filter, groupBy, having, orderBy, limit, flags, prior⟩ := s
  have harm : optionSelect fs (sources :: Γ) prior = .ok (prior, none) := by
    cases prior with
    | none => rfl
    | some p =>
      rw [optionSelect, show select fs (sources :: Γ) p = _ from hprior p rfl]
      rfl
  simp only [SelectParts.clauses, List.forall_mem_append] at hparts
  obtain ⟨⟨⟨⟨⟨hcolumns, hfilter⟩, hhaving⟩, hlimit⟩, hgroupBy⟩, horderBy⟩ := hparts
  simp only [Select.parts] at *
  rw [select, items_stay hcolumns, option_stays hfilter, option_stays hhaving, option_stays hlimit,
    optionItems_stay hgroupBy, optionItems_stay horderBy, harm]
  rfl

/-- A resolved tree stays as it is, whatever the clauses around it. -/
theorem resolves_again (Δ : Scopes) (h : Resolves fs Γ t t' r) : Resolves fs Δ t' t' none := by
  induction t using Tree.induction generalizing Γ Δ t' r with
  | step t ih =>
    have hparts : ∀ u' ∈ t'.entered, ∀ Δ, Resolves fs Δ u' u' none := by
      intro u' hu' Δ
      obtain ⟨i, hi⟩ := List.getElem?_of_mem hu'
      obtain ⟨u, hu, _, _, hres⟩ := resolves_part h hi
      exact ih u (t.entered_subset (List.mem_of_getElem? hu)) Δ hres
    have hexpr (x : Expr) (hx : Tree.expr x ∈ t'.entered) (Δ : Scopes) : Stays fs Δ x := by
      cases hparts _ hx Δ
      assumption
    have hselect (s : Select) (hs : Tree.select s ∈ t'.entered) (Δ : Scopes) : select fs Δ s = .ok (s, none) := by
      cases hparts _ hs Δ
      assumption
    cases h with
    | expr h =>
      obtain ⟨hident, hcall⟩ := kept_of_expr h
      refine .expr (expr_stays hident (fun name args window hkind => ?_) (fun x hx => ?_) fun s hs => ?_)
      · obtain ⟨flags, hflags, hunion⟩ := hcall name args window hkind
        refine ⟨flags, hflags, ?_⟩
        rw [hunion]
        simp [ExprFlags.union]
      · exact hexpr x (List.mem_append_left _ (List.mem_map_of_mem hx)) Δ
      · exact hselect s (List.mem_append_right _ (List.mem_map_of_mem hs)) Δ
    | select h =>
      refine .select (select_stays (fun x hx => ?_) fun p hp => ?_)
      · exact hexpr x (List.mem_append_left _ (List.mem_map_of_mem hx)) _
      · exact hselect p (List.mem_append_right _ (List.mem_map_of_mem (Option.mem_toList.2 hp))) _

end Resolve

/-- A resolved expression holds no name. A call in it that was not marked as constant before is marked exactly if its
function is constant and no aggregate. Resolving it again leaves it as it is. -/
theorem Expr.resolve_complete {functions : Functions} {sources : List Source} {e e' : Expr}
    (h : e.resolve functions sources = .ok e') :
    (∀ place x', (Tree.expr e').at? place = some (.expr x') → (∀ name, x'.kind ≠ .ident name) ∧
        ∃ x, (Tree.expr e).at? place = some (.expr x) ∧ ∀ name args window, x'.kind = .call name args window →
          ∃ f, functions.find? name args.length = some f ∧ (x.flags.constantCall = false →
            (x'.flags.constantCall = true ↔ f.flags.constant = true ∧ f.flags.aggregate = false))) ∧
      e'.resolve functions sources = .ok e' := by
  unfold Expr.resolve at h
  cases hres : Resolve.expr functions [sources] e with
  | error err =>
    rw [hres] at h
    cases h
  | ok result =>
    rw [hres] at h
    cases h
    refine ⟨fun place x' hx' => ?_, ?_⟩
    · obtain ⟨u, hu, Δ, ρ, hres⟩ := Resolve.resolves_at (.expr hres) hx'
      cases hres with
      | @expr x _ _ hx =>
      obtain ⟨hident, hcall⟩ := Resolve.kept_of_expr hx
      refine ⟨hident, x, hu, fun name args window hkind => ?_⟩
      obtain ⟨flags, hflags, hunion⟩ := hcall name args window hkind
      unfold Resolve.callFlags at hflags
      split at hflags
      · rename_i f hf
        cases hflags
        refine ⟨f, hf, fun hbefore => ?_⟩
        rw [hunion]
        simp [ExprFlags.union, hbefore]
      · cases hflags
    · cases Resolve.resolves_again [sources] (.expr hres) with
      | expr h => rw [Expr.resolve, h]; rfl

namespace Example

def existsAbs : Expr :=
  .ofKind (.hasRows 0 (.mk
    { id := 0, columns := [⟨.ofKind (.call "abs" [⟨.ofKind (.ident "c"), false, 0⟩] none), false, 0⟩],
      sources := [source "t" "a" 1] }))

end Example

open Example in
/-- The call in the sub-select is marked as constant and its EXISTS as correlated. Both marks stay. -/
theorem Expr.resolve_complete_exists :
    ∃ x y, existsAbs.resolve .builtin [source "u" "c" 0] = .ok x ∧ (Tree.expr x).at? [0, 0] = some (.expr y) ∧
      x.flags.correlated = true ∧ y.flags.constantCall = true ∧ x.resolve .builtin [source "u" "c" 0] = .ok x := by
  obtain ⟨x, y, name, args, window, h, hy, hkind, hcorrelated, hf⟩ :
      ∃ x y name args window, existsAbs.resolve .builtin [source "u" "c" 0] = .ok x ∧
        (Tree.expr x).at? [0, 0] = some (.expr y) ∧ y.kind = .call name args window ∧ x.flags.correlated = true ∧
        ((Functions.builtin.find? name args.length).all fun f => f.flags.constant && !f.flags.aggregate) = true :=
    ⟨_, _, _, _, _, rfl, rfl, rfl, rfl, rfl⟩
  obtain ⟨hparts, hagain⟩ := Expr.resolve_complete h
  obtain ⟨-, z, hz, hcall⟩ := hparts [0, 0] y hy
  cases hz
  obtain ⟨f, hfind, hmark⟩ := hcall name args window hkind
  simp only [hfind, Option.all_some, Bool.and_eq_true, Bool.not_eq_true'] at hf
  exact ⟨x, y, h, hy, hcorrelated, (hmark rfl).2 hf, hagain⟩

end ScalarSql
