import ScalarSql.Proofs.Resolution.Arms

/-!
# Correlated sub-selects

A node that owns a sub-select is marked as correlated exactly if the sub-select holds a column of a FROM clause
around the node. Resolution decides this by numbers: each column reports how far out its clause is, each tree the
outermost clause of its parts, and a node is marked if its sub-select reports a clause outside of it. The numbers
stand for the columns as long as no clause shares a cursor with one around it, and as long as no name of an arm
of a compound is bound to the clause of a later arm, which is not around it (`Expr.marked_by_last_arm`).

`Parts` says what resolution does to the trees below one, and `resolves_cases` what it does to a tree. From these
follow `isBeyond_iff_reads`, for the number that a tree reports, and the statement about the marks.
-/

namespace ScalarSql

open ScalarSql.Expr

/-- A node of the kind is neither a name nor a call nor a column. -/
def Kind.Nameless {ε σ : Type} : Kind ε σ → Prop
  | .ident _ | .call _ _ _ | .column _ => False
  | _ => True

/-! ## Trees in their scopes -/

namespace Tree

open Resolve

/-- The FROM clauses in which the parts of a tree are resolved, also the arm before a sub-select. -/
def inner (Γ : Scopes) : Tree → Scopes
  | .expr _ => Γ
  | .select s => s.parts.sources :: Γ

/-- The FROM clauses around a part of a tree. That of a sub-select is around its expressions, but not around the arm
before it. -/
def around (Γ : Scopes) : Tree → Tree → Scopes
  | .select s, .expr _ => s.parts.sources :: Γ
  | _, _ => Γ

/-- The tree and all trees in it satisfy the condition, each with the FROM clauses around it. -/
inductive Every (p : Scopes → Tree → Prop) : Scopes → Tree → Prop
  | intro {Γ t} (here : p Γ t) (parts : ∀ u ∈ t.below, Every p (t.around Γ u) u) : Every p Γ t

/-- The first tree, with the clauses around it, holds the second one, with those around that. -/
inductive Holds : Scopes → Tree → Scopes → Tree → Prop
  | self {Γ t} : Holds Γ t Γ t
  | part {Γ t u Δ v} (hu : u ∈ t.below) (h : Holds (t.around Γ u) u Δ v) : Holds Γ t Δ v

variable {p : Scopes → Tree → Prop} {Γ Δ : Scopes} {t u : Tree}

theorem Every.here (h : t.Every p Γ) : p Γ t := by
  cases h
  assumption

theorem Every.parts (h : t.Every p Γ) : ∀ u ∈ t.below, u.Every p (t.around Γ u) := by
  cases h
  assumption

theorem Every.holds (h : t.Every p Γ) (hu : Holds Γ t Δ u) : u.Every p Δ := by
  induction hu with
  | self => exact h
  | part hu _ ih => exact ih (h.parts _ hu)

/-- The tree holds a column that is read by a cursor of one of the clauses. -/
def Reads (Γ : Scopes) (t : Tree) (clauses : Scopes) : Prop :=
  ∃ Δ x ref, Holds Γ t Δ (.expr x) ∧ x.kind = .column ref ∧ ∃ scope ∈ clauses, ref.cursor ∈ cursorsOf scope

/-- A tree before resolution: an expression is no column and not marked as correlated, and the cursors of a
sub-select are other ones than those of the clauses around it. -/
def Fresh (Γ : Scopes) : Tree → Prop
  | .expr e => e.flags.correlated = false ∧ ∀ ref, e.kind ≠ .column ref
  | .select s => ∀ n ∈ cursorsOf s.parts.sources, ∀ scope ∈ Γ, n ∉ cursorsOf scope

/-- The FROM clause of a sub-select has none of the names that the arm before it looks for outside of itself. -/
def ArmsApart : Tree → Prop
  | .expr _ => True
  | .select s => ∀ prior, s.parts.prior = some prior → ∀ name, (Tree.select prior).Free name →
    found name s.parts.sources = []

theorem Every.not_reads (h : t.Every Fresh Γ) (clauses : Scopes) : ¬Reads Γ t clauses := by
  rintro ⟨Δ, x, ref, hx, hkind, -⟩
  exact (h.holds hx).here.2 ref hkind

end Tree

namespace Resolve

/-- A tree is resolved to another one and reports the reach. -/
inductive Resolves (fs : Functions) (Γ : Scopes) : Tree → Tree → Reach → Prop
  | expr {e e' r} (h : expr fs Γ e = .ok (e', r)) : Resolves fs Γ (.expr e) (.expr e') r
  | select {s s' r} (h : select fs Γ s = .ok (s', r)) : Resolves fs Γ (.select s) (.select s') r

variable {fs : Functions} {Γ : Scopes} {t t' : Tree} {ts ts' us us' : List Tree} {r r' : Reach} {e : Expr}
  {s : Select} {name : String} {ref : ColumnRef Expr} {depth : Nat}

theorem Resolves.around_eq (h : Resolves fs Γ t t' r) (u : Tree) (Δ : Scopes) : u.around Δ t' = u.around Δ t := by
  cases u <;> cases h <;> rfl

/-- A part of a tree is resolved as in the clauses around it, and reaches as far among those around the tree. -/
theorem Resolves.around {u u' : Tree} (h : Resolves fs (t.inner Γ) u u' r) (hu : u ∈ t.below) (harms : t.ArmsApart) :
    ∃ ρ, Resolves fs (t.around Γ u) u u' ρ ∧ ∀ n ≤ Γ.length, ρ.isBeyond n = r.isBeyond n := by
  cases t with
  | expr e => exact ⟨r, h, fun _ _ => rfl⟩
  | select s =>
    cases h with
    | expr h => exact ⟨r, .expr h, fun _ _ => rfl⟩
    | @select prior prior' r h =>
      have hprior : s.parts.prior = some prior := by simpa [Tree.below] using hu
      have hinsert : Resolve.select fs (s.parts.sources :: Γ) prior = inserted Γ (Resolve.select fs Γ prior) :=
        (tree_insert fs s.parts.sources Γ (.select prior) [] fun name h => .inr (harms prior hprior name h)).2 prior rfl
      rw [Tree.inner, hinsert] at h
      cases hres : Resolve.select fs Γ prior with
      | error err =>
        rw [hres] at h
        cases h
      | ok result =>
        rw [hres] at h
        cases h
        exact ⟨result.2, .select hres, fun n hn => (Reach.isBeyond_insert_of_le hn).symm⟩

/-- A list of trees becomes another one, tree by tree, and they report the reach of all together. -/
inductive Parts (fs : Functions) (Γ : Scopes) : List Tree → List Tree → Reach → Prop
  | nil : Parts fs Γ [] [] none
  | cons {t t' ts ts' a b} (h : Resolves fs Γ t t' a) (hs : Parts fs Γ ts ts' b) :
    Parts fs Γ (t :: ts) (t' :: ts') (a.join b)

namespace Parts

theorem single (h : Resolves fs Γ t t' r) : Parts fs Γ [t] [t'] r := by simpa using cons h nil

variable (h : Parts fs Γ ts ts' r)

include h

theorem append (h' : Parts fs Γ us us' r') : Parts fs Γ (ts ++ us) (ts' ++ us') (r.join r') := by
  induction h with
  | nil => exact h'
  | cons hres _ ih =>
    rw [Reach.join_assoc]
    exact .cons hres ih

/-- The tree in a place comes from the one that was there before, and reaches no further than all together. -/
theorem at_place {i : Nat} (hi : ts'[i]? = some t') :
    ∃ t, ts[i]? = some t ∧ ∃ ρ, Resolves fs Γ t t' ρ ∧ ∀ d, ρ.isBeyond d → r.isBeyond d := by
  induction h generalizing i with
  | nil => cases hi
  | @cons t _ _ _ a _ hres _ ih =>
    cases i with
    | zero =>
      cases hi
      exact ⟨t, rfl, a, hres, fun d hd => by simp [Reach.isBeyond_join, hd]⟩
    | succ i =>
      obtain ⟨u, hu, ρ, hρ, hle⟩ := ih hi
      exact ⟨u, hu, ρ, hρ, fun d hd => by simp [Reach.isBeyond_join, hle d hd]⟩

theorem origin (ht' : t' ∈ ts') : ∃ t ∈ ts, ∃ ρ, Resolves fs Γ t t' ρ ∧ ∀ d, ρ.isBeyond d → r.isBeyond d := by
  obtain ⟨i, hi⟩ := List.getElem?_of_mem ht'
  obtain ⟨t, ht, hres⟩ := h.at_place hi
  exact ⟨t, List.mem_of_getElem? ht, hres⟩

theorem reach {d : Nat} (hd : r.isBeyond d) : ∃ t ∈ ts, ∃ t' ∈ ts', ∃ ρ, Resolves fs Γ t t' ρ ∧ ρ.isBeyond d := by
  induction h with
  | nil => cases hd
  | @cons t t' _ _ a _ hres _ ih =>
    rw [Reach.isBeyond_join, Bool.or_eq_true] at hd
    rcases hd with hd | hd
    · exact ⟨t, List.mem_cons_self, t', List.mem_cons_self, a, hres, hd⟩
    · obtain ⟨u, hu, u', hu', hρ⟩ := ih hd
      exact ⟨u, List.mem_cons_of_mem _ hu, u', List.mem_cons_of_mem _ hu', hρ⟩

end Parts

theorem bind_eq_ok {α β : Type} {x : Except CompileError α} {f : α → Except CompileError β} {b : β}
    (h : (x >>= f) = .ok b) : ∃ a, x = .ok a ∧ f a = .ok b := by
  cases x with
  | error e => cases h
  | ok a => exact ⟨a, rfl, h⟩

/-! ## Lists and options -/

theorem parts_option {o o' : Option Expr} (h : option fs Γ o = .ok (o', r)) :
    Parts fs Γ (o.toList.map .expr) (o'.toList.map .expr) r := by
  cases o with
  | none =>
    cases h
    exact .nil
  | some e =>
    obtain ⟨⟨e', r⟩, he, h⟩ := bind_eq_ok h
    cases h
    exact .single (.expr he)

theorem parts_items {list list' : List (Item Expr)} (h : items fs Γ list = .ok (list', r)) :
    Parts fs Γ ((list.map (·.expr)).map .expr) ((list'.map (·.expr)).map .expr) r := by
  induction list generalizing list' r with
  | nil =>
    cases h
    exact .nil
  | cons item rest ih =>
    obtain ⟨⟨e', a⟩, he, h⟩ := bind_eq_ok h
    obtain ⟨⟨rest', b⟩, hrest, h⟩ := bind_eq_ok h
    cases h
    exact (Parts.single (.expr he)).append (ih hrest)

theorem items_length {list list' : List (Item Expr)} (h : items fs Γ list = .ok (list', r)) :
    list'.length = list.length := by
  induction list generalizing list' r with
  | nil =>
    cases h
    rfl
  | cons item rest ih =>
    obtain ⟨⟨e', a⟩, -, h⟩ := bind_eq_ok h
    obtain ⟨⟨rest', b⟩, hrest, h⟩ := bind_eq_ok h
    cases h
    rw [List.length_cons, List.length_cons, ih hrest]

theorem parts_optionItems {o o' : Option (List (Item Expr))} (h : optionItems fs Γ o = .ok (o', r)) :
    Parts fs Γ (((o.getD []).map (·.expr)).map .expr) (((o'.getD []).map (·.expr)).map .expr) r := by
  cases o with
  | none =>
    cases h
    exact .nil
  | some list =>
    obtain ⟨⟨list', r⟩, hlist, h⟩ := bind_eq_ok h
    cases h
    exact parts_items hlist

theorem parts_arms {arms arms' : List (Expr × Expr)} (h : armsOf fs Γ arms = .ok (arms', r)) :
    Parts fs Γ ((arms.flatMap fun arm => [arm.1, arm.2]).map .expr)
      ((arms'.flatMap fun arm => [arm.1, arm.2]).map .expr) r := by
  induction arms generalizing arms' r with
  | nil =>
    cases h
    exact .nil
  | cons arm rest ih =>
    obtain ⟨⟨condition, a⟩, hcondition, h⟩ := bind_eq_ok h
    obtain ⟨⟨result, b⟩, hresult, h⟩ := bind_eq_ok h
    obtain ⟨⟨rest', c⟩, hrest, h⟩ := bind_eq_ok h
    cases h
    exact ((Parts.single (.expr hcondition)).append (.single (.expr hresult))).append (ih hrest)

theorem parts_optionSelect {o o' : Option Select} (h : optionSelect fs Γ o = .ok (o', r)) :
    Parts fs Γ (o.toList.map .select) (o'.toList.map .select) r := by
  cases o with
  | none =>
    cases h
    exact .nil
  | some s =>
    obtain ⟨⟨s', r⟩, hs, h⟩ := bind_eq_ok h
    cases h
    exact .single (.select hs)

/-! ## Nodes and sub-selects -/

theorem correlated_markCorrelated (info : NodeInfo) (Γ : Scopes) (r : Reach) :
    (markCorrelated info Γ r).flags.correlated ↔ info.flags.correlated ∨ r.isBeyond Γ.length := by
  unfold markCorrelated
  split <;> simp_all [ExprFlags.union]

theorem markCorrelated_cases (info : NodeInfo) (Γ : Scopes) (r : Reach) : markCorrelated info Γ r = info ∨
    markCorrelated info Γ r = { info with flags := info.flags.union { correlated := true } } := by
  unfold markCorrelated
  split <;> simp

/-- What becomes of a node, without its parts. -/
inductive Kept (fs : Functions) : Expr → Expr → Prop
  | call {info name args args' window flags} (hflags : callFlags fs name args'.length = .ok flags) :
    Kept fs (.node info (.call name args window))
      (.node { info with flags := info.flags.union flags } (.call name args' window))
  | column {info ref ref'} : Kept fs (.node info (.column ref)) (.node info (.column ref'))
  /-- Any other node gets the mark of a correlated sub-select at most. -/
  | other {info info' kind kind'} (hkind : kind'.Nameless)
      (hinfo : info' = info ∨ info' = { info with flags := info.flags.union { correlated := true } }) :
    Kept fs (.node info kind) (.node info' kind')

theorem Kept.column_of_column {e' : Expr} (h : Kept fs e e') (hkind : e'.kind = .column ref) :
    ∃ ref', e.kind = .column ref' := by
  cases h with
  | call => cases hkind
  | column => exact ⟨_, rfl⟩
  | other hnameless =>
    cases hkind
    exact hnameless.elim

/-- A node becomes one with its parts resolved. The mark of a sub-select depends on how far out the sub-select
reaches. -/
structure Rebuilt (fs : Functions) (Γ : Scopes) (e e' : Expr) (r : Reach) : Prop where
  parts : Parts fs Γ (Tree.expr e).entered (Tree.expr e').entered r
  rest : ∀ u ∈ (Tree.expr e').below, u ∈ (Tree.expr e').entered ∨ u ∈ (Tree.expr e).below
  node : Kept fs e e'
  marked : ∀ s' ∈ e'.kind.selects, ∃ s ∈ e.kind.selects, ∃ ρ, select fs Γ s = .ok (s', ρ) ∧
    (e'.flags.correlated = true ↔ e.flags.correlated = true ∨ ρ.isBeyond Γ.length = true)
  shape : e'.kind.ownFlags = e.kind.ownFlags ∧ e'.kind.outside = e.kind.outside

theorem expr_cases {e' : Expr} (h : expr fs Γ e = .ok (e', r)) :
    (∃ name ref depth, lookup name Γ = .ok (ref, depth) ∧ e' = (ofKind (.column ref)).withFlags e.flags ∧
        r = some depth ∧ e.kind = .ident name) ∨ Rebuilt fs Γ e e' r := by
  obtain ⟨info, kind⟩ := e
  cases kind with
  | ident name =>
    simp only [expr] at h
    cases htruth : truthName? (.node info (.ident name)) with
    | some b =>
      rw [htruth] at h
      cases h
      exact .inr ⟨.nil, fun _ => .inl, .other trivial (.inl rfl), List.forall_mem_nil _, rfl, rfl⟩
    | none =>
      rw [htruth] at h
      obtain ⟨⟨ref, depth⟩, hfound, h⟩ := bind_eq_ok h
      cases h
      exact .inl ⟨name, ref, depth, hfound, rfl, rfl, rfl⟩
  | call name args window =>
    obtain ⟨flags, hflags, h⟩ := bind_eq_ok h
    obtain ⟨⟨args', r⟩, hargs, h⟩ := bind_eq_ok h
    cases h
    refine .inr ⟨?_, fun u hu => ?_, .call (items_length hargs ▸ hflags), List.forall_mem_nil _, rfl, rfl⟩
    · simpa [Tree.entered, kind, Kind.entered, Kind.children, Kind.selects] using parts_items hargs
    · simp only [Tree.below, Tree.entered, kind, Kind.subexpressions, Kind.entered, Kind.children, Kind.selects,
        List.map_append, List.mem_append] at hu ⊢
      exact hu.elim (.imp .inl fun hu => .inl (.inr hu)) fun hu => .inl (.inr hu)
  | column ref =>
    obtain ⟨⟨fixed, r⟩, hfixed, h⟩ := bind_eq_ok h
    cases h
    refine .inr ⟨?_, fun _ => .inl, .column, List.forall_mem_nil _, rfl, rfl⟩
    simpa [Tree.entered, kind, Kind.entered, Kind.children, Kind.selects] using parts_option hfixed
  | register reg operand | unary op operand | collate operand name | cast operand type | ifNullRow cursor operand =>
    obtain ⟨⟨operand', r⟩, hoperand, h⟩ := bind_eq_ok h
    cases h
    exact .inr ⟨.single (.expr hoperand), fun _ => .inl, .other trivial (.inl rfl), List.forall_mem_nil _, rfl, rfl⟩
  | binary op left right =>
    obtain ⟨⟨left', a⟩, hleft, h⟩ := bind_eq_ok h
    obtain ⟨⟨right', b⟩, hright, h⟩ := bind_eq_ok h
    cases h
    exact .inr ⟨(Parts.single (.expr hleft)).append (.single (.expr hright)), fun _ => .inl, .other trivial (.inl rfl),
      List.forall_mem_nil _, rfl, rfl⟩
  | caseOf base arms otherwise =>
    obtain ⟨⟨base', a⟩, hbase, h⟩ := bind_eq_ok h
    obtain ⟨⟨arms', b⟩, harms, h⟩ := bind_eq_ok h
    obtain ⟨⟨otherwise', c⟩, hotherwise, h⟩ := bind_eq_ok h
    cases h
    refine .inr ⟨?_, fun _ => .inl, .other trivial (.inl rfl), List.forall_mem_nil _, rfl, rfl⟩
    have hparts := ((parts_option hbase).append (parts_arms harms)).append (parts_option hotherwise)
    simpa [Tree.entered, kind, Kind.entered, Kind.children, Kind.selects] using hparts
  | between operand low high =>
    obtain ⟨⟨operand', a⟩, hoperand, h⟩ := bind_eq_ok h
    obtain ⟨⟨low', b⟩, hlow, h⟩ := bind_eq_ok h
    obtain ⟨⟨high', c⟩, hhigh, h⟩ := bind_eq_ok h
    cases h
    exact .inr ⟨((Parts.single (.expr hoperand)).append (.single (.expr hlow))).append (.single (.expr hhigh)),
      fun _ => .inl, .other trivial (.inl rfl), List.forall_mem_nil _, rfl, rfl⟩
  | inList id operand list =>
    obtain ⟨⟨operand', a⟩, hoperand, h⟩ := bind_eq_ok h
    obtain ⟨⟨list', b⟩, hlist, h⟩ := bind_eq_ok h
    cases h
    refine .inr ⟨?_, fun _ => .inl, .other trivial (.inl rfl), List.forall_mem_nil _, rfl, rfl⟩
    have hparts := (Parts.single (.expr hoperand)).append (parts_items hlist)
    simpa [Tree.entered, kind, Kind.entered, Kind.children, Kind.selects] using hparts
  | inSelect id operand sub =>
    obtain ⟨⟨operand', a⟩, hoperand, h⟩ := bind_eq_ok h
    obtain ⟨⟨sub', b⟩, hsub, h⟩ := bind_eq_ok h
    cases h
    exact .inr ⟨(Parts.single (.expr hoperand)).append (.single (.select hsub)), fun _ => .inl,
      .other trivial (markCorrelated_cases info Γ b),
      List.forall_mem_singleton.2 ⟨sub, List.mem_singleton_self sub, b, hsub, correlated_markCorrelated info Γ b⟩,
      rfl, rfl⟩
  | hasRows id sub | subquery id sub =>
    obtain ⟨⟨sub', r⟩, hsub, h⟩ := bind_eq_ok h
    cases h
    exact .inr ⟨.single (.select hsub), fun _ => .inl, .other trivial (markCorrelated_cases info Γ r),
      List.forall_mem_singleton.2 ⟨sub, List.mem_singleton_self sub, r, hsub, correlated_markCorrelated info Γ r⟩,
      rfl, rfl⟩
  | aggCall _ _ list | vector list =>
    obtain ⟨⟨list', r⟩, hlist, h⟩ := bind_eq_ok h
    cases h
    refine .inr ⟨?_, fun _ => .inl, .other trivial (.inl rfl), List.forall_mem_nil _, rfl, rfl⟩
    simpa [Tree.entered, kind, Kind.entered, Kind.children, Kind.selects] using parts_items hlist
  | selectColumn | aggColumn =>
    cases h
    exact .inr ⟨.nil, fun _ => .inr, .other trivial (.inl rfl), List.forall_mem_nil _, rfl, rfl⟩
  | _ =>
    cases h
    exact .inr ⟨.nil, fun _ => .inl, .other trivial (.inl rfl), List.forall_mem_nil _, rfl, rfl⟩

theorem select_cases {s' : Select} (h : select fs Γ s = .ok (s', r)) : s'.parts.sources = s.parts.sources ∧
      Parts fs (s.parts.sources :: Γ) (Tree.select s).entered (Tree.select s').entered r := by
  obtain ⟨id, columns, sources, filter, groupBy, having, orderBy, limit, flags, prior⟩ := s
  obtain ⟨⟨columns', a⟩, hcolumns, h⟩ := bind_eq_ok h
  obtain ⟨⟨filter', b⟩, hfilter, h⟩ := bind_eq_ok h
  obtain ⟨⟨having', c⟩, hhaving, h⟩ := bind_eq_ok h
  obtain ⟨⟨limit', d⟩, hlimit, h⟩ := bind_eq_ok h
  obtain ⟨⟨groupBy', e⟩, hgroupBy, h⟩ := bind_eq_ok h
  obtain ⟨⟨orderBy', f⟩, horderBy, h⟩ := bind_eq_ok h
  obtain ⟨⟨prior', g⟩, hprior, h⟩ := bind_eq_ok h
  cases h
  refine ⟨rfl, ?_⟩
  have hparts := ((((((parts_items hcolumns).append (parts_option hfilter)).append (parts_option hhaving)).append
    (parts_option hlimit)).append (parts_optionItems hgroupBy)).append (parts_optionItems horderBy)).append
    (parts_optionSelect hprior)
  simpa [Tree.entered, Select.parts, SelectParts.clauses] using hparts

theorem resolves_cases (h : Resolves fs Γ t t' r) :
    (∃ name ref depth e', lookup name Γ = .ok (ref, depth) ∧ t' = .expr e' ∧ e'.kind = .column ref ∧ r = some depth) ∨
      (∀ u, t'.around Γ u = t.around Γ u) ∧ Parts fs (t.inner Γ) t.entered t'.entered r ∧
        (∀ u ∈ t'.below, u ∈ t'.entered ∨ u ∈ t.below) ∧
          ∀ e', t' = .expr e' → ∃ e, t = .expr e ∧ Rebuilt fs Γ e e' r := by
  cases h with
  | @expr e e' r h =>
    refine (expr_cases h).imp ?_ fun hnode => ?_
    · rintro ⟨name, ref, depth, hfound, rfl, hr, -⟩
      exact ⟨name, ref, depth, _, hfound, rfl, rfl, hr⟩
    · refine ⟨fun _ => rfl, hnode.parts, hnode.rest, ?_⟩
      rintro _ ⟨⟩
      exact ⟨e, rfl, hnode⟩
  | select h =>
    obtain ⟨hsources, hparts⟩ := select_cases h
    refine .inr ⟨fun u => ?_, hparts, fun _ => .inl, by rintro _ ⟨⟩⟩
    cases u <;> simp only [Tree.around, hsources]

/-! ## Reach and columns -/

/-- No cursor of the inner clauses is one of the outer clauses. -/
def ClausesApart (inner outer : Scopes) : Prop :=
  ∀ scope ∈ inner, ∀ n ∈ cursorsOf scope, ∀ scope' ∈ outer, n ∉ cursorsOf scope'

variable {inner outer : Scopes}

/-- The number that a name reports says whether its column is one of the inner or of the outer clauses. -/
theorem lookup_append (h : lookup name (inner ++ outer) = .ok (ref, depth)) :
    (depth < outer.length ∧ ∃ scope ∈ outer, ref.cursor ∈ cursorsOf scope) ∨
      outer.length ≤ depth ∧ ∃ scope ∈ inner, ref.cursor ∈ cursorsOf scope := by
  obtain ⟨before, scope, after, hsplit, rfl, hone⟩ := exists_of_lookup h
  have hcursor := (found_mem (hone ▸ List.mem_singleton_self ref)).1
  obtain ⟨mid, rfl, rfl⟩ | ⟨mid, rfl, hmid⟩ := List.append_eq_append_iff.1 hsplit
  · refine .inl ⟨?_, scope, by simp, hcursor⟩
    simp only [List.length_append, List.length_cons]
    omega
  · cases mid with
    | nil =>
      obtain rfl : scope :: after = outer := hmid
      exact .inl ⟨by simp, scope, List.mem_cons_self, hcursor⟩
    | cons _ mid =>
      obtain ⟨rfl, rfl⟩ := List.cons.inj hmid
      exact .inr ⟨by simp, scope, by simp, hcursor⟩

theorem below_of_lookup (h : lookup name Γ = .ok (ref, depth)) (hkind : e.kind = .column ref) :
    (Tree.expr e).below = [] := by
  obtain ⟨before, scope, after, -, -, hone⟩ := exists_of_lookup h
  have hfixed := (found_mem (hone ▸ List.mem_singleton_self ref)).2
  simp [Tree.below, hkind, Kind.subexpressions, Kind.children, Kind.selects, hfixed]

theorem exists_around_append (u : Tree) (hfresh : t.Fresh (inner ++ outer)) (hapart : ClausesApart inner outer) :
    ∃ inner', t.around (inner ++ outer) u = inner' ++ outer ∧ ClausesApart inner' outer := by
  cases t with
  | expr e => exact ⟨inner, rfl, hapart⟩
  | select s =>
    cases u with
    | expr e =>
      refine ⟨s.parts.sources :: inner, rfl, List.forall_mem_cons.2 ⟨fun n hn scope hscope => ?_, hapart⟩⟩
      exact hfresh n hn scope (List.mem_append_right _ hscope)
    | select prior => exact ⟨inner, rfl, hapart⟩

/-- A resolved tree reaches beyond the inner clauses exactly if it holds a column of the outer ones. -/
theorem isBeyond_iff_reads (inner outer : Scopes) (h : Resolves fs (inner ++ outer) t t' r)
    (hfresh : t.Every Tree.Fresh (inner ++ outer)) (harms : t.Every (fun _ => Tree.ArmsApart) (inner ++ outer))
    (hapart : ClausesApart inner outer) : r.isBeyond outer.length ↔ t'.Reads (inner ++ outer) outer := by
  induction t using Tree.induction generalizing inner t' r with
  | step t ih =>
    obtain ⟨name, ref, depth, e', hfound, rfl, hkind, rfl⟩ | ⟨haround, hparts, hrest, hnode⟩ := resolves_cases h
    · -- The tree is one column, and its clause decides.
      rw [Reach.isBeyond_some, decide_eq_true_eq]
      constructor
      · intro hlt
        obtain ⟨-, hscope⟩ | ⟨hle, -⟩ := lookup_append hfound
        · exact ⟨_, e', ref, .self, hkind, hscope⟩
        · omega
      · rintro ⟨Δ, x, ref', hx, hkind', scope, hscope, hcursor⟩
        obtain ⟨hlt, -⟩ | ⟨-, scope', hscope', hcursor'⟩ := lookup_append hfound
        · exact hlt
        · cases hx with
          | self =>
            obtain rfl : ref = ref' := by simpa [hkind] using hkind'
            exact absurd hcursor (hapart scope' hscope' ref.cursor hcursor' scope hscope)
          | part hu _ => simp [below_of_lookup hfound hkind] at hu
    · have hpart {u u' : Tree} {ρ : Reach} (hu : u ∈ t.entered) (hres : Resolves fs (t.inner (inner ++ outer)) u u' ρ) :
          ρ.isBeyond outer.length ↔ u'.Reads (t'.around (inner ++ outer) u') outer := by
        have hu := t.entered_subset hu
        obtain ⟨ρ', hres', hsame⟩ := hres.around hu harms.here
        obtain ⟨inner', heq, hapart'⟩ := exists_around_append u hfresh.here hapart
        rw [← hsame _ (by simp), haround, hres.around_eq]
        have hfresh' := hfresh.parts u hu
        have harms' := harms.parts u hu
        rw [heq] at hres' hfresh' harms' ⊢
        exact ih u hu inner' hres' hfresh' harms' hapart'
      constructor
      · intro hbeyond
        obtain ⟨u, hu, u', hu', ρ, hres, hρ⟩ := hparts.reach hbeyond
        obtain ⟨Δ, x, ref, hx, hkind, hscope⟩ := (hpart hu hres).1 hρ
        exact ⟨Δ, x, ref, .part (t'.entered_subset hu') hx, hkind, hscope⟩
      · rintro ⟨Δ, x, ref, hx, hkind, hscope⟩
        cases hx with
        | self =>
          -- A column would have been one before.
          obtain ⟨e, rfl, hrebuilt⟩ := hnode x rfl
          obtain ⟨ref', hcolumn⟩ := hrebuilt.node.column_of_column hkind
          exact absurd hcolumn (hfresh.here.2 ref')
        | part hu' hx =>
          obtain hnew | hkept := hrest _ hu'
          · obtain ⟨u, hu, ρ, hres, hle⟩ := hparts.origin hnew
            exact hle _ ((hpart hu hres).2 ⟨Δ, x, ref, hx, hkind, hscope⟩)
          · rw [haround] at hx
            exact absurd ⟨Δ, x, ref, hx, hkind, hscope⟩ ((hfresh.parts _ hkept).not_reads outer)

/-- In a resolved tree a node is marked exactly if its sub-select holds a column of a clause around the node. -/
theorem correlated_iff_reads {Δ : Scopes} {x : Expr} (h : Resolves fs Γ t t' r) (hfresh : t.Every Tree.Fresh Γ)
    (harms : t.Every (fun _ => Tree.ArmsApart) Γ) (hx : Tree.Holds Γ t' Δ (.expr x)) (hs : s ∈ x.kind.selects) :
    x.flags.correlated ↔ (Tree.select s).Reads Δ Δ := by
  induction t using Tree.induction generalizing Γ t' r with
  | step t ih =>
    obtain ⟨name, ref, depth, e', hfound, rfl, hkind, rfl⟩ | ⟨haround, hparts, hrest, hnode⟩ := resolves_cases h
    · -- A column that was found owns no sub-select and has no parts.
      cases hx with
      | self => simp [hkind, Kind.selects] at hs
      | part hu _ => simp [below_of_lookup hfound hkind] at hu
    · cases hx with
      | self =>
        obtain ⟨e, rfl, hrebuilt⟩ := hnode x rfl
        obtain ⟨s0, hs0, ρ, hres, hmark⟩ := hrebuilt.marked s hs
        have hpart : Tree.select s0 ∈ (Tree.expr e).below := List.mem_append_right _ (List.mem_map_of_mem hs0)
        rw [hmark, hfresh.here.1]
        simpa using isBeyond_iff_reads [] Δ (.select hres) (hfresh.parts _ hpart) (harms.parts _ hpart)
          (List.forall_mem_nil _)
      | part hu' hx =>
        rw [haround] at hx
        obtain hnew | hkept := hrest _ hu'
        · obtain ⟨u, hu, ρ, hres, -⟩ := hparts.origin hnew
          have hu := t.entered_subset hu
          rw [hres.around_eq] at hx
          obtain ⟨ρ', hres', -⟩ := hres.around hu harms.here
          exact ih u hu hres' (hfresh.parts u hu) (harms.parts u hu) hx
        · -- A tree that was not entered has neither marks nor columns.
          have hfresh' := (hfresh.parts _ hkept).holds hx
          have hpart : Tree.select s ∈ (Tree.expr x).below := List.mem_append_right _ (List.mem_map_of_mem hs)
          have hnone : ¬(Tree.select s).Reads Δ Δ := (hfresh'.parts _ hpart).not_reads Δ
          simp [hfresh'.here.1, hnone]

end Resolve

/-- After resolution a node with a sub-select is marked as correlated exactly if the sub-select holds a column that
is read by a cursor of a FROM clause around the node, where no arm of a compound looks for a name that a later
arm has. -/
theorem Expr.correlated_iff_outer_column {functions : Functions} {sources : List Source} {e e' x : Expr}
    {Δ : Resolve.Scopes} {s : Select} (h : e.resolve functions sources = .ok e')
    (hfresh : (Tree.expr e).Every Tree.Fresh [sources])
    (harms : (Tree.expr e).Every (fun _ => Tree.ArmsApart) [sources])
    (hx : Tree.Holds [sources] (.expr e') Δ (.expr x)) (hs : s ∈ x.kind.selects) :
    x.flags.correlated = true ↔
      ∃ Θ y ref, Tree.Holds Δ (.select s) Θ (.expr y) ∧ y.kind = .column ref ∧
        ∃ scope ∈ Δ, ref.cursor ∈ Resolve.cursorsOf scope := by
  unfold Expr.resolve at h
  cases hres : Resolve.expr functions [sources] e with
  | error err =>
    rw [hres] at h
    cases h
  | ok result =>
    rw [hres] at h
    cases h
    exact Resolve.correlated_iff_reads (.expr hres) hfresh harms hx hs

namespace Example

/-- EXISTS (SELECT c FROM w UNION SELECT c FROM t WHERE EXISTS (SELECT b FROM v)). -/
def existsNested : Expr :=
  .ofKind (.hasRows 0 (.mk
    { id := 0, columns := [⟨.ofKind (.ident "c"), false, 0⟩], sources := [source "t" "a" 1],
      filter := some (.ofKind (.hasRows 1 (selecting "b" (source "v" "b" 2) none))),
      prior := some (selecting "c" (source "w" "d" 3) none) }))

theorem ident_fresh (Γ : Resolve.Scopes) (name : String) : (Tree.expr (.ofKind (.ident name))).Every Tree.Fresh Γ :=
  .intro ⟨rfl, by rintro _ ⟨⟩⟩ (List.forall_mem_nil _)

theorem selecting_fresh {Γ : Resolve.Scopes} {name table column : String} {cursor : Int}
    (h : ∀ scope ∈ Γ, cursor ∉ Resolve.cursorsOf scope) :
    (Tree.select (selecting name (source table column cursor) none)).Every Tree.Fresh Γ :=
  .intro (List.forall_mem_singleton.2 h) (List.forall_mem_singleton.2 (ident_fresh _ _))

theorem existsNested_fresh : (Tree.expr existsNested).Every Tree.Fresh [[source "u" "c" 0]] := by
  have hout (n : Int) (hn : n ≠ 0) : ∀ scope ∈ [[source "u" "c" 0]], n ∉ Resolve.cursorsOf scope := by
    simp [Resolve.cursorsOf, source, hn.symm]
  refine .intro ⟨rfl, by rintro _ ⟨⟩⟩ (List.forall_mem_singleton.2 (.intro ?_ ?_))
  · exact List.forall_mem_singleton.2 (hout 1 (by decide))
  refine List.forall_mem_cons.2 ⟨ident_fresh _ _, List.forall_mem_cons.2 ⟨.intro ⟨rfl, by rintro _ ⟨⟩⟩ ?_,
    List.forall_mem_singleton.2 (selecting_fresh (hout 3 (by decide)))⟩⟩
  exact List.forall_mem_singleton.2 (selecting_fresh (List.forall_mem_cons.2 ⟨by decide, hout 2 (by decide)⟩))

theorem ident_armsApart (Γ : Resolve.Scopes) (name : String) :
    (Tree.expr (.ofKind (.ident name))).Every (fun _ => Tree.ArmsApart) Γ :=
  .intro trivial (List.forall_mem_nil _)

theorem selecting_armsApart (Γ : Resolve.Scopes) (name : String) (source : Source) :
    (Tree.select (selecting name source none)).Every (fun _ => Tree.ArmsApart) Γ :=
  .intro (by rintro _ ⟨⟩) (List.forall_mem_singleton.2 (ident_armsApart _ _))

theorem existsNested_armsApart : (Tree.expr existsNested).Every (fun _ => Tree.ArmsApart) [[source "u" "c" 0]] := by
  refine .intro trivial (List.forall_mem_singleton.2 (.intro ?_ ?_))
  · rintro _ ⟨⟩ name hfree
    cases hfree with
    | select hmiss hu h =>
      obtain rfl := List.mem_singleton.1 hu
      cases h with
      | ident h => rfl
      | expr hu h => cases hu
  · refine List.forall_mem_cons.2 ⟨ident_armsApart _ _, List.forall_mem_cons.2 ⟨.intro trivial ?_,
      List.forall_mem_singleton.2 (selecting_armsApart _ _ _)⟩⟩
    exact List.forall_mem_singleton.2 (selecting_armsApart _ _ _)

/-- EXISTS (SELECT EXISTS (SELECT a) FROM v UNION SELECT a FROM t). -/
def existsInFirstArm : Expr :=
  .ofKind (.hasRows 0 (selecting "a" (source "t" "a" 2) (some (.mk
    { id := 1, sources := [source "v" "b" 1],
      columns := [⟨.ofKind (.hasRows 1 (.mk
        { id := 2, columns := [⟨.ofKind (.ident "a"), false, 0⟩], sources := [] })), false, 0⟩] }))))

end Example

open Example in
/-- The outer EXISTS reads c of the table around it and is marked; the inner one reads its own table only. -/
theorem Expr.correlated_iff_outer_column_nested :
    ∃ x y s s', existsNested.resolve ⟨[]⟩ [source "u" "c" 0] = .ok x ∧ x.kind = .hasRows 0 s ∧
      s.parts.filter = some y ∧ y.kind = .hasRows 1 s' ∧
      (x.flags.correlated = true ∧ (Tree.select s).Reads [[source "u" "c" 0]] [[source "u" "c" 0]]) ∧
      (y.flags.correlated = false ∧ ¬(Tree.select s').Reads [[source "t" "a" 1], [source "u" "c" 0]]
        [[source "t" "a" 1], [source "u" "c" 0]]) := by
  obtain ⟨x, y, s, s', h, hx, hsources, hy, hs', hmarked, hplain⟩ :
      ∃ x y s s', existsNested.resolve ⟨[]⟩ [source "u" "c" 0] = .ok x ∧ x.kind = .hasRows 0 s ∧
        s.parts.sources = [source "t" "a" 1] ∧ s.parts.filter = some y ∧ y.kind = .hasRows 1 s' ∧
        x.flags.correlated = true ∧ y.flags.correlated = false :=
    ⟨_, _, _, _, rfl, rfl, rfl, rfl, rfl, rfl, rfl⟩
  refine ⟨x, y, s, s', h, hx, hy, hs', ⟨hmarked, ?_⟩, hplain, fun hreads => ?_⟩
  · exact (Expr.correlated_iff_outer_column h existsNested_fresh existsNested_armsApart .self
      (by simp [hx, Kind.selects])).1 hmarked
  · have hs : Tree.select s ∈ (Tree.expr x).below := by simp [Tree.below, hx, Kind.selects]
    have hfilter : Tree.expr y ∈ (Tree.select s).below := by simp [Tree.below, SelectParts.clauses, hy]
    have hholds : Tree.Holds [[source "u" "c" 0]] (.expr x) [[source "t" "a" 1], [source "u" "c" 0]] (.expr y) := by
      refine .part hs (.part hfilter ?_)
      simp only [Tree.around, hsources]
      exact .self
    have hmark := (Expr.correlated_iff_outer_column h existsNested_fresh existsNested_armsApart hholds
      (by simp [hs', Kind.selects])).2 hreads
    simp [hplain] at hmark

open Example in
/-- The name in the first arm is bound to the table of the last one. So the EXISTS in the first arm is marked, although
it reads no table around it. -/
theorem Expr.marked_by_last_arm :
    ∃ x y s s' prior, existsInFirstArm.resolve ⟨[]⟩ [source "u" "c" 0] = .ok x ∧ x.kind = .hasRows 0 s ∧
      s.parts.prior = some prior ∧ prior.parts.columns = [⟨y, false, 0⟩] ∧ y.kind = .hasRows 1 s' ∧
      y.flags.correlated = true ∧
      Tree.Holds [[source "u" "c" 0]] (.expr x) [[source "v" "b" 1], [source "u" "c" 0]] (.expr y) ∧
      ¬(Tree.select s').Reads [[source "v" "b" 1], [source "u" "c" 0]] [[source "v" "b" 1], [source "u" "c" 0]] := by
  refine ⟨_, _, _, _, _, rfl, rfl, rfl, rfl, rfl, rfl, ?_, ?_⟩
  · exact .part (.head _) (.part (.tail _ (.head _)) (.part (.head _) .self))
  · rintro ⟨Δ, z, ref, hz, hkind, hscope⟩
    cases hz with
    | part hu hz =>
      obtain rfl := List.mem_singleton.1 hu
      cases hz with
      | self =>
        cases hkind
        simp [Resolve.cursorsOf, source] at hscope
      | part hu _ => cases hu

end ScalarSql
