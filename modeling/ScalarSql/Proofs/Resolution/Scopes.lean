import ScalarSql.Expr.Resolve
import ScalarSql.Proofs.Expr.Tree

/-!
# Scopes and names

Where a name is found and how far out that is, and which names of a tree are looked for outside of it.
-/

namespace ScalarSql

namespace Resolve

/-! ## Looking a name up -/

/-- The columns of a FROM clause that a name may stand for. -/
def found (name : String) (scope : List Source) : List (ColumnRef Expr) :=
  scope.filterMap (inSource? (splitName name).1 (splitName name).2)

variable {name : String} {scope : List Source} {scopes outer : Scopes} {ref : ColumnRef Expr} {depth : Nat}

theorem lookup_cons_of_nil (h : found name scope = []) : lookup name (scope :: outer) = lookup name outer := by
  rw [found] at h
  rw [lookup]
  simp only [h]

theorem lookup_cons_of_single (h : found name scope = [ref]) :
    lookup name (scope :: outer) = .ok (ref, outer.length) := by
  rw [found] at h
  rw [lookup]
  simp only [h]

theorem lookup_cons_of_several {a b : ColumnRef Expr} {rest : List (ColumnRef Expr)}
    (h : found name scope = a :: b :: rest) : lookup name (scope :: outer) = .error (.ambiguousColumn name) := by
  rw [found] at h
  rw [lookup]
  simp only [h]

/-- A name that is found is in one of the clauses, once, and in none inside of that one. -/
theorem exists_of_lookup (h : lookup name scopes = .ok (ref, depth)) :
    ∃ inner scope outer, scopes = inner ++ scope :: outer ∧ depth = outer.length ∧ found name scope = [ref] := by
  induction scopes with
  | nil => cases h
  | cons scope outer ih =>
    rcases hfound : found name scope with _ | ⟨r, _ | ⟨b, rest⟩⟩
    · rw [lookup_cons_of_nil hfound] at h
      obtain ⟨inner, scope', outer', rfl, hdepth, hone⟩ := ih h
      exact ⟨scope :: inner, scope', outer', rfl, hdepth, hone⟩
    · rw [lookup_cons_of_single hfound] at h
      cases h
      exact ⟨[], scope, outer, rfl, rfl, hfound⟩
    · rw [lookup_cons_of_several hfound] at h
      cases h

def cursorsOf (scope : List Source) : List Int := scope.map (·.cursor)

theorem found_mem (h : ref ∈ found name scope) : ref.cursor ∈ cursorsOf scope ∧ ref.fixed = none := by
  obtain ⟨source, hsource, href⟩ := List.mem_filterMap.1 h
  unfold inSource? at href
  split at href
  · obtain ⟨n, -, rfl⟩ := Option.map_eq_some_iff.1 href
    exact ⟨List.mem_map_of_mem hsource, rfl⟩
  · cases href

namespace Reach

variable {a b : Reach}

@[simp]
theorem isBeyond_none (d : Nat) : isBeyond d none = false := rfl

@[simp]
theorem isBeyond_some (d n : Nat) : isBeyond d (some n) = decide (n < d) := rfl

@[simp]
theorem join_none (a : Reach) : a.join none = a := by cases a <;> rfl

@[simp]
theorem none_join (b : Reach) : join none b = b := rfl

theorem join_assoc (a b c : Reach) : (a.join b).join c = a.join (b.join c) := by
  cases a <;> cases b <;> cases c <;> simp [join, Nat.min_assoc]

theorem isBeyond_join (d : Nat) : (a.join b).isBeyond d = (a.isBeyond d || b.isBeyond d) := by
  cases a with
  | none => rfl
  | some m =>
    cases b with
    | none => simp
    | some n =>
      simp only [join, isBeyond_some, ← Bool.decide_or]
      exact decide_eq_decide.2 (by omega)

end Reach

end Resolve

/-! ## Parts that are entered -/

/-- The expressions below a node that resolution enters. A shared sub-query is resolved where it stands first. -/
def Kind.entered {ε σ : Type} : Kind ε σ → List ε
  | .selectColumn .. => []
  | kind => kind.children

/-- The child that resolution does not enter. -/
def Kind.outside {ε σ : Type} : Kind ε σ → List ε
  | .selectColumn _ source _ _ => [source]
  | _ => []

theorem Kind.outside_append_entered {ε σ : Type} (kind : Kind ε σ) : kind.outside ++ kind.entered = kind.children := by
  cases kind <;> rfl

/-- The trees directly below a tree that resolution enters. -/
def Tree.entered : Tree → List Tree
  | .expr e => e.kind.entered.map .expr ++ e.kind.selects.map .select
  | .select s => s.parts.clauses.map .expr ++ s.parts.prior.toList.map .select

theorem Kind.entered_subset {ε σ : Type} (kind : Kind ε σ) : kind.entered ⊆ kind.subexpressions := by
  cases kind with
  | call name args window => exact List.subset_append_left _ _
  | selectColumn share source column expected => exact List.nil_subset _
  | aggColumn index ref => exact List.nil_subset _
  | _ => exact List.Subset.refl _

theorem Tree.entered_subset (t : Tree) : t.entered ⊆ t.below := by
  cases t with
  | expr e =>
    refine List.append_subset.2 ⟨?_, List.subset_append_right _ _⟩
    exact List.Subset.trans (List.map_subset _ e.kind.entered_subset) (List.subset_append_left _ _)
  | select s => exact List.Subset.refl _

/-- The name is that of an identifier in the tree, and no FROM clause of the tree around it has it. -/
inductive Tree.Free (name : String) : Tree → Prop
  | ident {info} (h : Expr.truthName? (.node info (.ident name)) = none) : Free name (.expr (.node info (.ident name)))
  /-- A name that is free in a part of an expression. -/
  | expr {e u} (hu : u ∈ (Tree.expr e).entered) (h : Free name u) : Free name (.expr e)
  /-- A name that is free in a part of a sub-select and that its FROM clause does not have. -/
  | select {s u} (hmiss : Resolve.found name s.parts.sources = []) (hu : u ∈ (Tree.select s).entered)
      (h : Free name u) : Free name (.select s)

namespace Example

/-- A table of one column, read by a cursor. -/
def source (table column : String) (cursor : Int) : Source where
  table :=
    { id := 0, name := table, columns := [{ name := column, declaredType := none }], rowidAlias := none, indexes := [] }
  cursor := cursor
  alias? := none

/-- A name selected from a source, after another sub-select if there is one. -/
def selecting (name : String) (source : Source) (prior : Option Select) : Select :=
  .mk { id := 0, columns := [⟨.ofKind (.ident name), false, 0⟩], sources := [source], prior := prior }

end Example

end ScalarSql
