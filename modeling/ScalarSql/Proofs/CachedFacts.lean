import Mathlib.Order.Lattice
import ScalarSql.Expr.Constant
import ScalarSql.Proofs.Expr.Collation
import ScalarSql.Proofs.Resolution.Again

/-!
# Cached facts

A node computes its height and its flags from its parts when it is built. Later passes change names, parameters and
marks in the tree below it, and the facts are not computed again. They stay right all the same (`Expr.facts_current`),
because a pass changes nothing at a node that the node above it reads.
-/

namespace ScalarSql

open ScalarSql.Expr Resolve

namespace ExprFlags

variable {f g : ExprFlags}

theorem inherited_union (h : g.inherited = {}) : (f.union g).inherited = f.inherited := by
  simp_all [inherited, union]

end ExprFlags

/-! ## What a node reads of its parts -/

/-- What the node above reads of the facts of an expression. -/
def Expr.summary (e : Expr) : NodeInfo := ⟨e.flags.inherited, e.height⟩

/-- What the node above reads of a tree; of a sub-select only its height. -/
def Tree.summary : Tree → NodeInfo
  | .expr e => e.summary
  | .select s => ⟨{}, s.height⟩

/-- The facts of a node with the given flags of its own over parts with the given facts. -/
def NodeInfo.above (own : ExprFlags) (parts : List NodeInfo) : NodeInfo :=
  ⟨parts.foldl (fun f i => f.union i.flags) own, parts.foldl (fun h i => max h i.height) 0 + 1⟩

theorem infoOf_eq (kind : Kind Expr Select) : infoOf kind =
    .above kind.ownFlags ((kind.children.map Tree.expr ++ kind.selects.map Tree.select).map Tree.summary) := by
  simp [infoOf, NodeInfo.above, List.foldl_map, Tree.summary, summary, maxHeight, ExprFlags.union]

theorem maxHeight_le {es : List Expr} {n : Nat} : maxHeight es ≤ n ↔ ∀ e ∈ es, e.height ≤ n := by
  have hfold (h : Nat) : es.foldl (fun h e => max h e.height) h ≤ n ↔ h ≤ n ∧ ∀ e ∈ es, e.height ≤ n := by
    induction es generalizing h with
    | nil => simp
    | cons e es ih => simp [ih, and_assoc]
  simp [maxHeight, hfold]

theorem Select.mem_expressions {s : Select} {e : Expr} :
    e ∈ s.expressions ↔ e ∈ s.parts.clauses ∨ ∃ p ∈ s.parts.prior, e ∈ p.expressions := by
  obtain ⟨id, columns, sources, filter, groupBy, having, orderBy, limit, flags, prior⟩ := s
  cases prior <;> simp only [expressions, parts, SelectParts.clauses, List.mem_append] <;> grind

/-- The height of a sub-select is the greatest of its parts. -/
theorem Select.height_le {s : Select} {n : Nat} :
    s.height ≤ n ↔ ∀ i ∈ (Tree.select s).entered.map Tree.summary, i.height ≤ n := by
  simp [Select.height, maxHeight_le, mem_expressions (s := s), Tree.entered, Tree.summary, summary, or_imp, forall_and]
  grind

/-! ## Passes over a tree -/

/-- The facts of every node in the tree are those that building the node anew would give. -/
inductive Tree.Current : Tree → Prop
  | intro {t} (here : ∀ e, t = .expr e → e.summary = (ofKind e.kind).summary) (parts : ∀ u ∈ t.below, Current u) :
    Current t

/-- A pass leaves the second node in the place of the first one: nothing is new to the nodes above it, and what is below
it has current facts. -/
structure Expr.Revised (e e' : Expr) : Prop where
  summary : e'.summary = e.summary
  shape : e'.kind.ownFlags = e.kind.ownFlags ∧ e'.kind.outside = e.kind.outside
  entered : (Tree.expr e').entered.map Tree.summary = (Tree.expr e).entered.map Tree.summary
  below : ∀ u ∈ (Tree.expr e').below, u.Current

namespace Tree.Current

variable {t : Tree} {e e' : Expr} {flags : ExprFlags}

theorem here (h : (Tree.expr e).Current) : e.summary = (ofKind e.kind).summary := by
  cases h with
  | intro here => exact here e rfl

theorem parts (h : t.Current) : ∀ u ∈ t.below, u.Current := by
  cases h
  assumption

theorem subexpression (h : (Tree.expr e).Current) {x : Expr} (hx : x ∈ e.kind.subexpressions) : (Tree.expr x).Current :=
  h.parts _ (List.mem_append_left _ (List.mem_map_of_mem hx))

theorem holds {Γ Δ : Scopes} {u : Tree} (h : t.Current) (hu : Tree.Holds Γ t Δ u) : u.Current := by
  induction hu with
  | self => exact h
  | part hu _ ih => exact ih (h.parts _ hu)

theorem revised (h : (Tree.expr e).Current) (hpass : e.Revised e') : (Tree.expr e').Current := by
  have hparts (kind : Kind Expr Select) : kind.children.map Tree.expr ++ kind.selects.map Tree.select =
      kind.outside.map Tree.expr ++ (Tree.expr (ofKind kind)).entered := by
    rw [← kind.outside_append_entered, List.map_append, List.append_assoc]
    rfl
  have hinfo : infoOf e'.kind = infoOf e.kind := by
    rw [infoOf_eq, infoOf_eq, hparts, hparts, List.map_append, List.map_append, hpass.shape.1, hpass.shape.2]
    exact congrArg _ (congrArg _ hpass.entered)
  refine .intro ?_ hpass.below
  rintro _ ⟨⟩
  rw [hpass.summary, h.here, Expr.summary, Expr.summary, ofKind, ofKind, hinfo]
  rfl

theorem withFlags (h : (Tree.expr e).Current) (hflags : flags.inherited = {}) :
    (Tree.expr (e.withFlags flags)).Current := by
  obtain ⟨info, kind⟩ := e
  exact h.revised ⟨congrArg (NodeInfo.mk · _) (ExprFlags.inherited_union hflags), ⟨rfl, rfl⟩, rfl, h.parts⟩

end Tree.Current

namespace Resolve

variable {fs : Functions} {Γ : Scopes} {t t' : Tree} {ts ts' : List Tree} {r : Reach} {e e' : Expr}

theorem Kept.summary (h : Kept fs e e') : e'.summary = e.summary := by
  cases h with
  | column => rfl
  | call hflags =>
    refine congrArg (NodeInfo.mk · _) (ExprFlags.inherited_union ?_)
    unfold callFlags at hflags
    split at hflags <;> cases hflags
    rfl
  | other _ hinfo =>
    rcases hinfo with rfl | rfl
    · rfl
    · exact congrArg (NodeInfo.mk · _) (ExprFlags.inherited_union rfl)

theorem Parts.current (h : Parts fs Γ ts ts' r)
    (hts : ∀ t ∈ ts, ∀ t' r, Resolves fs Γ t t' r → t'.Current ∧ t'.summary = t.summary) :
    (∀ t' ∈ ts', t'.Current) ∧ ts'.map Tree.summary = ts.map Tree.summary := by
  induction h with
  | nil => exact ⟨List.forall_mem_nil _, rfl⟩
  | cons hres _ ih =>
    obtain ⟨ht, hts⟩ := List.forall_mem_cons.1 hts
    obtain ⟨hcurrent, hsummary⟩ := ih hts
    obtain ⟨hcurrent', hsummary'⟩ := ht _ _ hres
    exact ⟨List.forall_mem_cons.2 ⟨hcurrent', hcurrent⟩, by rw [List.map_cons, List.map_cons, hsummary, hsummary']⟩

theorem exists_column_of_lookup {name : String} {ref : ColumnRef Expr} {depth : Nat}
    (h : lookup name Γ = .ok (ref, depth)) : ∃ cursor column table, ref = ⟨cursor, column, table, none⟩ := by
  obtain ⟨-, scope, -, -, -, hone⟩ := exists_of_lookup h
  have hfixed := (found_mem (hone ▸ List.mem_singleton_self ref)).2
  exact ⟨ref.cursor, ref.column, ref.table, hfixed ▸ rfl⟩

/-- Resolution keeps facts current, and changes nothing that the node above a tree reads. -/
theorem resolves_current (h : Resolves fs Γ t t' r) (ht : t.Current) : t'.Current ∧ t'.summary = t.summary := by
  induction t using Tree.induction generalizing Γ t' r with
  | step t ih =>
    have hparts {Δ us r} (h : Parts fs Δ t.entered us r) := h.current fun u hu _ _ hres =>
      ih u (t.entered_subset hu) hres (ht.parts u (t.entered_subset hu))
    cases h with
    | select h =>
      obtain ⟨hcurrent, hsummary⟩ := hparts (select_cases h).2
      refine ⟨.intro (by rintro _ ⟨⟩) hcurrent, congrArg (NodeInfo.mk _) (eq_of_forall_ge_iff fun n => ?_)⟩
      rw [Select.height_le, Select.height_le, hsummary]
    | @expr e e' _ h =>
      rcases expr_cases h with ⟨name, ref, depth, hfound, rfl, -, hkind⟩ | hnode
      · -- A name and the column that it stands for are leaves.
        have hleaf : e.summary = ⟨{}, 1⟩ := by
          rw [ht.here, hkind]
          rfl
        have hflags : e.flags.inherited = {} := congrArg NodeInfo.flags hleaf
        obtain ⟨cursor, column, table, rfl⟩ := exists_column_of_lookup hfound
        have hcolumn : (Tree.expr (ofKind (.column ⟨cursor, column, table, none⟩))).Current :=
          .intro (by rintro _ ⟨⟩; rfl) (List.forall_mem_nil _)
        refine ⟨hcolumn.withFlags hflags, Eq.trans ?_ hleaf.symm⟩
        exact congrArg (NodeInfo.mk · _) (ExprFlags.inherited_union hflags)
      · obtain ⟨hcurrent, hsummary⟩ := hparts hnode.parts
        refine ⟨ht.revised ⟨hnode.node.summary, hnode.shape, hsummary, fun u hu => ?_⟩, hnode.node.summary⟩
        exact (hnode.rest u hu).elim (hcurrent u) (ht.parts u)

end Resolve

namespace Expr

variable {mode : ConstMode} {e : Expr}

theorem settleOption_eq (o : Option Expr) : (settleOption mode o).toList = o.toList.map (settleLiterals mode) := by
  cases o <;> rfl

theorem settleItems_eq (items : List (Item Expr)) :
    (settleItems mode items).map (·.expr) = (items.map (·.expr)).map (settleLiterals mode) := by
  induction items with
  | nil => rfl
  | cons item items ih => exact congrArg (_ :: ·) ih

theorem settleArms_eq (arms : List (Expr × Expr)) : ((settleArms mode arms).flatMap fun arm => [arm.1, arm.2]) =
    (arms.flatMap fun arm => [arm.1, arm.2]).map (settleLiterals mode) := by
  induction arms with
  | nil => rfl
  | cons arm arms ih => exact congrArg (_ :: _ :: ·) ih

/-- Literals are settled in the same parts that resolution enters, sub-selects apart. -/
theorem settleLiterals_parts (mode : ConstMode) {e e' : Expr} (h : settleLiterals mode e = e') :
    (e'.kind.ownFlags = e.kind.ownFlags ∧ e'.kind.outside = e.kind.outside) ∧ e'.kind.selects = e.kind.selects ∧
      e'.kind.entered = e.kind.entered.map (settleLiterals mode) ∧
      e'.kind.subexpressions ⊆ e'.kind.entered ++ e.kind.subexpressions := by
  obtain ⟨info, kind⟩ := e
  subst h
  have hleft {as bs : List Expr} := List.subset_append_left as bs
  have hright {as bs : List Expr} := List.subset_append_right as bs
  cases kind with
  | ident | param =>
    simp only [settleLiterals]
    split <;> exact ⟨⟨rfl, rfl⟩, rfl, rfl, List.nil_subset _⟩
  | call name args window =>
    exact ⟨⟨rfl, rfl⟩, rfl, settleItems_eq args, List.append_subset.2 ⟨hleft, fun _ hx => hright (hright hx)⟩⟩
  | selectColumn | aggColumn => exact ⟨⟨rfl, rfl⟩, rfl, rfl, hright⟩
  | aggCall _ _ items | vector items => exact ⟨⟨rfl, rfl⟩, rfl, settleItems_eq items, hleft⟩
  | inList id operand items => exact ⟨⟨rfl, rfl⟩, rfl, congrArg (_ :: ·) (settleItems_eq items), hleft⟩
  | column ref => exact ⟨⟨rfl, rfl⟩, rfl, settleOption_eq ref.fixed, hleft⟩
  | caseOf base arms otherwise =>
    exact ⟨⟨rfl, rfl⟩, rfl, by simp [settleLiterals, Kind.entered, settleOption_eq, settleArms_eq], hleft⟩
  | _ => exact ⟨⟨rfl, rfl⟩, rfl, rfl, hleft⟩

theorem summary_settleLiterals (mode : ConstMode) (e : Expr) : (settleLiterals mode e).summary = e.summary := by
  obtain ⟨info, kind⟩ := e
  rw [settleLiterals.eq_def]
  rfl

theorem current_settleLiterals (mode : ConstMode) (h : (Tree.expr e).Current) :
    (Tree.expr (settleLiterals mode e)).Current := by
  induction e using subexpressions_induction with
  | step info kind ih =>
    obtain ⟨hshape, hselects, hentered, hrest⟩ := settleLiterals_parts mode (e := .node info kind) rfl
    refine h.revised ⟨summary_settleLiterals mode _, hshape, ?_, fun u hu => ?_⟩
    · simp [Tree.entered, hselects, hentered, Function.comp_def, Tree.summary, summary_settleLiterals]
    · rcases List.mem_append.1 hu with hu | hu
      · obtain ⟨x, hx, rfl⟩ := List.mem_map.1 hu
        rcases List.mem_append.1 (hrest hx) with hx | hx
        · obtain ⟨y, hy, rfl⟩ := List.mem_map.1 (hentered ▸ hx)
          exact ih y (kind.entered_subset hy) (h.subexpression (kind.entered_subset hy))
        · exact h.subexpression hx
      · exact h.parts u (List.mem_append_right _ (hselects ▸ hu))

end Expr

/-! ## Trees that are built and passed over -/

/-- A tree that is built from such trees, or left by a pass over one. -/
inductive Tree.Made : Tree → Prop
  | expr {kind} (h : ∀ u ∈ (Tree.expr (ofKind kind)).below, Made u) : Made (.expr (ofKind kind))
  | select {s} (h : ∀ u ∈ (Tree.select s).below, Made u) : Made (.select s)
  | marked {e flags} (h : Made (.expr e)) (hflags : flags.inherited = {}) : Made (.expr (e.withFlags flags))
  | resolved {e e' functions sources} (h : Made (.expr e)) (hres : e.resolve functions sources = .ok e') :
    Made (.expr e')
  | settled {e} (mode) (h : Made (.expr e)) : Made (.expr (e.settleLiterals mode))
  | reduced {e} (h : Made (.expr e)) : Made (.expr e.reducedCopy)

theorem Tree.Made.current {t : Tree} (h : t.Made) : t.Current := by
  induction h with
  | expr _ ih => exact .intro (by rintro _ ⟨⟩; rfl) ih
  | select _ ih => exact .intro (by rintro _ ⟨⟩) ih
  | marked _ hflags ih => exact ih.withFlags hflags
  | @resolved e e' functions sources _ hres ih =>
    unfold Expr.resolve at hres
    cases h : Resolve.expr functions [sources] e with
    | error err =>
      rw [h] at hres
      cases hres
    | ok result =>
      rw [h] at hres
      cases hres
      exact (resolves_current (.expr h) ih).1
  | settled mode _ ih => exact current_settleLiterals mode ih
  | reduced _ ih => exact ih.withFlags rfl

namespace Expr

variable {e x : Expr} {φ : ExprFlags → Bool}

/-- An inherited flag is set exactly if a node of the tree has it by its kind. -/
theorem flag_eq (hφ : ∀ f g, φ (f.union g.inherited) = (φ f || φ g)) (hnone : φ {} = false)
    (h : (Tree.expr e).Current) :
    φ e.flags = e.preorder.any (φ ·.kind.ownFlags) := by
  have hinherited (f : ExprFlags) : φ (ExprFlags.union {} f.inherited) = φ f := by rw [hφ, hnone, Bool.false_or]
  induction e using children_induction with
  | step info kind ih =>
    have hflags : φ (node info kind).flags = φ (infoOf kind).flags := by
      rw [← hinherited, ← hinherited (infoOf kind).flags]
      exact congrArg (fun i => φ (ExprFlags.union {} i.flags)) h.here
    have hparts : kind.children.any (φ ·.flags) = kind.children.any fun x => x.preorder.any (φ ·.kind.ownFlags) := by
      rw [Bool.eq_iff_iff, List.any_eq_true, List.any_eq_true]
      exact exists_congr fun x => and_congr_right fun hx => by rw [ih x hx (h.subexpression (kind.children_subset hx))]
    rw [hflags, flag_infoOf hφ, preorder_node, List.any_cons, List.any_flatMap, hparts]
    rfl

/-- Whatever is built and passed over, the height of every node is one more than the greatest of its parts, and the node
is marked as containing a sub-select, a call or COLLATE exactly if it or a node below it is one. -/
theorem facts_current {Γ Δ : Scopes} (h : (Tree.expr e).Made) (hx : Tree.Holds Γ (.expr e) Δ (.expr x)) :
    x.height = (x.children.map height ++ x.selects.map Select.height).foldl max 0 + 1 ∧
      (x.flags.subquery = true ↔ ∃ y ∈ x.preorder, y.selects ≠ [] ∨
        ∃ share source column expected, y.kind = .selectColumn share source column expected) ∧
      (x.flags.hasCall = true ↔ ∃ y ∈ x.preorder, (∃ name args window, y.kind = .call name args window) ∨
        ∃ index name args, y.kind = .aggCall index name args) ∧
      (x.flags.collate = true ↔ ∃ y ∈ x.preorder, ∃ operand name, y.kind = .collate operand name) := by
  have hcurrent := h.current.holds hx
  have hiff {φ : ExprFlags → Bool} {p : Expr → Prop} (hφ : ∀ f g, φ (f.union g.inherited) = (φ f || φ g))
      (hnone : φ {} = false) (hown : ∀ y : Expr, φ y.kind.ownFlags = true ↔ p y) :
      φ x.flags = true ↔ ∃ y ∈ x.preorder, p y := by
    simp only [flag_eq hφ hnone hcurrent, List.any_eq_true, hown]
  refine ⟨?_, hiff (fun _ _ => rfl) rfl fun y => ?_, hiff (fun _ _ => rfl) rfl fun y => ?_,
    hiff (fun _ _ => rfl) rfl fun y => ?_⟩
  · refine (congrArg NodeInfo.height hcurrent.here).trans ?_
    simp [summary, height, Expr.info, ofKind, infoOf, maxHeight, List.foldl_map, children, selects]
  · unfold selects
    cases y.kind <;> simp [Kind.ownFlags, Kind.selects]
  · cases y.kind <;> simp [Kind.ownFlags]
  · cases y.kind <;> simp [Kind.ownFlags]

open Example in
theorem facts_current_exists : ∃ x, existsAbs.resolve .builtin [source "u" "c" 0] = .ok x ∧ x.height = 3 ∧
    (∃ y ∈ x.preorder, y.selects ≠ [] ∨
        ∃ share source column expected, y.kind = .selectColumn share source column expected) ∧
    ¬∃ y ∈ x.preorder, (∃ name args window, y.kind = .call name args window) ∨
        ∃ index name args, y.kind = .aggCall index name args := by
  obtain ⟨x, h, hheight, hsubquery, hcall⟩ : ∃ x, existsAbs.resolve .builtin [source "u" "c" 0] = .ok x ∧ x.height = 3 ∧
      x.flags.subquery = true ∧ ¬x.flags.hasCall = true := ⟨_, rfl, rfl, rfl, Bool.false_ne_true⟩
  have hname : (Tree.expr (ofKind (.ident "c"))).Made := .expr (List.forall_mem_nil _)
  have hmade : (Tree.expr existsAbs).Made := .expr (List.forall_mem_singleton.2 (.select
    (List.forall_mem_singleton.2 (.expr (List.forall_mem_singleton.2 hname)))))
  obtain ⟨-, hselects, hcalls, -⟩ := facts_current (.resolved hmade h) (.self (Γ := []))
  exact ⟨x, h, hheight, hselects.1 hsubquery, mt hcalls.2 hcall⟩

end Expr

end ScalarSql
