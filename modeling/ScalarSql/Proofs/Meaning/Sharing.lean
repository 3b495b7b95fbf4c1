import ScalarSql.Proofs.Expr.Constancy
import ScalarSql.Proofs.Expr.Equality
import ScalarSql.Proofs.Meaning.Same

/-!
# Expressions that match

Constants that were set aside share a register if they match as trees. So matching constants must mean
the same. They do if their flags are the ones that building them sets: flags are no part of the match,
but the collating sequence and the affinity of a node are found through them. `same_of_nodes` says what is
needed of two nodes beside the match; constants satisfy it.
-/

namespace ScalarSql

open Meaning

namespace Expr

/-- A plain expression that may be computed before the first row. -/
def Fixed (σ : Scope) (e : Expr) : Prop := e.Plain σ ∧ e.isConstant .notJoin = true

theorem Fixed.children {σ : Scope} {e : Expr} (h : e.Fixed σ) : ∀ x ∈ e.kind.children, x.Fixed σ :=
  fun x hx => ⟨h.1.children x hx, children_constant h.2 x hx⟩

/-! ## What a match says -/

def Unfixed (e : Expr) : Prop := ∀ ref, e.kind = .column ref → ref.fixed = none

/-! ## What matching expressions mean -/

variable {σ : Scope} {env env' : Env} {x y : Expr}

theorem collate_congr (hx : x.FlagsComputed) (hy : y.FlagsComputed)
    (hown : x.kind.ownFlags.collate = y.kind.ownFlags.collate)
    (hparts : List.Forall₂ (fun a b => a.flags.collate = b.flags.collate) x.kind.children y.kind.children) :
    x.flags.collate = y.flags.collate := by
  have hany : x.kind.children.any (·.flags.collate) = y.kind.children.any (·.flags.collate) := by
    generalize x.kind.children = xs at hparts
    generalize y.kind.children = ys at hparts
    induction hparts with
    | nil => rfl
    | cons h _ ih => rw [List.any_cons, List.any_cons, h, ih]
  rw [hx, hy, collate_infoOf, collate_infoOf, hown, hany]

theorem sameLiteral_of_kind (hx : ∀ b, x.kind ≠ .boolean b) (hx' : ∀ l, x.kind ≠ .integer l)
    (hy : ∀ b, y.kind ≠ .boolean b) (hy' : ∀ l, y.kind ≠ .integer l) : x.SameLiteral y := by
  have hno {e : Expr} (h : ∀ b, e.kind ≠ .boolean b) (h' : ∀ l, e.kind ≠ .integer l) :
      e.isAlwaysTrue = false ∧ e.isAlwaysFalse = false := by
    unfold isAlwaysTrue isAlwaysFalse
    split
    · rename_i hk
      exact absurd hk (h _)
    · rename_i hk
      exact absurd hk (h' _)
    · rw [Bool.and_false]
      exact ⟨rfl, rfl⟩
  exact ⟨(hno hx hx').1.trans (hno hy hy').1.symm, (hno hx hx').2.trans (hno hy hy').2.symm⟩

theorem sameLiteral_of_eq (hjoin : x.flags.fromJoin = y.flags.fromJoin) (hk : x.kind = y.kind) : x.SameLiteral y := by
  constructor
  · rw [isAlwaysTrue, isAlwaysTrue, hjoin, hk]
  · rw [isAlwaysFalse, isAlwaysFalse, hjoin, hk]

theorem forall₂_of_mem {α : Type} {R S : α → α → Prop} {xs ys : List α} (h : List.Forall₂ R xs ys)
    (himp : ∀ x ∈ xs, ∀ y ∈ ys, R x y → S x y) : List.Forall₂ S xs ys := by
  induction h with
  | nil => exact .nil
  | cons hxy _ ih =>
    refine .cons (himp _ List.mem_cons_self _ List.mem_cons_self hxy) (ih fun x hx y hy => ?_)
    exact himp x (List.mem_cons_of_mem _ hx) y (List.mem_cons_of_mem _ hy)

/-! ## Nodes of the same kind -/

section

variable {fs : Functions} {cursors : Int → Prop} {R S : Expr → Expr → Prop}

/-- A scalar node has no window, so its parts are all there is below it. -/
theorem ScalarNode.subexpressions_eq (h : x.ScalarNode fs cursors) : x.kind.subexpressions = x.kind.children := by
  obtain ⟨info, kind⟩ := x
  cases kind with
  | call name args window =>
    obtain rfl := Option.isNone_iff_eq_none.1 h.2.1
    exact List.append_nil _
  | aggColumn => exact h.2.elim
  | _ => rfl

theorem ScalarNode.related_imp (hx : x.ScalarNode fs cursors) (hy : y.ScalarNode fs cursors)
    (h : Kind.Related R x.kind y.kind) (himp : ∀ a ∈ x.kind.children, ∀ b ∈ y.kind.children, R a b → S a b) :
    Kind.Related S x.kind y.kind := by
  refine h.imp ?_
  rwa [hx.subexpressions_eq, hy.subexpressions_eq]

theorem ScalarNode.children_related (hscalar : x.ScalarNode fs cursors) (hx : x.Unfixed) (hy : y.Unfixed)
    (h : Kind.Related R x.kind y.kind) : List.Forall₂ R x.kind.children y.kind.children := by
  have hitems {xs ys : List (Item Expr)} (h : List.Forall₂ (Item.Related R) xs ys) :
      List.Forall₂ R (xs.map (·.expr)) (ys.map (·.expr)) := by
    rw [List.forall₂_map_left_iff, List.forall₂_map_right_iff]
    exact h.imp fun _ _ hxy => hxy.2
  have hoption {o o' : Option Expr} (h : Option.Rel R o o') : List.Forall₂ R o.toList o'.toList := by
    cases h with
    | none => exact .nil
    | some h => exact .cons h .nil
  have harms {xs ys : List (Expr × Expr)} (h : List.Forall₂ (fun p q : Expr × Expr => R p.1 q.1 ∧ R p.2 q.2) xs ys) :
      List.Forall₂ R (xs.flatMap fun arm => [arm.1, arm.2]) (ys.flatMap fun arm => [arm.1, arm.2]) := by
    induction h with
    | nil => exact .nil
    | cons h _ ih => exact .cons h.1 (.cons h.2 ih)
  have hplain := hscalar.2
  obtain ⟨i, a⟩ := x
  obtain ⟨j, b⟩ := y
  simp only [kind] at h hplain ⊢
  cases h with
  | binary op hl hr => exact .cons hl (.cons hr .nil)
  | between h hl hh => exact .cons h (.cons hl (.cons hh .nil))
  | call hname h => exact hitems h
  | inList id id' h hs => exact .cons h (hitems hs)
  | vector hs => exact hitems hs
  | caseOf hb ha ho => exact List.rel_append (List.rel_append (hoption hb) (harms ha)) (hoption ho)
  | column hcursor hcolumn =>
    simp only [Kind.children, hx _ rfl, hy _ rfl]
    exact .nil
  | unary op h | collate hname h | cast type h => exact .cons h .nil
  | aggCall | register | inSelect | selectColumn | ifNullRow => exact hplain.elim
  | _ => exact .nil

end

theorem literal_of_related {R : Expr → Expr → Prop} (h : Kind.Related R x.kind y.kind)
    (hjoin : x.flags.fromJoin = y.flags.fromJoin) : x.SameLiteral y := by
  obtain ⟨i, a⟩ := x
  obtain ⟨j, b⟩ := y
  cases h with
  | null | integer | float | string | blob | boolean | ident | param =>
    exact sameLiteral_of_eq hjoin rfl
  | _ =>
    refine sameLiteral_of_kind ?_ ?_ ?_ ?_ <;> rintro _ ⟨⟩

/-- The expressions mean the same, also with the sign changed. -/
def SameMeaning (env env' : Env) (x y : Expr) : Prop :=
  Same env env' x.meaning y.meaning ∧ x.meaning.negatedValue env = y.meaning.negatedValue env'

theorem SameMeaning.of_same (h : Same env env' x.meaning y.meaning)
    (hx : x.meaning.negatedValue env = (x.meaning.value env).map (Value.subtract (.integer 0)))
    (hy : y.meaning.negatedValue env' = (y.meaning.value env').map (Value.subtract (.integer 0))) :
    SameMeaning env env' x y :=
  ⟨h, by rw [hx, hy, h.value]⟩

theorem SameMeaning.alike (h : SameMeaning env env' x y) : x.Alike y := by
  have halike := h.1.alike
  rwa [meaning_expr, meaning_expr] at halike

/-- The parts mean the same, and both or neither is constant. -/
def SamePart (env env' : Env) (x y : Expr) : Prop :=
  SameMeaning env env' x y ∧ x.isConstant .plain = y.isConstant .plain

theorem same_items {xs ys : List (Item Expr)} (h : List.Forall₂ (Item.Related (SamePart env env')) xs ys) :
    List.Forall₂ (Same env env') (itemsMeaning xs) (itemsMeaning ys) := by
  rw [itemsMeaning_eq_map, itemsMeaning_eq_map, List.forall₂_map_left_iff, List.forall₂_map_right_iff]
  exact h.imp fun _ _ hxy => hxy.2.1.1

theorem same_values {μs νs : List Meaning} (h : List.Forall₂ (Same env env') μs νs) :
    (μs.map (·.value)).map (· env) = (νs.map (·.value)).map (· env') := by
  induction h with
  | nil => rfl
  | cons hμν _ ih =>
    simp only [List.map_cons, hμν.value]
    rw [ih]

theorem same_option {o o' : Option Expr} (h : Option.Rel (SamePart env env') o o') :
    Option.Rel (Same env env') (optionMeaning o) (optionMeaning o') := by
  cases h with
  | none => exact .none
  | some h => exact .some h.1.1

theorem same_arms {xs ys : List (Expr × Expr)}
    (h : List.Forall₂ (fun p q : Expr × Expr => SamePart env env' p.1 q.1 ∧ SamePart env env' p.2 q.2) xs ys) :
    List.Forall₂ (fun a b => Same env env' a.1 b.1 ∧ Same env env' a.2 b.2) (armsMeaning xs) (armsMeaning ys) := by
  rw [armsMeaning_eq_map, armsMeaning_eq_map, List.forall₂_map_left_iff, List.forall₂_map_right_iff]
  exact h.imp fun _ _ hpq => ⟨hpq.1.1.1, hpq.2.1.1⟩

theorem allConstant_congr {xs ys : List (Item Expr)} (h : List.Forall₂ (Item.Related (SamePart env env')) xs ys) :
    ((itemsMeaning xs).all fun μ => μ.expr.isConstant .plain) =
      (itemsMeaning ys).all fun μ => μ.expr.isConstant .plain := by
  induction h with
  | nil => rfl
  | @cons x y xs ys hxy _ ih =>
    rw [itemsMeaning_eq_map, itemsMeaning_eq_map] at ih ⊢
    simp only [List.map_cons, List.all_cons, meaning_expr, hxy.2.2]
    rw [ih]

/-- Nodes of the same kind with parts that mean the same mean the same, if they are compared alike. -/
theorem SameMeaning.of_related (henv : env.Agrees env') {i j : NodeInfo} {a b : Kind Expr Select}
    (halike : Alike (.node i a) (.node j b)) (hlit : SameLiteral (.node i a) (.node j b))
    (htruth : truthName? (.node i a) = truthName? (.node j b))
    (hcolumn : ∀ ref, a = .column ref → (node i a).meaning.value env = (node j b).meaning.value env')
    (hk : Kind.Related (SamePart env env') a b) : SameMeaning env env' (.node i a) (.node j b) := by
  cases hk with
  | unary op h => exact .of_same (.unary halike hlit op h.1.1 h.1.2) rfl rfl
  | binary op hl hr => exact .of_same (.binary henv halike hlit op hl.1.1 hr.1.1) rfl rfl
  | collate hname h => exact .of_same (.ofValue halike hlit h.1.1.value) rfl rfl
  | cast type h =>
    refine .of_same (.ofValue halike hlit ?_) rfl rfl
    rw [h.1.1.value]
  | between h hl hh => exact .of_same (.between henv halike hlit h.1.1 hl.1.1 hh.1.1) rfl rfl
  | call hname h =>
    exact .of_same (.ofValue halike hlit (callValue_congr henv hname (same_items h))) rfl rfl
  | inList id id' h hs =>
    exact .of_same (.inList henv halike hlit h.1.1 (same_items hs) (allConstant_congr hs)) rfl rfl
  | @vector xs ys hs =>
    have hnone : Same env env' (.undefined (.node i (.vector xs))) (.undefined (.node j (.vector ys))) :=
      .ofValue halike hlit rfl
    exact .of_same ⟨halike, hlit, rfl, same_values (same_items hs), hnone.jump, hnone.branch⟩ rfl rfl
  | caseOf hb ha ho =>
    exact .of_same (.caseOf henv halike hlit (same_option hb) (same_option ho) (same_arms ha)) rfl rfl
  | @column r r' =>
    obtain ⟨cursor, column, table, fixed⟩ := r
    obtain ⟨cursor', column', table', fixed'⟩ := r'
    have hvalue := hcolumn _ rfl
    cases fixed <;> cases fixed' <;> exact .of_same (.ofValue halike hlit hvalue) rfl rfl
  | integer l => cases l <;> exact ⟨.ofValue halike hlit rfl, rfl⟩
  | float t => exact ⟨.ofValue halike hlit rfl, rfl⟩
  | ident name =>
    refine .of_same (.ofValue halike hlit ?_) rfl rfl
    rw [htruth]
  | param index name =>
    refine .of_same (.ofValue halike hlit ?_) rfl rfl
    rw [henv.param]
  | _ => exact .of_same (.ofValue halike hlit rfl) rfl rfl

/-- What nodes that match must agree in to mean the same if their parts do. -/
structure SameNode (fs : Functions) (cursors : Int → Prop) (env env' : Env) (x y : Expr) : Prop where
  kind : Kind.Related Matches x.kind y.kind
  scalar : x.ScalarNode fs cursors ∧ y.ScalarNode fs cursors
  unfixed : x.Unfixed ∧ y.Unfixed
  fromJoin : x.flags.fromJoin = y.flags.fromJoin
  unlikely : ∀ name args window, x.kind = .call name args window → x.flags.unlikely = y.flags.unlikely
  truthName? : x.truthName? = y.truthName?
  constant : x.isConstant .plain = y.isConstant .plain
  column : ∀ ref, x.kind = .column ref → x.Alike y ∧ x.meaning.value env = y.meaning.value env'

variable {fs : Functions} {cursors : Int → Prop}

theorem SameNode.alike {i j : NodeInfo} {a b : Kind Expr Select}
    (hn : SameNode fs cursors env env' (.node i a) (.node j b))
    (hk : Kind.Related Alike a b) : Alike (.node i a) (.node j b) := by
  have hcollate : i.flags.collate = j.flags.collate := by
    refine collate_congr hn.scalar.1.1 hn.scalar.2.1 ?_ ((hn.scalar.1.children_related hn.unfixed.1 hn.unfixed.2 hk).imp
      fun _ _ hxy => hxy.collate)
    cases hk <;> rfl
  have hplain := hn.scalar.1.2
  cases hk with
  | column => exact (hn.column _ rfl).1
  | unary op h => exact alike_unary hcollate h
  | binary op hl hr => exact alike_binary hcollate hl hr
  | collate hname h => exact alike_collate hcollate hname h
  | cast type h => exact alike_cast hcollate h
  | between h hl hh => exact alike_between hcollate h hl hh
  | call hname hs => exact alike_call hcollate (hn.unlikely _ _ _ rfl) (hs.imp fun _ _ hxy => hxy.2)
  | inList id id' h hs => exact alike_inList hcollate h (hs.imp fun _ _ hxy => hxy.2)
  | vector hs => exact alike_vector hcollate (hs.imp fun _ _ hxy => hxy.2)
  | caseOf hb ha ho => exact alike_caseOf hcollate hb ha ho
  | aggColumn | aggCall | register | inSelect | hasRows | subquery | selectColumn | ifNullRow => exact hplain.elim
  | _ => exact .of_single ⟨rfl, hcollate, .none, rfl⟩ rfl rfl

/-- Expressions whose nodes agree as far as they match mean the same. -/
theorem same_of_nodes (henv : env.Agrees env') {R : Expr → Expr → Prop}
    (hnode : ∀ x y, R x y → SameNode fs cursors env env' x y)
    (hparts : ∀ x y, R x y → ∀ a ∈ x.kind.children, ∀ b ∈ y.kind.children, Matches a b → R a b)
    (x y : Expr) (hR : R x y) : SameMeaning env env' x y := by
  induction x using Expr.children_induction generalizing y with
  | step i a ih =>
    obtain ⟨j, b⟩ := y
    have hn := hnode _ _ hR
    have hk : Kind.Related (SamePart env env') a b := hn.scalar.1.related_imp hn.scalar.2 hn.kind fun x hx y hy hm => by
      have hpart := hparts _ _ hR x hx y hy hm
      exact ⟨ih x hx y hpart, (hnode x y hpart).constant⟩
    have halike := hn.alike (hn.scalar.1.related_imp hn.scalar.2 hk fun _ _ _ _ hxy => hxy.1.alike)
    exact .of_related henv halike (literal_of_related hn.kind hn.fromJoin) hn.truthName?
      (fun ref href => (hn.column ref href).2) hk

/-! ## Constants -/

theorem unlikely_congr {i j : NodeInfo} {s t : String} {xs ys : List (Item Expr)} {v w : Option (Window Expr)}
    (hx : Fixed σ (.node i (.call s xs v))) (hy : Fixed σ (.node j (.call t ys w))) (hname : Text.sameName s t)
    (hlength : xs.length = ys.length) : i.flags.unlikely = j.flags.unlikely := by
  have hmarked {i : NodeInfo} {s : String} {xs : List (Item Expr)} {v : Option (Window Expr)}
      (h : Fixed σ (.node i (.call s xs v))) :
      i.flags.unlikely = (σ.functions.find? s xs.length).any (·.flags.unlikely) := by
    have hconst := h.2
    rw [isConstant_notJoin, Bool.and_eq_true, Bool.and_eq_true] at hconst
    exact h.1.here.scalar.2.2.2.2 (.inl (Bool.and_eq_true_iff.1 hconst.1.2).1)
  rw [hmarked hx, hmarked hy, hlength, Functions.find?_congr _ hname]

theorem truthName?_congr {i j : NodeInfo} {name : String} (hx : Fixed σ (.node i (.ident name)))
    (hy : Fixed σ (.node j (.ident name))) :
    (Expr.node i (.ident name)).truthName? = (Expr.node j (.ident name)).truthName? := by
  have hunquoted {i : NodeInfo} (h : Fixed σ (.node i (.ident name))) : i.flags.quoted = false := by
    have hconst := h.2
    rw [isConstant_notJoin, Bool.and_eq_true, Bool.and_eq_true] at hconst
    have hsome : (truthName? (.node i (.ident name))).isSome := hconst.1.2
    simp only [truthName?, kind] at hsome
    split at hsome
    · cases hsome
    · rename_i hq
      exact Bool.eq_false_iff.2 hq
  simp only [truthName?, kind, flags, info, hunquoted hx, hunquoted hy]

theorem Fixed.sameNode (hx : x.Fixed σ) (hy : y.Fixed σ) (hmatch : Matches x y) :
    SameNode σ.functions σ.cursors env env' x y := by
  have hcolumn {e : Expr} (h : e.Fixed σ) (ref : ColumnRef Expr) : e.kind ≠ .column ref := by
    have hnode := h.2
    rw [isConstant_notJoin, Bool.and_eq_true, Bool.and_eq_true, constantNode] at hnode
    intro hk
    rw [hk] at hnode
    exact Bool.false_ne_true hnode.1.2
  have hk := (matches_iff.1 hmatch).2
  refine ⟨hk, ⟨hx.1.here.scalar, hy.1.here.scalar⟩, ⟨fun ref h => absurd h (hcolumn hx ref),
    fun ref h => absurd h (hcolumn hy ref)⟩, ?_, ?_, ?_, ?_, fun ref h => absurd h (hcolumn hx ref)⟩
  · rw [not_fromJoin hx.2, not_fromJoin hy.2]
  · obtain ⟨i, a⟩ := x
    obtain ⟨j, b⟩ := y
    rintro name args window ⟨⟩
    cases hk with
    | call hname h => exact unlikely_congr hx hy hname h.length_eq
  · obtain ⟨i, a⟩ := x
    obtain ⟨j, b⟩ := y
    cases hk with
    | ident name => exact truthName?_congr hx hy
    | _ => rfl
  · rw [isConstant_plain hx.2, isConstant_plain hy.2]

theorem same_of_matches (henv : env.Agrees env') (x y : Expr) (hx : x.Fixed σ) (hy : y.Fixed σ)
    (hmatch : Matches x y) : SameMeaning env env' x y := by
  refine same_of_nodes henv (R := fun x y => x.Fixed σ ∧ y.Fixed σ ∧ Matches x y)
    (fun x y h => h.1.sameNode h.2.1 h.2.2) (fun x y h a ha b hb hm => ?_) x y ⟨hx, hy, hmatch⟩
  exact ⟨h.1.children a ha, h.2.1.children b hb, hm⟩

end Expr

end ScalarSql
