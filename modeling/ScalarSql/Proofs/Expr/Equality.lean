import ScalarSql.Expr.Match
import ScalarSql.Proofs.Expr.Induction
import Mathlib.Data.List.Forall2
import Mathlib.Data.Option.Basic

/-!
# Equality of expressions

Two trees match if their nodes are of the same kind, with parts that match (`Expr.matches_iff`). This is an equivalence
(`Expr.compare_equivalence`). It is transitive only where an identity stands for one window or one shared sub-query,
since these match by their identity as well as by their parts. RAISE matches nothing.
-/

namespace ScalarSql

/-! ## Kinds with related parts -/

section

variable {R S T : Expr → Expr → Prop}

/-- The expressions of two items are related, and both are sorted by in the same order. -/
def Item.Related (R : Expr → Expr → Prop) (x y : Item Expr) : Prop :=
  x.descending = y.descending ∧ R x.expr y.expr

/-- The windows are the same one, or they have the same name and related terms. -/
def Window.Related (R : Expr → Expr → Prop) (v w : Window Expr) : Prop :=
  v.id = w.id ∨ v.name = w.name ∧ List.Forall₂ (Item.Related R) v.partitionBy w.partitionBy ∧
    List.Forall₂ (Item.Related R) v.orderBy w.orderBy

/-- The kinds of nodes that are the same but for their parts, which are related. -/
inductive Kind.Related (R : Expr → Expr → Prop) : Kind Expr Select → Kind Expr Select → Prop
  | null : Related R .null .null
  | integer (l) : Related R (.integer l) (.integer l)
  | float (t) : Related R (.float t) (.float t)
  | string (s) : Related R (.string s) (.string s)
  | blob (hex) : Related R (.blob hex) (.blob hex)
  | boolean (b) : Related R (.boolean b) (.boolean b)
  | ident (name) : Related R (.ident name) (.ident name)
  | param (index name) : Related R (.param index name) (.param index name)
  | column {x y} (hcursor : x.cursor = y.cursor) (hcolumn : x.column = y.column) : Related R (.column x) (.column y)
  | aggColumn {x y} (n) (hcursor : x.cursor = y.cursor) (hcolumn : x.column = y.column) :
      Related R (.aggColumn n x) (.aggColumn n y)
  | aggCall {s t xs ys} (n) (hname : Text.sameName s t = true) (h : List.Forall₂ (Item.Related R) xs ys) :
      Related R (.aggCall n s xs) (.aggCall n t ys)
  | call {s t xs ys v w} (hname : Text.sameName s t = true) (h : List.Forall₂ (Item.Related R) xs ys)
      (hw : Option.Rel (Window.Related R) v w) : Related R (.call s xs v) (.call t ys w)
  | register {x y} (reg) (h : R x y) : Related R (.register reg x) (.register reg y)
  | unary {x y} (op) (h : R x y) : Related R (.unary op x) (.unary op y)
  | binary {x y z w} (op) (hl : R x z) (hr : R y w) : Related R (.binary op x y) (.binary op z w)
  | collate {x y c d} (hname : Text.sameName c d = true) (h : R x y) : Related R (.collate x c) (.collate y d)
  | cast {x y} (type) (h : R x y) : Related R (.cast x type) (.cast y type)
  | caseOf {x y xs ys u w} (hb : Option.Rel R x y)
      (ha : List.Forall₂ (fun a b : Expr × Expr => R a.1 b.1 ∧ R a.2 b.2) xs ys) (ho : Option.Rel R u w) :
      Related R (.caseOf x xs u) (.caseOf y ys w)
  | between {x y l l' u u'} (h : R x y) (hl : R l l') (hh : R u u') : Related R (.between x l u) (.between y l' u')
  | inList {x y xs ys} (id id') (h : R x y) (hs : List.Forall₂ (Item.Related R) xs ys) :
      Related R (.inList id x xs) (.inList id' y ys)
  | inSelect {x y s t} (id id') (h : R x y) (hs : s.id = t.id) : Related R (.inSelect id x s) (.inSelect id' y t)
  | hasRows {s t} (id id') (hs : s.id = t.id) : Related R (.hasRows id s) (.hasRows id' t)
  | subquery {s t} (id id') (hs : s.id = t.id) : Related R (.subquery id s) (.subquery id' t)
  | selectColumn {p q x y} (column expected expected') (h : p = q ∨ R x y) :
      Related R (.selectColumn p x column expected) (.selectColumn q y column expected')
  | vector {xs ys} (hs : List.Forall₂ (Item.Related R) xs ys) : Related R (.vector xs) (.vector ys)
  | ifNullRow {x y} (cursor) (h : R x y) : Related R (.ifNullRow cursor x) (.ifNullRow cursor y)

end

namespace Expr

def Matches (x y : Expr) : Prop := compare none x y = .equal

/-! ## What a match says -/

/-- Both nodes are aggregates over distinct values or both are not, or they are integers of 32 bits. -/
def DistinctAlike (x y : Expr) : Prop :=
  (∃ v w, x.kind = .integer (.inline v) ∧ y.kind = .integer (.inline w)) ∨ x.flags.distinct = y.flags.distinct

theorem sameItems_iff {xs ys : List (Item Expr)} :
    sameItems none xs ys ↔ List.Forall₂ (Item.Related Matches) xs ys := by
  induction xs generalizing ys with
  | nil => cases ys <;> simp [sameItems]
  | cons x xs ih =>
    cases ys with
    | nil => simp [sameItems]
    | cons y ys => simp [sameItems, Item.Related, Matches, ih]

theorem sameOption_iff {x y : Option Expr} : sameOption none x y ↔ Option.Rel Matches x y := by
  cases x <;> cases y <;> simp [sameOption, Matches]

theorem sameArms_iff {xs ys : List (Expr × Expr)} :
    sameArms none xs ys ↔ List.Forall₂ (fun a b : Expr × Expr => Matches a.1 b.1 ∧ Matches a.2 b.2) xs ys := by
  induction xs generalizing ys with
  | nil => cases ys <;> simp [sameArms]
  | cons x xs ih =>
    cases ys with
    | nil => simp [sameArms]
    | cons y ys => simp [sameArms, Matches, ih]

theorem sameWindow_iff {v w : Option (Window Expr)} : sameWindow v w ↔ Option.Rel (Window.Related Matches) v w := by
  cases v <;> cases w <;> simp [sameWindow, Window.Related, sameItems_iff, and_assoc]

variable {x y z : Expr} {i j : NodeInfo} {a b c : Kind Expr Select}

theorem ofBool_eq_equal {b : Bool} : Match.ofBool b = .equal ↔ b := by
  cases b <;> simp [Match.ofBool]

theorem skipCollate_of_not_collate (h : ∀ z c, x.kind ≠ .collate z c) : x.skipCollate = x := by
  obtain ⟨info, kind⟩ := x
  cases kind with
  | collate operand name => exact absurd rfl (h operand name)
  | _ => rfl

theorem seenFrom_of_not_collate (h : ∀ z c, x.kind ≠ .collate z c) (m : Match) : seenFrom x m = m := by
  unfold seenFrom
  split
  · rename_i hk
    exact absurd hk (h _ _)
  · rfl

theorem related_of_matches (ha : ∀ x c, a ≠ .collate x c) (hb : ∀ y d, b ≠ .collate y d)
    (h : Matches (.node i a) (.node j b)) : sameDistinct i a (.node j b) ∧ Kind.Related Matches a b := by
  rw [Matches, compare.eq_def] at h
  split at h
  · rename_i hnode
    cases hnode
    exact absurd rfl (ha _ _)
  · rename_i hnode
    cases hnode
    rw [skipCollate_of_not_collate (x := .node j b) hb, seenFrom_of_not_collate (x := .node j b) hb] at h
    obtain ⟨hdistinct, hm⟩ := Bool.and_eq_true_iff.1 (ofBool_eq_equal.1 h)
    refine ⟨hdistinct, ?_⟩
    simp only [kind] at hm
    -- The cases are those of the comparison, in their order.
    split at hm
    case h_1 | h_3 => exact beq_iff_eq.1 hm ▸ .integer _
    case h_2 => exact .null
    case h_4 => exact beq_iff_eq.1 hm ▸ .float _
    case h_5 => exact beq_iff_eq.1 hm ▸ .string _
    case h_6 => exact beq_iff_eq.1 hm ▸ .blob _
    case h_7 => exact beq_iff_eq.1 hm ▸ .ident _
    case h_8 => exact beq_iff_eq.1 hm ▸ .boolean _
    case h_27 => cases hm
    all_goals simp only [Bool.and_eq_true, Bool.or_eq_true, beq_iff_eq, sameItems_iff, sameWindow_iff, sameOption_iff,
        sameArms_iff, ColumnRef.matches, reduceCtorEq, false_and, or_false] at hm
    case h_9 =>
      obtain ⟨rfl, rfl⟩ := hm
      exact .param _ _
    case h_10 => exact .column hm.2 hm.1
    case h_11 =>
      obtain ⟨rfl, hcolumn, hcursor⟩ := hm
      exact .aggColumn _ hcursor hcolumn
    case h_12 =>
      obtain ⟨⟨rfl, hname⟩, hitems⟩ := hm
      exact .aggCall _ hname hitems
    case h_13 => exact .call hm.1.1 hm.2 hm.1.2
    case h_14 =>
      obtain ⟨rfl, hm⟩ := hm
      exact .register _ hm
    case h_15 =>
      obtain ⟨rfl, hm⟩ := hm
      exact .unary _ hm
    case h_16 =>
      obtain ⟨⟨rfl, hl⟩, hr⟩ := hm
      exact .binary _ hl hr
    case h_17 =>
      obtain ⟨rfl, hm⟩ := hm
      exact .cast _ hm
    case h_18 => exact .caseOf hm.1.1 hm.1.2 hm.2
    case h_19 => exact .between hm.1.1 hm.1.2 hm.2
    case h_20 => exact .inList _ _ hm.1 hm.2
    case h_21 => exact .inSelect _ _ hm.1 hm.2
    case h_22 => exact .hasRows _ _ hm
    case h_23 => exact .subquery _ _ hm
    case h_24 =>
      obtain ⟨rfl, hm⟩ := hm
      exact .selectColumn _ _ _ hm
    case h_25 => exact .vector hm
    case h_26 =>
      obtain ⟨rfl, hm⟩ := hm
      exact .ifNullRow _ hm

theorem matches_of_related (hb : ∀ y d, b ≠ .collate y d) (hdistinct : sameDistinct i a (.node j b))
    (h : Kind.Related Matches a b) : Matches (.node i a) (.node j b) := by
  cases h with
  | collate => exact absurd rfl (hb _ _)
  | integer l =>
    cases l <;> exact ofBool_eq_equal.2 (Bool.and_eq_true_iff.2 ⟨hdistinct, beq_self_eq_true _⟩)
  | null => exact ofBool_eq_equal.2 (Bool.and_eq_true_iff.2 ⟨hdistinct, rfl⟩)
  | _ =>
    refine ofBool_eq_equal.2 (Bool.and_eq_true_iff.2 ⟨hdistinct, ?_⟩)
    simp_all [Matches, sameItems_iff, sameWindow_iff, sameOption_iff, sameArms_iff, ColumnRef.matches]

theorem underCollate_ne {m : Match} : m.underCollate ≠ .equal := by
  cases m <;> simp [Match.underCollate]

theorem not_collate_of_matches (hx : ∀ z c, x.kind ≠ .collate z c) (h : Matches x y) (z : Expr) (d : String) :
    y.kind ≠ .collate z d := by
  obtain ⟨j, b⟩ := y
  rintro ⟨⟩
  rw [Matches, compare.eq_def] at h
  split at h
  · exact absurd rfl (hx _ _)
  · exact underCollate_ne h

theorem not_collate_of_matches_right (hy : ∀ z d, y.kind ≠ .collate z d) (h : Matches x y) (z : Expr) (c : String) :
    x.kind ≠ .collate z c := by
  obtain ⟨i, a⟩ := x
  obtain ⟨j, b⟩ := y
  rintro ⟨⟩
  cases b with
  | collate y d => exact hy y d rfl
  | _ => exact underCollate_ne h

theorem matches_collate_iff {c d : String} : Matches (.node i (.collate x c)) (.node j (.collate y d)) ↔
      i.flags.distinct = j.flags.distinct ∧ Text.sameName c d ∧ Matches x y := by
  show Match.ofBool _ = .equal ↔ _
  simp [ofBool_eq_equal, Matches, and_assoc]

theorem sameDistinct_iff : sameDistinct i a y ↔ (Expr.node i a).DistinctAlike y := by
  unfold sameDistinct DistinctAlike
  split
  · rename_i hy
    exact iff_of_true rfl (.inl ⟨_, _, rfl, hy⟩)
  · rename_i hne
    simp only [beq_iff_eq, kind, flags, info]
    refine ⟨.inr, fun h => h.resolve_left ?_⟩
    rintro ⟨v, w, rfl, hy⟩
    exact hne v w rfl hy

/-- Trees match if their nodes are of the same kind and their parts match. -/
theorem matches_iff : Matches x y ↔ x.DistinctAlike y ∧ Kind.Related Matches x.kind y.kind := by
  obtain ⟨i, a⟩ := x
  obtain ⟨j, b⟩ := y
  by_cases ha : ∃ x c, a = .collate x c
  · obtain ⟨x, c, rfl⟩ := ha
    by_cases hb : ∃ y d, b = .collate y d
    · obtain ⟨y, d, rfl⟩ := hb
      rw [matches_collate_iff]
      constructor
      · rintro ⟨hd, hname, hm⟩
        exact ⟨.inr hd, .collate hname hm⟩
      · rintro ⟨hd, hk⟩
        cases hk with
        | collate hname hm => exact ⟨hd.resolve_left (by simp [kind]), hname, hm⟩
    · have hb (y : Expr) (d : String) : (Expr.node j b).kind ≠ .collate y d := fun h => hb ⟨y, d, h⟩
      refine iff_of_false (fun h => not_collate_of_matches_right hb h x c rfl) fun h => ?_
      generalize hk : Expr.kind (.node j b) = k at h
      cases h.2 with
      | collate hname hm => exact hb _ _ hk
  · have ha (x : Expr) (c : String) : (Expr.node i a).kind ≠ .collate x c := fun h => ha ⟨x, c, h⟩
    by_cases hb : ∃ y d, b = .collate y d
    · obtain ⟨y, d, rfl⟩ := hb
      refine iff_of_false (fun h => not_collate_of_matches ha h y d rfl) fun h => ?_
      generalize hk : Expr.kind (.node i a) = k at h
      cases h.2 with
      | collate hname hm => exact ha _ _ hk
    · have hb (y : Expr) (d : String) : b ≠ .collate y d := fun h => hb ⟨y, d, h⟩
      rw [← sameDistinct_iff]
      exact ⟨related_of_matches ha hb, fun h => matches_of_related hb h.1 h.2⟩

end Expr

/-! ## Reflexivity and symmetry -/

section

variable {R S : Expr → Expr → Prop} {a b : Kind Expr Select}

theorem Kind.Related.refl (hraise : ∀ action message, a ≠ .raise action message) (h : ∀ x ∈ a.children, R x x) :
    Kind.Related R a a := by
  have hitems {items : List (Item Expr)} (h : ∀ x ∈ items.map (·.expr), R x x) :
      List.Forall₂ (Item.Related R) items items :=
    List.forall₂_same.2 fun item hitem => ⟨rfl, h _ (List.mem_map_of_mem hitem)⟩
  have hoption {o : Option Expr} (h : ∀ x ∈ o.toList, R x x) : Option.Rel R o o := by
    cases o with
    | none => exact .none
    | some x => exact .some (h x (List.mem_singleton_self x))
  cases a with
  | raise action message => exact absurd rfl (hraise action message)
  | call name args window =>
    refine .call (Text.sameName_self _) (hitems h) ?_
    cases window with
    | none => exact .none
    | some w => exact .some (.inl rfl)
  | caseOf base arms otherwise =>
    obtain ⟨⟨hbase, harms⟩, hotherwise⟩ := List.forall_mem_append.1 h |>.imp_left List.forall_mem_append.1
    refine .caseOf (hoption hbase) (List.forall₂_same.2 fun arm harm => ?_) (hoption hotherwise)
    have harms := fun x hx => harms x (List.mem_flatMap.2 ⟨arm, harm, hx⟩)
    exact ⟨harms _ (.head _), harms _ (.tail _ (.head _))⟩
  | aggCall n name args => exact .aggCall n (Text.sameName_self _) (hitems h)
  | inList id operand items => exact .inList id id (h _ (.head _)) (hitems (List.forall_mem_cons.1 h).2)
  | vector items => exact .vector (hitems h)
  | selectColumn share source column expected => exact .selectColumn column expected expected (.inl rfl)
  | _ => constructor <;> simp_all

theorem forall₂_symm_of_mem {α : Type} {P Q : α → α → Prop} {xs ys : List α} (h : List.Forall₂ P xs ys)
    (hsymm : ∀ x ∈ xs, ∀ y, P x y → Q y x) : List.Forall₂ Q ys xs := by
  induction h with
  | nil => exact .nil
  | cons hxy _ ih =>
    obtain ⟨hx, hxs⟩ := List.forall_mem_cons.1 hsymm
    exact .cons (hx _ hxy) (ih hxs)

theorem rel_symm_of_mem {α : Type} {P Q : α → α → Prop} {x y : Option α} (h : Option.Rel P x y)
    (hsymm : ∀ x' ∈ x.toList, ∀ y', P x' y' → Q y' x') : Option.Rel Q y x := by
  cases h with
  | none => exact .none
  | some hxy => exact .some (hsymm _ (List.mem_singleton_self _) _ hxy)

theorem items_symm {xs ys : List (Item Expr)} (h : List.Forall₂ (Item.Related R) xs ys)
    (hsymm : ∀ x ∈ xs.map (·.expr), ∀ y, R x y → S y x) : List.Forall₂ (Item.Related S) ys xs :=
  forall₂_symm_of_mem h fun _ hx _ hxy => ⟨hxy.1.symm, hsymm _ (List.mem_map_of_mem hx) _ hxy.2⟩

theorem windows_symm {v w : Option (Window Expr)} (h : Option.Rel (Window.Related R) v w)
    (hsymm : ∀ x ∈ v.toList.flatMap (fun w => w.partitionBy.map (·.expr) ++ w.orderBy.map (·.expr)), ∀ y,
      R x y → S y x) : Option.Rel (Window.Related S) w v := by
  cases h with
  | none => exact .none
  | some h =>
    simp only [Option.toList_some, List.flatMap_singleton, List.forall_mem_append] at hsymm
    refine .some (h.imp Eq.symm fun hparts => ⟨hparts.1.symm, ?_, ?_⟩)
    · exact items_symm hparts.2.1 hsymm.1
    · exact items_symm hparts.2.2 hsymm.2

theorem Kind.Related.symm (h : Kind.Related R a b) (hsymm : ∀ x ∈ a.subexpressions, ∀ y, R x y → S y x) :
    Kind.Related S b a := by
  cases h with
  | aggCall n hname h => exact .aggCall n ((Text.sameName_comm _ _).trans hname) (items_symm h hsymm)
  | call hname h hw =>
    obtain ⟨hargs, hterms⟩ := List.forall_mem_append.1 hsymm
    exact .call ((Text.sameName_comm _ _).trans hname) (items_symm h hargs) (windows_symm hw hterms)
  | caseOf hb ha ho =>
    obtain ⟨⟨hbase, harms⟩, hotherwise⟩ := List.forall_mem_append.1 hsymm |>.imp_left List.forall_mem_append.1
    refine .caseOf (rel_symm_of_mem hb hbase) (forall₂_symm_of_mem ha fun x hx y hxy => ?_)
      (rel_symm_of_mem ho hotherwise)
    exact ⟨harms _ (List.mem_flatMap.2 ⟨x, hx, by simp⟩) _ hxy.1, harms _ (List.mem_flatMap.2 ⟨x, hx, by simp⟩) _ hxy.2⟩
  | inList id id' h hs =>
    obtain ⟨hoperand, hitems⟩ := List.forall_mem_cons.1 hsymm
    exact .inList id' id (hoperand _ h) (items_symm hs hitems)
  | vector hs => exact .vector (items_symm hs hsymm)
  | _ =>
    -- Part by part.
    constructor <;> grind [subexpressions, children, Text.sameName_comm]

theorem Kind.Related.imp (h : Kind.Related R a b)
    (himp : ∀ x ∈ a.subexpressions, ∀ y ∈ b.subexpressions, R x y → S x y) : Kind.Related S a b := by
  have hflip : Kind.Related (fun y x => x ∈ a.subexpressions ∧ R x y) b a := h.symm fun x hx y hxy => ⟨hx, hxy⟩
  exact hflip.symm fun y hy x hxy => himp x hxy.1 y hy hxy.2

end

namespace Expr

variable {x y z : Expr}

theorem DistinctAlike.symm (h : x.DistinctAlike y) : y.DistinctAlike x := by
  rcases h with ⟨v, w, hx, hy⟩ | h
  · exact .inl ⟨w, v, hy, hx⟩
  · exact .inr h.symm

theorem Matches.symm (h : Matches x y) : Matches y x := by
  induction x using Expr.subexpressions_induction generalizing y with
  | step info kind ih =>
    obtain ⟨hdistinct, hk⟩ := matches_iff.1 h
    exact matches_iff.2 ⟨hdistinct.symm, hk.symm fun x hx y hxy => ih x hx hxy⟩

theorem Matches.refl (h : a.Every fun e => ∀ action message, e.kind ≠ .raise action message) : Matches a a := by
  induction h with
  | node here _ ih => exact matches_iff.2 ⟨.inr rfl, .refl here ih⟩

/-! ## The order of the trees -/

variable {a b : Expr}

theorem ofBool_ne (b : Bool) : Match.ofBool b ≠ .equalUnderCollate := by
  cases b <;> rintro ⟨⟩

theorem skipCollate_not_collate (e : Expr) (z : Expr) (c : String) : e.skipCollate.kind ≠ .collate z c := by
  induction e using Expr.children_induction with
  | step info kind ih =>
    cases kind with
    | collate operand name => exact ih operand List.mem_cons_self
    | _ => rintro ⟨⟩

/-- A node without COLLATE at the top is compared with what is under COLLATE. -/
theorem compare_of_not_collate (h : ∀ z c, a.kind ≠ .collate z c) (b : Expr) :
    ∃ t : Bool, compare none a b.skipCollate = .ofBool t ∧ compare none a b = seenFrom b (.ofBool t) := by
  have hskip : b.skipCollate.skipCollate = b.skipCollate := skipCollate_of_not_collate b.skipCollate_not_collate
  have hseen (m : Match) : seenFrom b.skipCollate m = m := seenFrom_of_not_collate b.skipCollate_not_collate m
  rw [compare.eq_def none a b, compare.eq_def none a b.skipCollate]
  split
  · exact absurd rfl (h _ _)
  · simp only [hseen, hskip]
    exact ⟨_, rfl, rfl⟩

/-- Outcomes that do not hang on COLLATE at the top are the same in both orders. -/
theorem compare_comm_of_ne (h : compare none a b ≠ .equalUnderCollate) (h' : compare none b a ≠ .equalUnderCollate) :
    compare none a b = compare none b a := by
  by_cases hm : Matches a b
  · exact Eq.trans hm (Eq.symm hm.symm)
  · have hm' : ¬Matches b a := fun hba => hm hba.symm
    unfold Matches at hm hm'
    cases hab : compare none a b <;> cases hba : compare none b a <;> simp_all

/-- COLLATE at the top of the right side alone is seen from outside of it. -/
theorem compare_collate_right (h : ∀ z c, a.kind ≠ .collate z c) (j : NodeInfo) (d : String) :
    compare none a (.node j (.collate y d)) = (compare none a y).underCollate := by
  obtain ⟨t, hskip, hseen⟩ := compare_of_not_collate h (.node j (.collate y d))
  obtain ⟨t', hskip', hseen'⟩ := compare_of_not_collate h y
  have ht : Match.ofBool t = Match.ofBool t' := hskip.symm.trans hskip'
  rw [hseen, hseen', ht]
  show (Match.ofBool t').underCollate = _
  unfold seenFrom
  split <;> cases t' <;> rfl

theorem compare_collate_left (h : ∀ z c, b.kind ≠ .collate z c) (i : NodeInfo) (c : String) :
    compare none (.node i (.collate x c)) b = (compare none x b).underCollate := by
  obtain ⟨j, k⟩ := b
  cases k with
  | collate y d => exact absurd rfl (h y d)
  | _ => rfl

theorem compare_comm_of_not_collate (h : ∀ z c, a.kind ≠ .collate z c) : compare none a b = compare none b a := by
  induction b using Expr.children_induction with
  | step j k ih =>
    by_cases hk : ∃ y d, k = .collate y d
    · obtain ⟨y, d, rfl⟩ := hk
      rw [compare_collate_right h, compare_collate_left h, ih y List.mem_cons_self]
    · have hk (y : Expr) (d : String) : (Expr.node j k).kind ≠ .collate y d := fun hy => hk ⟨y, d, hy⟩
      obtain ⟨t, -, hab⟩ := compare_of_not_collate h (.node j k)
      obtain ⟨t', -, hba⟩ := compare_of_not_collate hk a
      rw [seenFrom_of_not_collate hk] at hab
      rw [seenFrom_of_not_collate h] at hba
      exact compare_comm_of_ne (hab ▸ ofBool_ne t) (hba ▸ ofBool_ne t')

theorem compare_comm (a b : Expr) : compare none a b = compare none b a := by
  by_cases ha : ∃ x c, a.kind = .collate x c
  · by_cases hb : ∃ y d, b.kind = .collate y d
    · obtain ⟨i, k⟩ := a
      obtain ⟨j, l⟩ := b
      obtain ⟨x, c, rfl : k = _⟩ := ha
      obtain ⟨y, d, rfl : l = _⟩ := hb
      exact compare_comm_of_ne (ofBool_ne _) (ofBool_ne _)
    · exact (compare_comm_of_not_collate fun y d hy => hb ⟨y, d, hy⟩).symm
  · exact compare_comm_of_not_collate fun x c hx => ha ⟨x, c, hx⟩

end Expr

/-! ## Transitivity -/

/-- What calls that share a window have in common. -/
def Window.terms (w : Window Expr) : Option String × List (Item Expr) × List (Item Expr) :=
  (w.name, w.partitionBy, w.orderBy)

structure Naming where
  window : Identity → Option (Option String × List (Item Expr) × List (Item Expr))
  source : Identity → Option Expr

/-- The identity at a node stands for what is there. -/
def Naming.Fits (ν : Naming) : Kind Expr Select → Prop
  | .call _ _ (some w) => ν.window w.id = some w.terms
  | .selectColumn share source _ _ => ν.source share = some source
  | _ => True

/-- Throughout the expression, identities stand for what is there. -/
inductive Expr.Named (ν : Naming) : Expr → Prop
  | node {info kind} (here : ν.Fits kind) (parts : ∀ e ∈ kind.subexpressions, Named ν e) : Named ν (.node info kind)

section

variable {R : Expr → Expr → Prop} {a b c : Kind Expr Select} {ν : Naming}

theorem forall₂_trans_of_mem {α : Type} {P : α → α → Prop} {xs ys zs : List α} (h : List.Forall₂ P xs ys)
    (h' : List.Forall₂ P ys zs) (htrans : ∀ x ∈ xs, ∀ y z, P x y → P y z → P x z) : List.Forall₂ P xs zs := by
  induction h generalizing zs with
  | nil => exact h'
  | cons hxy _ ih =>
    obtain ⟨hx, hxs⟩ := List.forall_mem_cons.1 htrans
    cases h' with
    | cons hyz h' => exact .cons (hx _ _ hxy hyz) (ih h' hxs)

theorem rel_trans_of_mem {α : Type} {P : α → α → Prop} {x y z : Option α} (h : Option.Rel P x y)
    (h' : Option.Rel P y z) (htrans : ∀ x' ∈ x.toList, ∀ y z, P x' y → P y z → P x' z) : Option.Rel P x z := by
  cases h with
  | none => exact h'
  | some hxy =>
    cases h' with
    | some hyz => exact .some (htrans _ (List.mem_singleton_self _) _ _ hxy hyz)

theorem items_trans {xs ys zs : List (Item Expr)} (h : List.Forall₂ (Item.Related R) xs ys)
    (h' : List.Forall₂ (Item.Related R) ys zs) (htrans : ∀ x ∈ xs.map (·.expr), ∀ y z, R x y → R y z → R x z) :
    List.Forall₂ (Item.Related R) xs zs :=
  forall₂_trans_of_mem h h' fun _ hx _ _ hxy hyz =>
    ⟨hxy.1.trans hyz.1, htrans _ (List.mem_map_of_mem hx) _ _ hxy.2 hyz.2⟩

theorem Window.terms_eq {v w : Window Expr} (hv : ν.window v.id = some v.terms) (hw : ν.window w.id = some w.terms)
    (h : v.id = w.id) : v.name = w.name ∧ v.partitionBy = w.partitionBy ∧ v.orderBy = w.orderBy := by
  have hterms : v.terms = w.terms := Option.some.inj (hv.symm.trans (h ▸ hw))
  simpa [terms] using hterms

theorem Window.Related.trans {v w u : Window Expr} (hv : ν.window v.id = some v.terms)
    (hw : ν.window w.id = some w.terms) (hu : ν.window u.id = some u.terms)
    (h : Window.Related R v w) (h' : Window.Related R w u)
    (htrans : ∀ x ∈ v.partitionBy.map (·.expr) ++ v.orderBy.map (·.expr), ∀ y z, R x y → R y z → R x z) :
    Window.Related R v u := by
  rcases h with h | h
  · obtain ⟨hname, hpartition, horder⟩ := Window.terms_eq hv hw h
    rwa [Window.Related, h, hname, hpartition, horder]
  · rcases h' with h' | h'
    · obtain ⟨hname, hpartition, horder⟩ := Window.terms_eq hw hu h'
      rw [Window.Related, ← hname, ← hpartition, ← horder]
      exact .inr h
    · obtain ⟨hpartition, horder⟩ := List.forall_mem_append.1 htrans
      exact .inr ⟨h.1.trans h'.1, items_trans h.2.1 h'.2.1 hpartition, items_trans h.2.2 h'.2.2 horder⟩

/-- To be of the same kind is transitive if the relation of the parts is, where identities stand for what is there. -/
theorem Kind.Related.trans (ha : ν.Fits a) (hb : ν.Fits b) (hc : ν.Fits c) (h : Kind.Related R a b)
    (h' : Kind.Related R b c) (htrans : ∀ x ∈ a.subexpressions, ∀ y z, R x y → R y z → R x z) : Kind.Related R a c := by
  cases h with
  | null | integer | float | string | blob | boolean | ident | param => exact h'
  | aggCall n hname h =>
    cases h' with
    | aggCall _ hname' h' => exact .aggCall n (Text.sameName_trans hname hname') (items_trans h h' htrans)
  | call hname h hw =>
    obtain ⟨hargs, hterms⟩ := List.forall_mem_append.1 htrans
    cases h' with
    | call hname' h' hw' =>
      refine .call (Text.sameName_trans hname hname') (items_trans h h' hargs) ?_
      cases hw with
      | none => exact hw'
      | some hw =>
        cases hw' with
        | some hw' => exact .some (hw.trans ha hb hc hw' (by simpa using hterms))
  | caseOf hbase harms hother =>
    obtain ⟨⟨hb', ha'⟩, ho'⟩ := List.forall_mem_append.1 htrans |>.imp_left List.forall_mem_append.1
    cases h' with
    | caseOf hbase' harms' hother' =>
      refine .caseOf (rel_trans_of_mem hbase hbase' hb') (forall₂_trans_of_mem harms harms' fun x hx y z hxy hyz => ?_)
        (rel_trans_of_mem hother hother' ho')
      have harm := fun e he => ha' e (List.mem_flatMap.2 ⟨x, hx, he⟩)
      exact ⟨harm _ (.head _) _ _ hxy.1 hyz.1, harm _ (.tail _ (.head _)) _ _ hxy.2 hyz.2⟩
  | inList id id' h hs =>
    obtain ⟨hoperand, hitems⟩ := List.forall_mem_cons.1 htrans
    cases h' with
    | inList _ id'' h' hs' => exact .inList id id'' (hoperand _ _ h h') (items_trans hs hs' hitems)
  | selectColumn column expected expected' h =>
    cases h' with
    | selectColumn _ _ expected'' h' =>
      -- Sub-queries of one identity are the same.
      refine .selectColumn column expected expected'' ?_
      rcases h with rfl | h
      · cases Option.some.inj (ha.symm.trans hb)
        exact h'
      · rcases h' with rfl | h'
        · cases Option.some.inj (hb.symm.trans hc)
          exact .inr h
        · exact .inr (htrans _ (.head _) _ _ h h')
  | vector hs =>
    cases h' with
    | vector hs' => exact .vector (items_trans hs hs' htrans)
  | _ =>
    -- Part by part.
    cases h'
    constructor <;> grind [subexpressions, children, Text.sameName_trans]

end

namespace Expr

variable {x y z : Expr} {ν : Naming}

theorem Named.here (h : x.Named ν) : ν.Fits x.kind := by
  cases h
  assumption

theorem Named.parts (h : x.Named ν) : ∀ e ∈ x.kind.subexpressions, e.Named ν := by
  cases h
  assumption

theorem DistinctAlike.trans (h : x.DistinctAlike y) (h' : y.DistinctAlike z)
    (hk : Kind.Related Matches x.kind y.kind) (hk' : Kind.Related Matches y.kind z.kind) : x.DistinctAlike z := by
  rcases h with ⟨v, w, hx, hy⟩ | h
  · rw [hy] at hk'
    generalize hz : z.kind = kz at hk'
    cases hk' with
    | integer => exact .inl ⟨v, w, hx, hz⟩
  · rcases h' with ⟨v, w, hy, hz⟩ | h'
    · rw [hy] at hk
      generalize hx : x.kind = kx at hk
      cases hk with
      | integer => exact .inl ⟨v, w, hx, hz⟩
    · exact .inr (h.trans h')

theorem Matches.trans (hx : x.Named ν) (hy : y.Named ν) (hz : z.Named ν) (h : Matches x y) (h' : Matches y z) :
    Matches x z := by
  induction x using Expr.subexpressions_induction generalizing y z with
  | step info kind ih =>
    obtain ⟨hdistinct, hk⟩ := matches_iff.1 h
    obtain ⟨hdistinct', hk'⟩ := matches_iff.1 h'
    refine matches_iff.2 ⟨hdistinct.trans hdistinct' hk hk', ?_⟩
    -- The parts are related if they match and the second one is named.
    have hparts := Kind.Related.trans (R := fun x y => Matches x y ∧ y.Named ν) hx.here hy.here hz.here
      (hk.imp fun _ _ y hy' h => ⟨h, hy.parts y hy'⟩) (hk'.imp fun _ _ z hz' h => ⟨h, hz.parts z hz'⟩)
      fun x hx' y z hxy hyz => ⟨ih x hx' (hx.parts x hx') hxy.2 hyz.2 hxy.1 hyz.1, hyz.2⟩
    exact hparts.imp fun _ _ _ _ h => h.1

/-- The comparison of trees is an equivalence. Its outcome is the same in both orders, to match is transitive where an
identity stands for one window or one shared sub-query, and a tree without RAISE matches itself. -/
theorem compare_equivalence (a b c : Expr) :
    compare none a b = compare none b a ∧
      (∀ ν, a.Named ν → b.Named ν → c.Named ν → compare none a b = .equal → compare none b c = .equal →
        compare none a c = .equal) ∧
      ((a.Every fun e => ∀ action message, e.kind ≠ .raise action message) → compare none a a = .equal) :=
  ⟨compare_comm a b, fun _ ha hb hc => Matches.trans ha hb hc, Matches.refl⟩

/-- A call over a window without terms. -/
def windowed (name : String) (id : Identity) : Expr := .ofKind (.call name [] (some ⟨id, none, [], [], 0⟩))

/-- The first two calls match by the identity of their window, the last two by its terms. -/
theorem compare_equivalence_windowed : compare none (windowed "max" 7) (windowed "MAX" 8) = .equal ∧
    compare none (windowed "max" 7) (windowed "max" 7) = .equal := by
  have hnamed (name : String) (id : Identity) :
      (windowed name id).Named ⟨fun _ => some (none, [], []), fun _ => none⟩ :=
    .node rfl (by simp [Kind.subexpressions])
  obtain ⟨-, htrans, hself⟩ := compare_equivalence (windowed "max" 7) (windowed "Max" 7) (windowed "MAX" 8)
  refine ⟨htrans _ (hnamed _ _) (hnamed _ _) (hnamed _ _) (by decide +kernel) (by decide +kernel),
    hself (.node ?_ ?_)⟩
  · rintro action message ⟨⟩
  · simp

end Expr

end ScalarSql
