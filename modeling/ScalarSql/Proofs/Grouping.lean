import ScalarSql.Proofs.Attempts
import ScalarSql.Proofs.Matching

/-!
# Constants within a group

A condition on groups may be tested on rows, before they are grouped, if it has one value in each group. It counts as
such if it is built from constants and from terms of GROUP BY whose collating sequence is BINARY. Without terms these
are just the constants. Scalar expressions of that kind deliver the same value wherever the terms do
(`Gen.group_constant_delivered_alike`).

Terms are found by comparison, which compares sub-selects by their identities alone. So a copy of a sub-select that
reads one table counts as constant if a copy that reads another one is a term (`Gen.group_constant_delivered_apart`).
-/

namespace ScalarSql

open Gen

/-! ## Look-ups that find the same collating sequences -/

/-- The collating sequences of the catalog, which its factory may add to without changing them. -/
structure Catalog.Answers (answers : String → Option Collation) (c : Catalog) : Prop where
  tame : c.collations.Tame
  answer : ∀ name, c.collations.answer name = answers name

/-- The look-up leaves the answers as they are, and what it finds has the property. -/
def Lookup.Sees {α : Type} (answers : String → Option Collation) (x : Lookup α) (P : α → Prop) : Prop :=
  ∀ c r c', c.Answers answers → Responds x c r c' → c'.Answers answers ∧ ∀ a, r = .ok a → P a

namespace Lookup.Sees

variable {α β : Type} {answers : String → Option Collation} {x : Lookup α} {P Q : α → Prop}

theorem pure {a : α} (h : P a) : Sees answers (Pure.pure a) P := by
  intro c r c' hc hresponds
  obtain ⟨rfl, rfl⟩ := responds_pure.1 hresponds
  refine ⟨hc, ?_⟩
  rintro _ ⟨⟩
  exact h

theorem throw (e : CompileError) : Sees answers (MonadExcept.throw e) P := by
  intro c r c' hc hresponds
  obtain ⟨rfl, rfl⟩ := responds_throw.1 hresponds
  exact ⟨hc, by rintro _ ⟨⟩⟩

theorem bind {f : α → Lookup β} {R : β → Prop} (hx : Sees answers x P) (hf : ∀ a, P a → Sees answers (f a) R) :
    Sees answers (x >>= f) R := by
  intro c r c' hc hresponds
  rcases responds_bind.1 hresponds with ⟨e, he, rfl⟩ | ⟨a, c1, ha, hrest⟩
  · exact ⟨(hx c _ c' hc he).1, by rintro _ ⟨⟩⟩
  · obtain ⟨hc1, hP⟩ := hx c _ c1 hc ha
    exact hf a (hP a rfl) c1 r c' hc1 hrest

theorem mono (hx : Sees answers x P) (h : ∀ a, P a → Q a) : Sees answers x Q := fun c r c' hc hresponds =>
  ⟨(hx c r c' hc hresponds).1, fun a ha => h a ((hx c r c' hc hresponds).2 a ha)⟩

theorem both {x : Lookup Bool} {f : Bool → Lookup Bool} {p q r : Prop} (hx : Sees answers x fun b => b → p)
    (hno : f false = Pure.pure false) (hyes : Sees answers (f true) fun b => b → q) (h : p → q → r) :
    Sees answers (x >>= f) fun b => b → r := by
  refine .bind hx fun b hb => ?_
  cases b with
  | false =>
    rw [hno]
    exact .pure Bool.noConfusion
  | true => exact hyes.mono fun b hq htrue => h (hb rfl) (hq htrue)

end Lookup.Sees

open Lookup

variable {answers : String → Option Collation}

theorem Lookup.collation_sees (name : String) :
    Sees answers (Lookup.collation name) fun c => answers name = some c := by
  refine .bind (P := fun found => answers name = found) (fun c r c' hc hresponds => ?_) fun found hfound => ?_
  · obtain ⟨rfl, rfl⟩ := responds_lift.1 hresponds
    obtain ⟨htame, hfound, hsame⟩ :=
      Collations.resolve_spec hc.tame (rfl : Collations.resolve name .utf8 c.collations = _)
    refine ⟨⟨htame, fun n => (hsame n).trans (hc.answer n)⟩, ?_⟩
    rintro _ ⟨⟩
    exact (hc.answer name).symm.trans hfound
  · cases found with
    | some c => exact .pure hfound
    | none => exact .throw _

theorem Lookup.collation?_sees (name : Option String) :
    Sees answers (Lookup.collation? name) (Option.Rel (fun n c => answers n = some c) name) := by
  cases name with
  | none => exact .pure .none
  | some n => exact .bind (collation_sees n) fun c hc => .pure (.some hc)

/-! ## What the walk finds -/

namespace Expr

variable {g : List (Item Expr)} {e : Expr} {items : List (Item Expr)} {o : Option Expr} {arms : List (Expr × Expr)}

/-- The collating sequence of the expression is BINARY, if it has one. -/
def Binary (answers : String → Option Collation) (e : Expr) : Prop :=
  ∀ name, e.collationName? = some name → ∃ c, answers name = some c ∧ c.isBinary = true

/-- An expression whose value is given by those of the terms. -/
inductive Pinned (answers : String → Option Collation) (g : List (Item Expr)) : Expr → Prop where
  /-- It matches a term whose collating sequence is BINARY. -/
  | term {e : Expr} {term : Item Expr} (hterm : term ∈ g) (hmatch : compare none e term.expr ≠ .different)
    (hbinary : term.expr.Binary answers) : Pinned answers g e
  | constant {e : Expr} (h : e.isConstant .plain = true) : Pinned answers g e
  /-- It is a node that is constant if its parts are, and their values are given. -/
  | node {e : Expr} (h : e.constantNode = true) (hparts : ∀ x ∈ e.kind.children, Pinned answers g x) :
    Pinned answers g e

theorem collation_sees (e : Expr) :
    Sees answers e.collation fun found => (∀ c, found = some c → c.isBinary) → e.Binary answers := by
  refine (Lookup.collation?_sees e.collationName?).mono fun found hfound hbinary name hname => ?_
  rw [hname] at hfound
  cases hfound with
  | some hc => exact ⟨_, hc, hbinary _ rfl⟩

theorem matchesTerm_sees (e : Expr) (g : List (Item Expr)) : Sees answers (matchesTerm e g) fun b => b →
      ∃ term ∈ g, compare none e term.expr ≠ .different ∧ term.expr.Binary answers := by
  induction g with
  | nil => exact .pure Bool.noConfusion
  | cons term g ih =>
    have hrest : Sees answers (matchesTerm e g) fun b => b →
        ∃ x ∈ term :: g, compare none e x.expr ≠ .different ∧ x.expr.Binary answers :=
      ih.mono fun b hb htrue => by
        obtain ⟨x, hx, hfound⟩ := hb htrue
        exact ⟨x, List.mem_cons_of_mem _ hx, hfound⟩
    unfold matchesTerm
    split
    · exact hrest
    · rename_i hmatch
      have hdifferent : compare none e term.expr ≠ .different := fun h => hmatch (by rw [h]; rfl)
      refine .bind term.expr.collation_sees fun found hfound => ?_
      cases found with
      | none => exact .pure fun _ => ⟨term, List.mem_cons_self, hdifferent, hfound (by rintro _ ⟨⟩)⟩
      | some c =>
        show Sees answers (if c.isBinary then _ else _) _
        split
        · rename_i hc
          exact .pure fun _ => ⟨term, List.mem_cons_self, hdifferent, hfound (by rintro _ ⟨⟩; exact hc)⟩
        · exact hrest

theorem itemsConstantOrGroupBy_sees
    (h : ∀ x ∈ items.map (·.expr), Sees answers (isConstantOrGroupBy g x) fun b => b → Pinned answers g x) :
    Sees answers (itemsConstantOrGroupBy g items) fun b => b → ∀ x ∈ items.map (·.expr), Pinned answers g x := by
  induction items with
  | nil => exact .pure fun _ => List.forall_mem_nil _
  | cons item items ih =>
    obtain ⟨e, d, o⟩ := item
    obtain ⟨he, hitems⟩ := List.forall_mem_cons.1 h
    unfold itemsConstantOrGroupBy
    exact .both he rfl (ih hitems) fun he hitems => List.forall_mem_cons.2 ⟨he, hitems⟩

theorem optionConstantOrGroupBy_sees
    (h : ∀ x ∈ o.toList, Sees answers (isConstantOrGroupBy g x) fun b => b → Pinned answers g x) :
    Sees answers (optionConstantOrGroupBy g o) fun b => b → ∀ x ∈ o.toList, Pinned answers g x := by
  cases o with
  | none => exact .pure fun _ => List.forall_mem_nil _
  | some e =>
    exact (List.forall_mem_singleton.1 h).mono fun b hb htrue => List.forall_mem_singleton.2 (hb htrue)

theorem armsConstantOrGroupBy_sees (h : ∀ x ∈ arms.flatMap fun arm => [arm.1, arm.2],
      Sees answers (isConstantOrGroupBy g x) fun b => b → Pinned answers g x) :
    Sees answers (armsConstantOrGroupBy g arms) fun b => b →
      ∀ x ∈ arms.flatMap fun arm => [arm.1, arm.2], Pinned answers g x := by
  induction arms with
  | nil => exact .pure fun _ => List.forall_mem_nil _
  | cons arm arms ih =>
    obtain ⟨condition, result⟩ := arm
    obtain ⟨hcondition, hrest⟩ := List.forall_mem_cons.1 h
    obtain ⟨hresult, harms⟩ := List.forall_mem_cons.1 hrest
    unfold armsConstantOrGroupBy
    refine .both hcondition rfl (.both hresult rfl (ih harms) fun hr ha => List.forall_mem_cons.2 ⟨hr, ha⟩) ?_
    exact fun hc hrest => List.forall_mem_cons.2 ⟨hc, hrest⟩

/-- If an expression counts as constant within a group, then its value is given by those of the terms. -/
theorem isConstantOrGroupBy_sees (e : Expr) (g : List (Item Expr)) :
    Sees answers (isConstantOrGroupBy g e) fun b => b → Pinned answers g e := by
  induction e using Expr.children_induction with
  | step info kind ih =>
    unfold isConstantOrGroupBy
    refine .bind (matchesTerm_sees _ g) fun b hb => ?_
    cases b with
    | true =>
      obtain ⟨term, hterm, hmatch, hbinary⟩ := hb rfl
      exact .pure fun _ => .term hterm hmatch hbinary
    | false =>
      cases kind with
      | unary op operand | collate operand name | cast operand type | selectColumn id operand column width =>
        refine (ih operand (by simp)).mono fun b hb htrue => ?_
        exact .node rfl (List.forall_mem_singleton.2 (hb htrue))
      | binary op left right =>
        refine .both (ih left (by simp)) rfl (ih right (by simp)) fun hl hr => ?_
        exact .node rfl (List.forall_mem_cons.2 ⟨hl, List.forall_mem_singleton.2 hr⟩)
      | between operand low high =>
        refine .both (ih operand (by simp)) rfl (.both (ih low (by simp)) rfl
          (ih high (by simp)) And.intro) fun ho hrest => ?_
        exact .node rfl (List.forall_mem_cons.2 ⟨ho, List.forall_mem_cons.2 ⟨hrest.1,
          List.forall_mem_singleton.2 hrest.2⟩⟩)
      | inList id operand items =>
        obtain ⟨hoperand, hitems⟩ := List.forall_mem_cons.1 ih
        refine .both hoperand rfl (itemsConstantOrGroupBy_sees hitems) fun ho hi => ?_
        exact .node rfl (List.forall_mem_cons.2 ⟨ho, hi⟩)
      | vector items => exact (itemsConstantOrGroupBy_sees ih).mono fun b hb htrue => .node rfl (hb htrue)
      | call name args window =>
        show Sees answers (if (window.isSome || !info.flags.constantCall) then _ else _) _
        split
        · exact .pure Bool.noConfusion
        · rename_i hcall
          refine (itemsConstantOrGroupBy_sees ih).mono fun b hb htrue => .node ?_ (hb htrue)
          simpa [constantNode, Expr.flags, Expr.info, and_comm] using hcall
      | caseOf base arms otherwise =>
        simp only [Kind.children, List.forall_mem_append] at ih
        obtain ⟨⟨hbase, harms⟩, hotherwise⟩ := ih
        refine .both (optionConstantOrGroupBy_sees hbase) rfl (.both (armsConstantOrGroupBy_sees harms) rfl
          (optionConstantOrGroupBy_sees hotherwise) And.intro) fun hb hrest => .node rfl ?_
        exact List.forall_mem_append.2 ⟨List.forall_mem_append.2 ⟨hb, hrest.1⟩, hrest.2⟩
      | inSelect | hasRows | subquery | aggCall | ifNullRow | register | raise => exact .pure Bool.noConfusion
      | column | aggColumn | ident | param => exact .pure .constant
      | _ => exact .pure fun _ => .constant rfl

/-! ## Without terms -/

theorem itemsConstantOrGroupBy_nil
    (h : ∀ x ∈ items.map (·.expr), isConstantOrGroupBy [] x = pure (x.isConstant .plain)) :
    itemsConstantOrGroupBy [] items = pure (itemsConstant .plain items) := by
  induction items with
  | nil => rfl
  | cons item items ih =>
    obtain ⟨e, d, o⟩ := item
    obtain ⟨he, hitems⟩ := List.forall_mem_cons.1 h
    rw [itemsConstantOrGroupBy, itemsConstant, he, pure_bind, ih hitems]
    cases e.isConstant .plain <;> rfl

theorem optionConstantOrGroupBy_nil (h : ∀ x ∈ o.toList, isConstantOrGroupBy [] x = pure (x.isConstant .plain)) :
    optionConstantOrGroupBy [] o = pure (optionConstant .plain o) := by
  cases o with
  | none => rfl
  | some e => exact h e List.mem_cons_self

theorem armsConstantOrGroupBy_nil
    (h : ∀ x ∈ arms.flatMap fun arm => [arm.1, arm.2], isConstantOrGroupBy [] x = pure (x.isConstant .plain)) :
    armsConstantOrGroupBy [] arms = pure (armsConstant .plain arms) := by
  induction arms with
  | nil => rfl
  | cons arm arms ih =>
    obtain ⟨condition, result⟩ := arm
    obtain ⟨hcondition, hrest⟩ := List.forall_mem_cons.1 h
    obtain ⟨hresult, harms⟩ := List.forall_mem_cons.1 hrest
    rw [armsConstantOrGroupBy, armsConstant, hcondition, hresult, pure_bind, pure_bind, ih harms]
    cases condition.isConstant .plain <;> cases result.isConstant .plain <;> rfl

theorem isConstantOrGroupBy_nil (e : Expr) : isConstantOrGroupBy [] e = pure (e.isConstant .plain) := by
  induction e using Expr.children_induction with
  | step info kind ih =>
    have hterm : matchesTerm (.node info kind) [] = pure false := rfl
    rw [isConstantOrGroupBy.eq_def, isConstant.eq_def]
    simp only [hterm, pure_bind, Bool.false_eq_true, if_false]
    cases kind with
    | call name args window =>
      dsimp only
      rw [itemsConstantOrGroupBy_nil ih]
      cases window <;> cases info.flags.constantCall <;> rfl
    | binary op left right =>
      dsimp only
      rw [ih left (by simp), ih right (by simp), pure_bind]
      cases left.isConstant .plain <;> rfl
    | between operand low high =>
      dsimp only
      rw [ih operand (by simp), ih low (by simp), ih high (by simp), pure_bind, pure_bind]
      cases operand.isConstant .plain <;> cases low.isConstant .plain <;> rfl
    | inList id operand items =>
      obtain ⟨hoperand, hitems⟩ := List.forall_mem_cons.1 ih
      dsimp only
      rw [hoperand, itemsConstantOrGroupBy_nil hitems, pure_bind]
      cases operand.isConstant .plain <;> rfl
    | caseOf base arms otherwise =>
      simp only [Kind.children, List.forall_mem_append] at ih
      obtain ⟨⟨hbase, harms⟩, hotherwise⟩ := ih
      dsimp only
      rw [optionConstantOrGroupBy_nil hbase, armsConstantOrGroupBy_nil harms, optionConstantOrGroupBy_nil hotherwise,
        pure_bind, pure_bind]
      cases optionConstant .plain base <;> cases armsConstant .plain arms <;> rfl
    | vector items => exact itemsConstantOrGroupBy_nil ih
    | unary op operand | collate operand name | cast operand type | selectColumn id operand column width =>
      exact ih operand (by simp)
    | column ref => exact congrArg pure (isConstant.eq_def ..)
    | _ => rfl

/-! ## Values that are given by the terms -/

variable {fs : Functions} {cursors : Int → Prop} {tables : Int → Option Table} {env env' : Env}

theorem same_of_value {v : Value} (hv : e.meaning.value env = some v) (hv' : e.meaning.value env' = some v) :
    SameMeaning env env' e e := by
  refine sameMeaning_self ⟨.refl _, ⟨rfl, rfl⟩, hv.trans hv'.symm, ?_, fun w j => ?_, fun w j => ?_⟩
  · -- only a row value has fields, and it has no value
    obtain ⟨info, kind⟩ := e
    cases kind with
    | vector items => cases hv
    | integer literal => cases literal <;> rfl
    | _ => rfl
  · rw [(e.meaning_agrees env).jump v hv, (e.meaning_agrees env').jump v hv']
  · rw [(e.meaning_agrees env).branch v hv, (e.meaning_agrees env').branch v hv']

/-- An expression that is given by terms means the same where the terms have the same values. -/
theorem Pinned.same (henv : env.Agrees env') (hblind : env.CaseBlind) (hblind' : env'.CaseBlind)
    (hg : ∀ term ∈ g, term.expr.Every (BoundNode fs cursors tables)) (hterms : ∀ term ∈ g, term.expr.Binary answers →
      ∃ v, term.expr.meaning.value env = some v ∧ term.expr.meaning.value env' = some v) (h : e.Pinned answers g)
    (he : e.Every (BoundNode fs cursors tables)) : SameMeaning env env' e e := by
  induction h with
  | term hterm hmatch hbinary =>
    obtain ⟨v, hv, hv'⟩ := hterms _ hterm hbinary
    exact same_of_value ((value_eq_of_compare hblind he (hg _ hterm) hmatch).trans hv)
      ((value_eq_of_compare hblind' he (hg _ hterm) hmatch).trans hv')
  | constant hconstant => exact (readsOnly_of_isConstant hconstant).same henv (by rintro _ ⟨⟩)
  | @node e hnode _ ih =>
    obtain ⟨info, kind⟩ := e
    refine .node henv ?_ fun x hx => ih x hx (he.children x hx)
    rintro ref rfl
    cases hnode

end Expr

/-! ## Two rows of a group -/

structure VisitedRow where
  store : Store
  outer : List (Int × Cursor)
  stored : ∀ q ∈ outer, q.2.isStored = true
  position : Nat

section

variable {catalog : Catalog} {config : Config} {setting : Setting} {t : Table} {cursor : Int} {params : List Value}
  {row : VisitedRow} {e : Expr} {v : Value}

/-- A scan with the expression delivers the value for the row. -/
def Gen.ValueAt (catalog : Catalog) (config : Config) (setting : Setting) (t : Table) (cursor : Int)
    (params : List Value) (row : VisitedRow) (e : Expr) (v : Value) : Prop :=
  ∃ rows, (forEachRow setting t cursor 1 (outcomeRow [.value e])).Delivers catalog config row.store params
    row.outer rows ∧ rows[row.position]? = some [v]

theorem Gen.ValueAt.meaning (h : ValueAt catalog config setting t cursor params row e v)
    (htame : catalog.collations.Tame) (hscalar : e.Scalar catalog.functions (setting.Reserves cursor))
    (hdistinct : e.identities.Nodup) : ∃ r, (row.store.rows t.id)[row.position]? = some r ∧
      e.meaning.value ((Env.under setting catalog config params row.outer).at cursor r) = some v := by
  obtain ⟨rows, hdelivers, hv⟩ := h
  obtain ⟨vss, hvss, rfl⟩ := Delivers.outcomes [.value e] hdelivers htame (List.forall_mem_singleton.2 hscalar)
    (by simpa [Outcome.expr] using hdistinct) row.stored
  rw [List.getElem?_toArray] at hv
  have hlt : row.position < (row.store.rows t.id).length := length_of_mapM hvss ▸ (List.getElem?_eq_some_iff.1 hv).1
  obtain ⟨vs, hvs, hi⟩ := getElem?_of_mapM hvss (List.getElem?_eq_getElem hlt)
  cases hi.symm.trans hv
  refine ⟨_, List.getElem?_eq_getElem hlt, ?_⟩
  rw [List.map_singleton, rowValues_single] at hvs
  obtain ⟨w, hw, ⟨⟩⟩ := Option.map_eq_some_iff.1 hvs
  exact hw

/-- Without terms the constants count as constant within a group. With terms, let an expression count as such, and let
it and the terms be scalar and resolved against the same tables. It has the same value for two rows if the parameters
are the same and each term whose collating sequence is BINARY has the same value for both. -/
theorem Gen.group_constant_delivered_alike (tables : Int → Option Table) :
    (∀ e, Responds (Expr.isConstantOrGroupBy [] e) catalog (.ok (e.isConstant .plain)) catalog) ∧
    ∀ (e : Expr) (g : List (Item Expr)) (row row' : VisitedRow) (v v' : Value) (catalog' : Catalog),
      catalog.collations.Tame →
      (∀ x ∈ e :: g.map (·.expr),
        x.Every (Expr.BoundNode catalog.functions (setting.Reserves cursor) tables) ∧ x.identities.Nodup) →
      Responds (e.isConstantOrGroupBy g) catalog (.ok true) catalog' →
      (∀ term ∈ g, term.expr.Binary catalog.collations.answer → ∃ w,
        ValueAt catalog config setting t cursor params row term.expr w ∧
          ValueAt catalog config setting t cursor params row' term.expr w) →
      ValueAt catalog config setting t cursor params row e v →
      ValueAt catalog config setting t cursor params row' e v' → v = v' := by
  refine ⟨fun e => ?_, fun e g row row' v v' catalog' htame hbound htrue hterms hv hv' => ?_⟩
  · rw [Expr.isConstantOrGroupBy_nil]
    rfl
  have hscalar {x : Expr} (hx : x ∈ e :: g.map (·.expr)) : x.Scalar catalog.functions (setting.Reserves cursor) :=
    (hbound x hx).1.mono fun _ h => h.1
  have hmem {term : Item Expr} (hterm : term ∈ g) : term.expr ∈ e :: g.map (·.expr) :=
    List.mem_cons_of_mem _ (List.mem_map_of_mem hterm)
  obtain ⟨r, hr, hvalue⟩ := hv.meaning htame (hscalar List.mem_cons_self) (hbound e List.mem_cons_self).2
  obtain ⟨r', hr', hvalue'⟩ := hv'.meaning htame (hscalar List.mem_cons_self) (hbound e List.mem_cons_self).2
  have hagrees (outer outer' : List (Int × Cursor)) (r r' : Row) :
      ((Env.under setting catalog config params outer).at cursor r).Agrees
        ((Env.under setting catalog config params outer').at cursor r') :=
    ⟨rfl, fun _ _ => Collations.answer_congr htame, rfl, rfl⟩
  have hpinned : e.Pinned catalog.collations.answer g :=
    (e.isConstantOrGroupBy_sees g catalog _ _ ⟨htame, fun _ => rfl⟩ htrue).2 true rfl rfl
  have hsame := hpinned.same (hagrees row.outer row'.outer r r') (hagrees _ _ _ _) (hagrees _ _ _ _)
    (fun term hterm => (hbound _ (hmem hterm)).1) (fun term hterm hbinary => ?_) (hbound e List.mem_cons_self).1
  · exact Option.some.inj (hvalue.symm.trans (hsame.1.value.trans hvalue'))
  · obtain ⟨w, hw, hw'⟩ := hterms term hterm hbinary
    obtain ⟨q, hq, hterm₁⟩ := hw.meaning htame (hscalar (hmem hterm)) (hbound _ (hmem hterm)).2
    obtain ⟨q', hq', hterm₂⟩ := hw'.meaning htame (hscalar (hmem hterm)) (hbound _ (hmem hterm)).2
    cases hr.symm.trans hq
    cases hr'.symm.trans hq'
    exact ⟨w, hterm₁, hterm₂⟩

end

namespace Example

/-- The second row of the table, where a = 2. -/
def secondRow : VisitedRow := ⟨store, [], List.forall_mem_nil _, 1⟩

/-- The only row of another store, where a = 2 too. -/
def otherRow : VisitedRow := ⟨⟨[(1, [⟨7, [.integer 2]⟩])]⟩, [], List.forall_mem_nil _, 0⟩

def byColumn : List (Item Expr) := [⟨column, false, 0⟩]

end Example

open Example in
/-- abs(a) = 2 counts as constant within the groups of a. So it has one value for two rows of the same a, which is 1. -/
theorem Gen.group_constant_delivered_alike_call :
    Responds ((columnCallIsTwo "abs").isConstantOrGroupBy byColumn) .empty (.ok true) .empty ∧
      ValueAt .empty {} {} table 0 [] secondRow (columnCallIsTwo "abs") (.integer 1) ∧
      ∀ v, ValueAt .empty {} {} table 0 [] otherRow (columnCallIsTwo "abs") v → v = .integer 1 := by
  have hcall : ValueAt .empty {} {} table 0 [] secondRow (columnCallIsTwo "abs") (.integer 1) :=
    ⟨_, Gen.delivers_of_delivered? (show (Gen.forEachRow {} table 0 1
        (Gen.outcomeRow [.value (columnCallIsTwo "abs")])).delivered? .empty {} store [] =
      some #[[.integer 0], [.integer 1], [.null]] by decide +kernel) (by decide +kernel) (by decide +kernel), rfl⟩
  have hcolumn : ValueAt .empty {} {} table 0 [] secondRow Example.column (.integer 2) :=
    ⟨_, Gen.delivers_of_delivered? (show (Gen.forEachRow {} table 0 1
        (Gen.outcomeRow [.value Example.column])).delivered? .empty {} store [] =
      some #[[.integer 1], [.integer 2], [.null]] by decide +kernel) (by decide +kernel) (by decide +kernel), rfl⟩
  have hother : ValueAt .empty {} {} table 0 [] otherRow Example.column (.integer 2) :=
    ⟨_, Gen.delivers_of_delivered? (show (Gen.forEachRow {} table 0 1
        (Gen.outcomeRow [.value Example.column])).delivered? .empty {} ⟨[(1, [⟨7, [.integer 2]⟩])]⟩ [] =
      some #[[.integer 2]] by decide +kernel) (by decide +kernel) (by decide +kernel), rfl⟩
  have hsources : ∀ s ∈ [(⟨table, 0, none⟩ : Source)],
      (fun _ => some table : Int → Option Table) s.cursor = some s.table := List.forall_mem_singleton.2 rfl
  have hname : (Expr.ofKind (.ident "a")).Every Expr.Unbound :=
    .ofKind ⟨rfl, rfl, rfl, rfl, by rintro _ ⟨⟩⟩ (List.forall_mem_nil _)
  have htrue : Responds ((columnCallIsTwo "abs").isConstantOrGroupBy byColumn) .empty (.ok true) .empty := rfl
  refine ⟨htrue, hcall, fun v hv => ?_⟩
  refine (Gen.group_constant_delivered_alike (fun _ => some table)).2 _ _ otherRow secondRow _ _ _
    (Collations.tame_of_no_factory rfl)
    (List.forall_mem_cons.2 ⟨⟨?_, by decide⟩, List.forall_mem_singleton.2 ⟨?_, by decide⟩⟩) htrue
    (List.forall_mem_singleton.2 fun _ => ⟨_, hother, hcolumn⟩) hv hcall
  · exact Expr.every_boundNode hsources (callIsTwo_unbound "abs" "a") rfl (columnCallIsTwo_scalar rfl)
  · exact Expr.every_boundNode hsources hname rfl column_scalar

open Example in
/-- A copy of (SELECT a) that reads the one table counts as constant within the groups of a copy that reads the other
one. The term has the value 5 for both rows, and the expression has another value for each. -/
theorem Gen.group_constant_delivered_apart :
    ((selectedFrom table 0).isConstantOrGroupBy [⟨selectedFrom otherTable 1, false, 0⟩] .empty).1 = .ok true ∧
      (onBoth (selectedFrom table 0) (selectedFrom otherTable 1)).delivered? .empty {}
        ⟨[(1, [⟨1, [.integer 1]⟩, ⟨2, [.integer 2]⟩]), (2, [⟨1, [.integer 5]⟩])]⟩ [] =
        some #[[.integer 1, .integer 5], [.integer 2, .integer 5]] := by
  refine ⟨rfl, ?_⟩
  decide +kernel

end ScalarSql
