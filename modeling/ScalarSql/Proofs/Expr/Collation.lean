import ScalarSql.Proofs.Code.Lookups
import ScalarSql.Proofs.Expr.Alike

/-!
# COLLATE in an expression

The collating sequence of an expression is the one that its first COLLATE names, from the left and from the top down.
Only without COLLATE is it that of a column.
-/

namespace ScalarSql

/-- The name that the node gives by COLLATE. -/
def Kind.named? {ε σ : Type} : Kind ε σ → Option String
  | .collate _ name => some name
  | _ => none

namespace Expr

variable {e l r : Expr} {info : NodeInfo} {kind : Kind Expr Select}

/-- The node and all below it in pre-order, without those of sub-selects. -/
def preorder : Expr → List Expr
  | .node info kind => .node info kind :: kind.children.attach.flatMap fun x => preorder x.1
termination_by e => sizeOf e
decreasing_by
  have hlt := kind.sizeOf_lt_of_subexpressions (kind.children_subset x.2)
  simp only [node.sizeOf_spec]
  omega

theorem preorder_node : preorder (.node info kind) = .node info kind :: kind.children.flatMap preorder := by
  rw [preorder, List.flatMap_subtype fun _ _ => rfl, List.unattach_attach]

/-- The name that the first COLLATE in pre-order gives. -/
def firstCollate? (e : Expr) : Option String := e.preorder.findSome? (·.kind.named?)

/-- The name of the collating sequence of the column that the value is taken from as it is. -/
def inferredCollation? : Expr → Option String
  | .node _ (.column ref) => ref.collationName?
  | .node _ (.aggColumn _ ref) => ref.collationName?
  | .node _ (.register _ source) => inferredCollation? source
  | .node _ (.cast operand _) => inferredCollation? operand
  | .node _ (.unary .positive operand) => inferredCollation? operand
  | _ => none
termination_by structural e => e

/-- The first COLLATE is the node itself, or the first one of the first part that has any. -/
theorem firstCollate?_node :
    firstCollate? (.node info kind) = kind.named?.or (kind.children.findSome? firstCollate?) := by
  have hparts (es : List Expr) : (es.flatMap preorder).findSome? (·.kind.named?) = es.findSome? firstCollate? := by
    induction es with
    | nil => rfl
    | cons x es ih =>
      rw [List.flatMap_cons, List.findSome?_append, ih, List.findSome?_cons, firstCollate?]
      cases x.preorder.findSome? (·.kind.named?) <;> rfl
  rw [firstCollate?, preorder_node, List.findSome?_cons, hparts, Expr.kind]
  cases kind.named? <;> rfl

/-- The flags are those that building the node sets, and no known value of a column contains COLLATE. -/
def CollateComputed (e : Expr) : Prop :=
  e.FlagsComputed ∧ ∀ ref, e.kind = .column ref → ∀ x ∈ ref.fixed, x.firstCollate? = none

theorem collate_eq (h : e.Every CollateComputed) : e.flags.collate = e.firstCollate?.isSome := by
  induction h with
  | @node info kind here _ ih =>
    have hparts : kind.children.any (·.flags.collate) = (kind.children.findSome? firstCollate?).isSome := by
      rw [List.isSome_findSome?, Bool.eq_iff_iff, List.any_eq_true, List.any_eq_true]
      exact exists_congr fun x => and_congr_right fun hx => by rw [ih x hx]
    rw [firstCollate?_node, Option.isSome_or, ← hparts]
    refine here.1.trans ((collate_infoOf kind).trans (congrArg (· || _) ?_))
    cases kind <;> rfl

/-- Whether an expression contains COLLATE, and the name found through it. -/
def collatedPart (e : Expr) : Bool × Option String := (e.flags.collate, e.collationName?)

theorem collationNames_eq (items : List (Item Expr)) :
    collationNames items = (items.map (·.expr)).map collatedPart := by
  induction items with
  | nil => rfl
  | cons item items ih =>
    rw [collationNames, ih]
    rfl

theorem collationNamesOfArms_eq (arms : List (Expr × Expr)) :
    collationNamesOfArms arms = (arms.flatMap fun arm => [arm.1, arm.2]).map collatedPart := by
  induction arms with
  | nil => rfl
  | cons arm arms ih =>
    rw [collationNamesOfArms, ih]
    rfl

theorem collationName?_of_collate (hnamed : kind.named? = none) (hcolumn : ∀ ref, kind ≠ .column ref)
    (hi : info.flags.collate) (hany : kind.children.any (·.flags.collate)) :
    collationName? (.node info kind) = pickCollated (kind.children.map collatedPart) := by
  cases kind with
  | collate => cases hnamed
  | column ref => exact absurd rfl (hcolumn ref)
  | caseOf base arms otherwise =>
    rw [collationName?.eq_def]
    simp only [if_pos hi, collationNamesOfArms_eq]
    cases base <;> cases otherwise <;> simp [collatedPart]
  | binary op left right =>
    cases hleft : left.flags.collate <;> simp_all [collationName?, pickCollated, collatedPart]
  | unary | register | cast | selectColumn | ifNullRow | inSelect =>
    simp_all [collationName?, pickCollated, collatedPart]
  | aggCall | call | vector | inList | between => simp [collationName?, hi, collationNames_eq, collatedPart]
  | _ => cases hany

theorem collationName?_of_not_collate (hnamed : kind.named? = none) (hi : info.flags.collate = false)
    (ih : ∀ x ∈ kind.children, x.collationName? = x.inferredCollation?) :
    collationName? (.node info kind) = inferredCollation? (.node info kind) := by
  cases kind with
  | collate => cases hnamed
  | caseOf =>
    rw [collationName?.eq_def, inferredCollation?.eq_def]
    simp [hi]
  | unary op operand => cases op <;> simp_all [collationName?, inferredCollation?]
  | _ => simp_all [collationName?, inferredCollation?]

/-- The first part with COLLATE gives the name of its first COLLATE. -/
theorem pickCollated_eq {es : List Expr} {name : String} (hflag : ∀ x ∈ es, x.flags.collate = x.firstCollate?.isSome)
    (hname : ∀ x ∈ es, x.collationName? = x.firstCollate?.or x.inferredCollation?)
    (h : es.findSome? firstCollate? = some name) : pickCollated (es.map collatedPart) = some name := by
  obtain ⟨before, x, after, rfl, hx, hbefore⟩ := List.findSome?_eq_some_iff.1 h
  have hfind : ((before ++ x :: after).map collatedPart).find? (·.1) = some (collatedPart x) := by
    refine List.find?_eq_some_iff_append.2 ⟨?_, before.map collatedPart, after.map collatedPart, by simp, ?_⟩
    · simp [collatedPart, hflag, hx]
    · simp_all [collatedPart]
  rw [pickCollated, hfind]
  simp_all [collatedPart]

/-- The first COLLATE gives the name. Only without one is it that of a column. -/
theorem collationName?_eq (h : e.Every CollateComputed) :
    e.collationName? = e.firstCollate?.or e.inferredCollation? := by
  induction h with
  | @node info kind here parts ih =>
    have hflag : info.flags.collate = (firstCollate? (.node info kind)).isSome := collate_eq (.node here parts)
    cases hnamed : kind.named? with
    | some name =>
      rw [firstCollate?_node, hnamed]
      cases kind <;> cases hnamed
      rfl
    | none =>
      rw [firstCollate?_node, hnamed, Option.none_or] at hflag ⊢
      have hparts : ∀ x ∈ kind.children, x.flags.collate = x.firstCollate?.isSome := fun x hx => collate_eq (parts x hx)
      cases hfirst : kind.children.findSome? firstCollate? with
      | none =>
        refine collationName?_of_not_collate hnamed (by rw [hflag, hfirst]; rfl) fun x hx => ?_
        rw [ih x hx, List.findSome?_eq_none_iff.1 hfirst x hx, Option.none_or]
      | some name =>
        obtain ⟨x, hx, hsome⟩ := List.exists_of_findSome?_eq_some hfirst
        have hcolumn (ref : ColumnRef Expr) : kind ≠ .column ref := by
          rintro rfl
          exact absurd (here.2 ref rfl x (Option.mem_toList.1 hx)) (by simp [hsome])
        rw [collationName?_of_collate hnamed hcolumn (by rw [hflag, hfirst]; rfl)
          (List.any_eq_true.2 ⟨x, hx, by rw [hparts x hx, hsome]; rfl⟩)]
        exact pickCollated_eq hparts ih hfirst

/-- COLLATE on the left wins, then COLLATE on the right, then the column on the left. -/
theorem compareCollationName?_eq (hl : l.Every CollateComputed) (hr : r.Every CollateComputed) :
    l.compareCollationName? r =
      (l.firstCollate?.or r.firstCollate?).or (l.inferredCollation?.or r.inferredCollation?) := by
  rw [compareCollationName?, collate_eq hl, collate_eq hr, collationName?_eq hl, collationName?_eq hr]
  cases l.firstCollate? <;> cases r.firstCollate? <;> rfl

end Expr

/-- The collating sequence of an optional name in the catalog, or the error that gives the name. -/
def Catalog.sequence? (catalog : Catalog) : Option String → Except CompileError (Option Collation)
  | none => .ok none
  | some name =>
    match catalog.collations.answer name with
    | some found => .ok (some found)
    | none => .error (.noSuchCollation name)

theorem Lookup.run_collation? (name : Option String) (catalog : Catalog) :
    ((collation? name).run catalog).1 = catalog.sequence? name := by
  cases name with
  | none => rfl
  | some name =>
    rw [Gen.run_collation?, Gen.run_collation, Catalog.sequence?, Collations.answer]
    rcases Collations.resolve name .utf8 catalog.collations with ⟨_ | _, _⟩ <;> rfl

/-- The first COLLATE of an expression in pre-order gives its collating sequence. A comparison takes that of the left
side, then that of the right side, and only without COLLATE in either that of a column. -/
theorem Expr.first_collate_wins {l r : Expr} (hl : l.Every CollateComputed) (hr : r.Every CollateComputed)
    (catalog : Catalog) :
    (l.collation.run catalog).1 = catalog.sequence? (l.firstCollate?.or l.inferredCollation?) ∧
      ((l.compareCollation r).run catalog).1 = catalog.sequence?
        ((l.firstCollate?.or r.firstCollate?).or (l.inferredCollation?.or r.inferredCollation?)) := by
  rw [collation, compareCollation, Lookup.run_collation?, Lookup.run_collation?, collationName?_eq hl,
    compareCollationName?_eq hl hr]
  exact ⟨rfl, rfl⟩

/-- `NOT (text COLLATE name)`. -/
def Example.underNot (text name : String) : Expr :=
  .ofKind (.unary .not (.ofKind (.collate (.ofKind (.string text)) name)))

open Example in
/-- COLLATE on the left wins although it stands below an operator, and an unknown name is refused. -/
theorem Expr.first_collate_wins_below :
    (((underNot "a" "rtrim").compareCollation (underNot "b" "missing")).run .empty).1 =
        .ok (some ⟨"RTRIM", .utf8, Text.rtrim⟩) ∧
      (((underNot "b" "missing").compareCollation (underNot "a" "rtrim")).run .empty).1 =
        .error (.noSuchCollation "missing") := by
  have hcomputed (text name : String) : (underNot text name).Every CollateComputed :=
    .ofKind ⟨rfl, by rintro _ ⟨⟩⟩ (List.forall_mem_singleton.2 (.ofKind ⟨rfl, by rintro _ ⟨⟩⟩
      (List.forall_mem_singleton.2 (.ofKind ⟨rfl, by rintro _ ⟨⟩⟩ (List.forall_mem_nil _)))))
  have hfirst (text name : String) : (underNot text name).firstCollate? = some name := by
    simp [underNot, Expr.ofKind, Expr.firstCollate?_node, Kind.named?]
  have hcompare := (Expr.first_collate_wins (hcomputed "a" "rtrim") (hcomputed "b" "missing") .empty).2
  have hswapped := (Expr.first_collate_wins (hcomputed "b" "missing") (hcomputed "a" "rtrim") .empty).2
  rw [hfirst, hfirst] at hcompare hswapped
  exact ⟨hcompare, hswapped⟩

end ScalarSql
