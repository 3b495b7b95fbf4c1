import ScalarSql.Proofs.Branching
import ScalarSql.Proofs.Value.Strictness

/-!
# Conditions that imply others

`Expr.implies` answers whether one condition being true makes another true, from the trees alone. The answer is
right on every row if the first condition has no IN over an empty list: such an IN is false also of NULL, so
its operand is not known to be other than NULL where it is not NULL itself.

Trees are matched without their flags and without the tables of their columns. So the two conditions must agree
in these as far as they match, as they do if both were resolved against the same tables.
-/

namespace ScalarSql

open ScalarSql.Expr Meaning

/-- The flags that decide what a node means beside its kind. -/
def ExprFlags.marks (f : ExprFlags) : ExprFlags :=
  { fromJoin := f.fromJoin
    canBeNull := f.canBeNull
    constantCall := f.constantCall
    unlikely := f.unlikely
    quoted := f.quoted }

namespace Expr

variable {fs : Functions} {cursors : Int → Prop} {env : Env} {a b e p x y : Expr}

/-! ## Conditions that can be compared -/

/-- Parts of two expressions that match carry the same marks, and their columns are of the same table. -/
def MarkedAlike (a b : Expr) : Prop :=
  ∀ x y, x.Part a → y.Part b → Matches x y → x.flags.marks = y.flags.marks ∧
    ∀ r s, x.kind = .column r → y.kind = .column s → r.table = s.table

/-- A node without marks; if it is a column then it is of the table on its cursor. -/
def Resolved (tables : Int → Option Table) (e : Expr) : Prop :=
  e.flags.marks = {} ∧ ∀ ref, e.kind = .column ref → ref.table = tables ref.cursor

theorem markedAlike_of_resolved {tables : Int → Option Table} (ha : a.Every (Resolved tables))
    (hb : b.Every (Resolved tables)) : MarkedAlike a b := by
  intro x y hx hy hm
  have hrx := (ha.part hx).here
  have hry := (hb.part hy).here
  refine ⟨hrx.1.trans hry.1.symm, fun r s hr hs' => ?_⟩
  have hk := (matches_iff.1 hm).2
  rw [hr, hs'] at hk
  cases hk with
  | column hcursor => rw [hrx.2 r hr, hry.2 s hs', hcursor]

/-- Two scalar expressions without fixed columns that carry the same marks as far as they match. -/
structure Comparable (fs : Functions) (cursors : Int → Prop) (a b : Expr) : Prop where
  left : a.Scalar fs cursors
  right : b.Scalar fs cursors
  leftUnfixed : a.Every Unfixed
  rightUnfixed : b.Every Unfixed
  marks : MarkedAlike a b

theorem isConstant_plain_eq (h : e.Unfixed) (hs : e.ScalarNode fs cursors) :
    e.isConstant .plain = (e.constantNode && e.kind.children.all (·.isConstant .plain)) := by
  obtain ⟨info, kind⟩ := e
  have hscalar := hs.2
  rw [isConstant.eq_def]
  simp only [constantNode, Expr.kind]
  cases kind with
  | column ref =>
    obtain ⟨cursor, column, table, fixed⟩ := ref
    obtain rfl : fixed = none := h _ rfl
    rfl
  | aggColumn | aggCall | ifNullRow | register | raise | hasRows | subquery | inSelect | selectColumn =>
    exact hscalar.elim
  | _ =>
    simp [itemsConstant_eq_all, optionConstant_eq_all, armsConstant_eq_all, Kind.children, ConstMode.allowsCalls,
      Bool.and_assoc, Function.comp_def, Expr.flags, Expr.info]

theorem isConstant_plain_congr {R : Expr → Expr → Prop} (hleft : ∀ x y, R x y → x.ScalarNode fs cursors ∧ x.Unfixed)
    (hright : ∀ x y, R x y → y.ScalarNode fs cursors ∧ y.Unfixed)
    (hnode : ∀ x y, R x y → Matches x y ∧ x.constantNode = y.constantNode)
    (hparts : ∀ x y, R x y → ∀ c ∈ x.kind.children, ∀ d ∈ y.kind.children, Matches c d → R c d) (h : R x y) :
    x.isConstant .plain = y.isConstant .plain := by
  induction x using children_induction generalizing y with
  | step i k ih =>
    have hpairs : List.Forall₂ (fun c d => isConstant .plain c = isConstant .plain d) k.children y.kind.children :=
      forall₂_of_mem ((hleft _ y h).1.children_related (hleft _ y h).2 (hright _ y h).2
        (matches_iff.1 (hnode _ y h).1).2)
        fun c hc d hd hcd => ih c hc (hparts _ y h c hc d hd hcd)
    rw [isConstant_plain_eq (hleft _ y h).2 (hleft _ y h).1, isConstant_plain_eq (hright _ y h).2 (hright _ y h).1]
    refine congrArg₂ _ (hnode _ y h).2 ?_
    show k.children.all (fun e => e.isConstant .plain) = y.kind.children.all fun e => e.isConstant .plain
    generalize k.children = cs at hpairs
    generalize y.kind.children = ds at hpairs
    induction hpairs with
    | nil => rfl
    | cons hcd _ ih => rw [List.all_cons, List.all_cons, hcd, ih]

theorem constantNode_congr (hm : Matches x y) (htruth : x.truthName? = y.truthName?)
    (hcall : ∀ name args window, x.kind = .call name args window → x.flags.constantCall = y.flags.constantCall) :
    x.constantNode = y.constantNode := by
  have hk := (matches_iff.1 hm).2
  obtain ⟨i, k⟩ := x
  obtain ⟨j, l⟩ := y
  simp only [constantNode, htruth]
  cases hk with
  | call hname hitems hw =>
    have hconstant : i.flags.constantCall = j.flags.constantCall := hcall _ _ _ rfl
    cases hw <;> simp only [kind, flags, info, hconstant, Option.isNone]
  | _ => rfl

theorem column_congr (hm : Matches x y) (hux : x.Unfixed) (huy : y.Unfixed) (hx : x.FlagsComputed)
    (hy : y.FlagsComputed) (hnull : x.flags.canBeNull = y.flags.canBeNull)
    (htable : ∀ r s, x.kind = .column r → y.kind = .column s → r.table = s.table) (ref : ColumnRef Expr)
    (href : x.kind = .column ref) : x.Alike y ∧ x.meaning.value env = y.meaning.value env := by
  have hk := (matches_iff.1 hm).2
  obtain ⟨i, k⟩ := x
  obtain ⟨j, l⟩ := y
  subst href
  cases hk with
  | @column _ r hcursor hcolumn =>
    have hr := hux _ rfl
    have hr' := huy _ rfl
    obtain ⟨cursor, column, table, fixed⟩ := ref
    obtain ⟨cursor', column', table', fixed'⟩ := r
    obtain rfl : table = table' := htable _ _ rfl rfl
    subst hcursor hcolumn hr hr'
    have hnull : i.flags.canBeNull = j.flags.canBeNull := hnull
    refine ⟨.of_single ⟨rfl, hx.trans hy.symm, .refl _, ?_⟩ rfl rfl, rfl⟩
    simp only [canBeNull, hnull]

namespace Comparable

section

variable (h : Comparable fs cursors a b) (hx : x.Part a) (hy : y.Part b) (hm : Matches x y)

include h hx hy hm

theorem truthName?_eq : x.truthName? = y.truthName? := by
  have hk := (matches_iff.1 hm).2
  have hquoted := congrArg ExprFlags.quoted (h.marks x y hx hy hm).1
  obtain ⟨i, k⟩ := x
  obtain ⟨j, l⟩ := y
  cases hk with
  | ident name =>
    have hquoted : i.flags.quoted = j.flags.quoted := hquoted
    show (if i.flags.quoted then _ else _) = if j.flags.quoted then _ else _
    rw [hquoted]
  | _ => rfl

theorem constant_eq : x.isConstant .plain = y.isConstant .plain := by
  refine isConstant_plain_congr (R := fun x y => x.Part a ∧ y.Part b ∧ Matches x y)
    (fun x y hR => ⟨(h.left.part hR.1).here, (h.leftUnfixed.part hR.1).here⟩)
    (fun x y hR => ⟨(h.right.part hR.2.1).here, (h.rightUnfixed.part hR.2.1).here⟩) (fun x y hR => ?_)
    (fun x y hR c hc d hd hcd => ⟨hR.1.of_child hc, hR.2.1.of_child hd, hcd⟩) ⟨hx, hy, hm⟩
  obtain ⟨hx, hy, hm⟩ := hR
  have hcall := congrArg ExprFlags.constantCall (h.marks x y hx hy hm).1
  exact ⟨hm, constantNode_congr hm (h.truthName?_eq hx hy hm) fun _ _ _ _ => hcall⟩

theorem column_eq
    (ref : ColumnRef Expr) (href : x.kind = .column ref) : x.Alike y ∧ x.meaning.value env = y.meaning.value env := by
  obtain ⟨hmarks, htable⟩ := h.marks x y hx hy hm
  have hnull : x.flags.marks.canBeNull = y.flags.marks.canBeNull := congrArg ExprFlags.canBeNull hmarks
  exact column_congr hm (h.leftUnfixed.part hx).here (h.rightUnfixed.part hy).here (h.left.part hx).here.1
    (h.right.part hy).here.1 hnull htable ref href

end

theorem same (h : Comparable fs cursors a b) (henv : env.CaseBlind) (hx : x.Part a) (hy : y.Part b)
    (hm : Matches x y) : SameMeaning env env x y := by
  have hnode (x y : Expr) (hR : x.Part a ∧ y.Part b ∧ Matches x y) : SameNode fs cursors env env x y := by
    obtain ⟨hx, hy, hm⟩ := hR
    have hmarks := (h.marks x y hx hy hm).1
    exact
      { kind := (matches_iff.1 hm).2
        scalar := ⟨(h.left.part hx).here, (h.right.part hy).here⟩
        unfixed := ⟨(h.leftUnfixed.part hx).here, (h.rightUnfixed.part hy).here⟩
        fromJoin := (congrArg ExprFlags.fromJoin hmarks : x.flags.marks.fromJoin = _)
        unlikely := fun _ _ _ _ => (congrArg ExprFlags.unlikely hmarks : x.flags.marks.unlikely = _)
        truthName? := h.truthName?_eq hx hy hm
        constant := h.constant_eq hx hy hm
        column := h.column_eq hx hy hm }
  exact same_of_nodes henv hnode (fun x y hR c hc d hd hcd => ⟨hR.1.of_child hc, hR.2.1.of_child hd, hcd⟩) x y
    ⟨hx, hy, hm⟩

end Comparable

/-! ## Values that are not NULL -/

/-- A column that is declared to hold no NULL holds a proper value. -/
def Honest (env : Env) (e : Expr) : Prop :=
  ∀ ref, e.kind = .column ref → e.canBeNull = false → ∀ v, e.meaning.value env = some v → v.isProper = true

/-- A node that is no IN over an empty list. -/
def Listed (e : Expr) : Prop := ∀ id operand, e.kind ≠ .inList id operand []

theorem isProper_realLiteral (text : String) (negated : Bool) : (realLiteral text negated).isProper := by
  have hreal : Binary64.ofFloat (Value.parseNumber text).1.asReal ≠ .nan :=
    Value.asReal_ne_nan fun _ hr => Value.parseNumber_ne_nan hr
  cases negated with
  | true => exact Value.isProper_ofFloat (Binary64.neg_ne_nan hreal)
  | false => exact Value.isProper_ofFloat hreal

theorem isProper_integerLiteral {text : String} {negated : Bool} {v : Value}
    (h : integerLiteral text negated = some v) : v.isProper := by
  rw [integerLiteral] at h
  split at h
  · cases h
    rfl
  · split at h
    · cases h
    · cases h
      exact isProper_realLiteral text negated

theorem isProper_of_canBeNull (hs : e.Scalar fs cursors) (hh : e.Every (Honest env)) (hc : e.canBeNull = false)
    {v : Value} (hv : e.meaning.value env = some v) : v.isProper := by
  induction e using children_induction generalizing v with
  | step info kind ih =>
    cases kind with
    | integer literal =>
      cases literal with
      | inline n =>
        cases hv
        rfl
      | text t => exact isProper_integerLiteral hv
    | float t =>
      cases hv
      exact isProper_realLiteral t false
    | string s =>
      cases hv
      rfl
    | blob hex =>
      obtain ⟨bytes, -, rfl⟩ := Option.map_eq_some_iff.1 hv
      rfl
    | column ref => exact hh.here ref rfl hc v hv
    | unary op operand =>
      have hmem : operand ∈ (Kind.unary (σ := Select) op operand).children := by simp
      have hoperand := ih operand hmem (hs.children _ hmem) (hh.children _ hmem)
      cases op with
      | positive => exact hoperand hc hv
      | negate =>
        have hv : operand.meaning.negatedValue env = some v := hv
        rw [negatedValue] at hv
        split at hv
        · cases hv
          rfl
        · exact isProper_integerLiteral hv
        · cases hv
          exact isProper_realLiteral _ true
        · obtain ⟨w, hw, rfl⟩ := Option.map_eq_some_iff.1 hv
          exact Value.isProper_negated (hoperand hc hw)
      | _ => cases hc
    | register => exact hs.here.2.elim
    | _ => cases hc

end Expr

namespace Meaning

variable {env : Env} {left right operand : Meaning} {items : List Meaning} {op : BinaryOp} {x v : Value}

theorem chainOutcome_of_isNull {e : Expr} (hx : x.isNull) {o : Option Bool}
    (h : chainOutcome e x env true items = some o) : o = none := by
  induction items with
  | nil => exact (Option.some.inj h).symm
  | cons μ rest ih =>
    obtain ⟨k, -, h⟩ := Option.bind_eq_some_iff.1 h
    have horder : CompareMode.order? { affinity := e.affinity } (e.collationName?.bind env.collation) x k = none := by
      simp [CompareMode.order?, hx]
    rw [horder, if_neg (by simp)] at h
    exact ih h

/-- Where IN over a list that is not empty is true or false, its operand is not NULL. -/
theorem operand_of_listOutcome (hne : items ≠ []) {t : Bool} (h : listOutcome operand items env = some (some t))
    (hdeclared : operand.expr.canBeNull = false → ∀ v, operand.value env = some v → v.isNull = false) :
    ∃ v, operand.value env = some v ∧ v.isNull = false := by
  rw [listOutcome, if_neg (by simpa using hne)] at h
  split at h
  · obtain ⟨keys, -, h⟩ := Option.bind_eq_some_iff.1 h
    obtain ⟨v, hv, h⟩ := Option.bind_eq_some_iff.1 h
    refine ⟨v, hv, ?_⟩
    cases hc : operand.expr.canBeNull with
    | false => exact hdeclared hc v hv
    | true =>
      by_contra hnull
      have hnull : v.isNull := by simpa using hnull
      rw [lookupOutcome, hc, hnull] at h
      cases h
  · obtain ⟨v, hv, h⟩ := Option.bind_eq_some_iff.1 h
    refine ⟨v, hv, ?_⟩
    by_contra hnull
    have hnull : v.isNull := by simpa using hnull
    rw [hnull] at h
    cases chainOutcome_of_isNull hnull h

theorem not_isNull_of_order? {l r : Expr} {y : Value} {o : Ordering} (h : env.order? l r false x y = some o) :
    x.isNull = false ∧ y.isNull = false := by
  rw [Env.order?, CompareMode.order?] at h
  split at h
  · cases h
  · simp_all

theorem isNull_ofTruth (t : Option Bool) : (Value.ofTruth t).isNull = t.isNone := by
  cases t <;> rfl

theorem operands_of_comparison (hop : op.isComparison) (hnull : op.comparesNull = false)
    (hvector : (left.expr.isVector || right.expr.isVector) = false) (hv : binaryValue op left right env = some v)
    (hn : v.isNull = false) :
    (∃ x, left.value env = some x ∧ x.isNull = false) ∧ ∃ y, right.value env = some y ∧ y.isNull = false := by
  simp only [binaryValue, hop, hvector, Bool.not_true, Bool.false_eq_true, if_false] at hv
  obtain ⟨x, hx, hv⟩ := Option.bind_eq_some_iff.1 hv
  obtain ⟨y, hy, hv⟩ := Option.bind_eq_some_iff.1 hv
  cases hv
  rw [isNull_ofTruth, Env.compare, hnull] at hn
  cases ho : env.order? left.expr right.expr false x y with
  | none =>
    rw [ho] at hn
    cases hn
  | some o =>
    obtain ⟨hxn, hyn⟩ := not_isNull_of_order? ho
    exact ⟨⟨x, hx, hxn⟩, y, hy, hyn⟩

theorem fields_of_comparison (hop : op.isComparison) (hsize : left.expr.vectorSize ≠ 0)
    (hvector : (left.expr.isVector || right.expr.isVector)) (hv : binaryValue op left right env = some v) :
    left.fields ≠ [] ∧ right.fields ≠ [] := by
  simp only [binaryValue, hop, hvector, Bool.not_true, Bool.false_eq_true, if_false, if_true] at hv
  obtain ⟨n, hn⟩ := Nat.exists_eq_succ_of_ne_zero hsize
  rw [hn, compareFields] at hv
  obtain ⟨x, hx, hv⟩ := Option.bind_eq_some_iff.1 hv
  obtain ⟨y, hy, -⟩ := Option.bind_eq_some_iff.1 hv
  refine ⟨?_, ?_⟩
  · intro hnil
    simp [field, hnil] at hx
  · intro hnil
    simp [field, hnil] at hy

/-- A single value that was computed before and whose comparison is not NULL is not NULL. -/
theorem held_of_comparison (hop : op.isComparison) (hnull : op.comparesNull = false) {e : Expr}
    (hsize : e.vectorSize = 1) (hv : binaryValue op (held e [x]) right env = some v) (hn : v.isNull = false) :
    x.isNull = false := by
  cases hvector : (e.isVector || right.expr.isVector) with
  | false =>
    obtain ⟨⟨y, hy, hyn⟩, -⟩ := operands_of_comparison hop hnull hvector hv hn
    cases hy
    exact hyn
  | true =>
    have hvector : ((held e [x]).expr.isVector || right.expr.isVector) := hvector
    simp only [binaryValue, hop, hvector, Bool.not_true, Bool.false_eq_true, if_false, if_true] at hv
    have hsize : (held e [x]).expr.vectorSize = 0 + 1 := hsize
    rw [hsize, compareFields] at hv
    obtain ⟨y, hy, hv⟩ := Option.bind_eq_some_iff.1 hv
    obtain ⟨z, -, hv⟩ := Option.bind_eq_some_iff.1 hv
    cases hy
    rw [hnull] at hv
    cases ho : env.order? ((held e [x]).expr.vectorField 0) (right.expr.vectorField 0) false x z with
    | none =>
      rw [ho] at hv
      cases hv
      cases hn
    | some o => exact (not_isNull_of_order? ho).1

end Meaning

namespace Expr

variable {fs : Functions} {cursors : Int → Prop} {env : Env} {a b e p x : Expr} {u v : Value}

theorem vector_of_fields (h : e.meaning.fields ≠ []) : ∃ items, e.kind = .vector items := by
  obtain ⟨info, kind⟩ := e
  cases kind with
  | vector items => exact ⟨items, rfl⟩
  | integer literal => cases literal <;> exact absurd rfl h
  | _ => exact absurd rfl h

theorem value_of_vector {items : List (Item Expr)} (h : e.kind = .vector items) : e.meaning.value env = none := by
  obtain ⟨info, kind⟩ := e
  subst h
  rfl

theorem vectorSize_ne_zero (h : e.ScalarNode fs cursors) : e.vectorSize ≠ 0 := by
  obtain ⟨info, kind⟩ := e
  have hscalar := h.2
  cases kind with
  | vector items =>
    have hne : items ≠ [] := hscalar
    simpa [vectorSize] using hne
  | subquery | register => exact hscalar.elim
  | _ => exact Nat.one_ne_zero

theorem comparesNull_of_strictness {op : BinaryOp} {m n : Bool} (hs : strictness op m = some n)
    (hop : op.isComparison) : op.comparesNull = false ∧ n := by
  cases op with
  | is | isNot => cases hs
  | eq | ne | lt | le | gt | ge =>
    cases hs
    exact ⟨rfl, rfl⟩
  | _ => cases hop

/-- A number says something only of what it matches. -/
theorem matches_of_number {m : Bool} (hk : (∃ l, e.kind = .integer l) ∨ ∃ t, e.kind = .float t)
    (h : impliesNotNull none x m e) : Matches e x := by
  obtain ⟨info, kind⟩ := e
  by_contra hne
  rw [Matches] at hne
  obtain ⟨_, rfl⟩ | ⟨_, rfl⟩ := hk <;> simp [impliesNotNull, hne] at h

/-- The conditions under which implication is right. -/
structure Implicable (fs : Functions) (cursors : Int → Prop) (env : Env) (a b : Expr) : Prop
    extends Comparable fs cursors a b where
  /-- Names of collating sequences are the same in upper and lower case. -/
  caseBlind : env.CaseBlind
  /-- The first condition has no IN over an empty list. -/
  listed : a.Every Listed
  /-- The columns of the first condition that are declared to hold no NULL hold none. -/
  honest : a.Every (Honest env)

namespace Implicable

variable {m : Bool}

/-- A row value that matches says nothing of an expression with a value. -/
theorem not_vector (hu : x.meaning.value env = some u) {items : List (Item Expr)} (hk : p.kind = .vector items) :
    impliesNotNull none x m p = false := by
  rw [Bool.eq_false_iff]
  intro himp
  obtain ⟨info, kind⟩ := p
  cases hk
  by_cases hm : compare none (.node info (.vector items)) x = .equal
  · have hkind := (matches_iff.1 hm).2
    obtain ⟨ys, hy⟩ : ∃ ys, x.kind = .vector ys := by
      generalize x.kind = k at hkind
      cases hkind
      exact ⟨_, rfl⟩
    rw [value_of_vector hy] at hu
    cases hu
  · simp [impliesNotNull, hm] at himp

/-- A side of a comparison that is not NULL is not NULL, if it is said to be so. -/
theorem side_of_comparison {op : BinaryOp} {left right : Meaning} (hside : p.meaning = left ∨ p.meaning = right)
    (hop : op.isComparison) (hnull : op.comparesNull = false) (hsize : left.expr.vectorSize ≠ 0)
    (hv : binaryValue op left right env = some v) (hn : v.isNull = false) (himp : impliesNotNull none x m p)
    (hu : x.meaning.value env = some u) : ∃ w, p.meaning.value env = some w ∧ w.isNull = false := by
  cases hvector : (left.expr.isVector || right.expr.isVector) with
  | false =>
    obtain ⟨hl, hr⟩ := operands_of_comparison hop hnull hvector hv hn
    exact hside.elim (· ▸ hl) (· ▸ hr)
  | true =>
    obtain ⟨hl, hr⟩ := fields_of_comparison hop hsize hvector hv
    obtain ⟨items, hk⟩ := vector_of_fields (hside.elim (· ▸ hl) (· ▸ hr))
    rw [not_vector hu hk] at himp
    cases himp

variable (h : Implicable fs cursors env a b)

include h

theorem operand_of_between {right : Meaning} {values : List Value}
    (hrow : p.meaning.row env = some values) (hv : binaryValue .ge (.held p values) right env = some v)
    (hn : v.isNull = false) (hp : p.Part a) (himp : impliesNotNull none x m p)
    (hu : x.meaning.value env = some u) : ∃ w, p.meaning.value env = some w ∧ w.isNull = false := by
  by_cases hsize : p.vectorSize = 1
  · rw [row, meaning_expr, if_pos hsize] at hrow
    obtain ⟨w, hw, rfl⟩ := Option.map_eq_some_iff.1 hrow
    exact ⟨w, hw, held_of_comparison rfl rfl hsize hv hn⟩
  · have hk : ∃ items, p.kind = .vector items := by
      have hscalar := (h.left.part hp).here.2
      obtain ⟨info, kind⟩ := p
      cases kind with
      | vector items => exact ⟨items, rfl⟩
      | subquery | register => exact hscalar.elim
      | _ => exact absurd rfl hsize
    obtain ⟨items, hk⟩ := hk
    rw [not_vector hu hk] at himp
    cases himp

/-- Where a condition has the value that is asked for, an expression that it is said to make other than NULL is
other than NULL. -/
theorem not_isNull (hp : p.Part a) (hx : x.Part b) (himp : impliesNotNull none x m p)
    (hv : p.meaning.value env = some v) (hm : v.Affirms m) (hu : x.meaning.value env = some u) : u.isNull = false := by
  induction p using children_induction generalizing m v with
  | step info kind ih =>
    by_cases hmatch : compare none (.node info kind) x = .equal
    · -- the condition is the expression
      have hvalue := (h.same h.caseBlind hp hx hmatch).1.value
      rw [hv, hu] at hvalue
      cases hvalue
      exact hm.not_isNull
    · have hbelow {c : Expr} (hc : c ∈ kind.children) {n : Bool} {w : Value} (hcimp : impliesNotNull none x n c)
          (hw : c.meaning.value env = some w) (hn : w.Affirms n) : u.isNull = false :=
        ih c hc (hp.of_child hc) hcimp hw hn
      cases kind with
      | inList id operand items =>
        simp only [impliesNotNull, hmatch, beq_iff_eq, if_false] at himp
        obtain ⟨o, ho, rfl⟩ := Option.map_eq_some_iff.1 hv
        cases o with
        | none => cases hm.not_isNull
        | some t =>
          have hmem : operand ∈ (Kind.inList (σ := Select) id operand items).children := by simp
          have hne : itemsMeaning items ≠ [] := by
            rw [itemsMeaning_eq_map, ne_eq, List.map_eq_nil_iff]
            rintro rfl
            exact (h.listed.part hp).here id operand rfl
          obtain ⟨w, hw, hn⟩ := operand_of_listOutcome hne ho fun hc w hw => by
            rw [meaning_expr] at hc
            exact Value.isNull_of_isProper (isProper_of_canBeNull (h.left.part (hp.of_child hmem))
              (h.honest.part (hp.of_child hmem)) hc hw)
          exact hbelow hmem himp hw hn
      | between operand low high =>
        simp only [impliesNotNull, hmatch, beq_iff_eq, if_false, Bool.and_eq_true, Bool.or_eq_true,
          Bool.not_eq_true'] at himp
        obtain ⟨rfl, himp⟩ := himp
        have hmem (c : Expr) (hc : c ∈ [operand, low, high]) :
            c ∈ (Kind.between (σ := Select) operand low high).children := hc
        obtain ⟨values, hrow, hv⟩ := Option.bind_eq_some_iff.1 hv
        obtain ⟨y, z, hy, hz, rfl⟩ := binaryValue_compute (rfl : BinaryOp.and.isComparison = false) hv
        obtain ⟨hyt, hzt⟩ := Value.truth_of_and hm
        rw [meaning_expr] at hy hz
        have hy : binaryValue .ge (.held operand values) low.meaning env = some y := hy
        have hz : binaryValue .le (.held operand values) high.meaning env = some z := hz
        have hsize := vectorSize_ne_zero (h.left.part (hp.of_child (hmem operand (by simp)))).here
        obtain (hi | hi) | hi := himp
        · obtain ⟨w, hw, hn⟩ := side_of_comparison (.inr rfl) rfl rfl hsize hy (Value.isNull_of_truth hyt) hi hu
          exact hbelow (hmem low (by simp)) hi hw hn
        · obtain ⟨w, hw, hn⟩ := side_of_comparison (.inr rfl) rfl rfl hsize hz (Value.isNull_of_truth hzt) hi hu
          exact hbelow (hmem high (by simp)) hi hw hn
        · obtain ⟨w, hw, hn⟩ := h.operand_of_between hrow hy (Value.isNull_of_truth hyt)
            (hp.of_child (hmem operand (by simp))) hi hu
          exact hbelow (hmem operand (by simp)) hi hw hn
      | binary op left right =>
        simp only [impliesNotNull, hmatch, beq_iff_eq, if_false] at himp
        cases hs : strictness op m with
        | none =>
          simp only [hs] at himp
          cases himp
        | some n =>
          simp only [hs, Bool.or_eq_true] at himp
          have hl : left ∈ (Kind.binary (σ := Select) op left right).children := by simp
          have hr : right ∈ (Kind.binary (σ := Select) op left right).children := by simp
          cases hop : op.isComparison with
          | false =>
            obtain ⟨y, z, hy, hz, rfl⟩ := binaryValue_compute hop hv
            obtain ⟨hyn, hzn⟩ := BinaryOp.affirms_of_compute hs hop hm
            exact himp.elim (fun hi => hbelow hr hi hz hzn) fun hi => hbelow hl hi hy hyn
          | true =>
            obtain ⟨hnull, rfl⟩ := comparesNull_of_strictness hs hop
            have hsize : left.meaning.expr.vectorSize ≠ 0 := by
              rw [meaning_expr]
              exact vectorSize_ne_zero (h.left.part (hp.of_child hl)).here
            obtain hi | hi := himp
            · obtain ⟨w, hw, hn⟩ := side_of_comparison (.inr rfl) hop hnull hsize hv hm.not_isNull hi hu
              exact hbelow hr hi hw hn
            · obtain ⟨w, hw, hn⟩ := side_of_comparison (.inl rfl) hop hnull hsize hv hm.not_isNull hi hu
              exact hbelow hl hi hw hn
      | collate operand name =>
        simp only [impliesNotNull, hmatch, beq_iff_eq, if_false] at himp
        exact hbelow (by simp) himp hv hm
      | unary op operand =>
        simp only [impliesNotNull, hmatch, beq_iff_eq, if_false] at himp
        have hmem : operand ∈ (Kind.unary (σ := Select) op operand).children := by simp
        cases op with
        | positive => exact hbelow hmem himp hv hm
        | negate =>
          have hv : operand.meaning.negatedValue env = some v := hv
          have hpart := hp.of_child hmem
          -- a literal is read with its sign, so its value is found through the match
          have hliteral (hk : (∃ l, operand.kind = .integer l) ∨ ∃ t, operand.kind = .float t) : u.isNull = false := by
            have hc : operand.canBeNull = false := by
              obtain ⟨i, k⟩ := operand
              obtain ⟨_, hk⟩ | ⟨_, hk⟩ := hk <;> cases hk <;> rfl
            have hvalue := (h.same h.caseBlind hpart hx (matches_of_number hk himp)).1.value
            exact Value.isNull_of_isProper (isProper_of_canBeNull (h.left.part hpart) (h.honest.part hpart) hc
              (hvalue.trans hu))
          rw [negatedValue, meaning_expr] at hv
          split at hv
          · exact hliteral (.inl ⟨_, by assumption⟩)
          · exact hliteral (.inl ⟨_, by assumption⟩)
          · exact hliteral (.inr ⟨_, by assumption⟩)
          · obtain ⟨w, hw, rfl⟩ := Option.map_eq_some_iff.1 hv
            exact hbelow hmem himp hw (Value.affirms_of_negated hm)
        | not | bitNot =>
          obtain ⟨w, hw, rfl⟩ := Option.map_eq_some_iff.1 hv
          refine hbelow hmem himp hw (?_ : w.isNull = false)
          have hn := hm.not_isNull
          cases w <;> first | rfl | cases hn
        | isTrue | isFalse =>
          obtain ⟨w, hw, rfl⟩ := Option.map_eq_some_iff.1 hv
          simp only [Bool.and_eq_true, Bool.not_eq_true'] at himp
          obtain ⟨rfl, himp⟩ := himp
          refine hbelow hmem himp hw (?_ : w.isNull = false)
          cases w <;> first | rfl | cases hm
        | _ => cases himp
      | inSelect => cases hv
      | _ => simp [impliesNotNull, hmatch] at himp

theorem truth (hx : x.Part b) (himp : implies none a x) (hv : a.meaning.value env = some v) (hm : v.truth = some true)
    (hu : x.meaning.value env = some u) : u.truth = some true := by
  induction x using children_induction generalizing u with
  | step info kind ih =>
    by_cases hmatch : compare none a (.node info kind) = .equal
    · have hvalue := (h.same h.caseBlind .self hx hmatch).1.value
      rw [hv, hu] at hvalue
      cases hvalue
      exact hm
    · cases kind with
      | binary op left right =>
        cases op with
        | or =>
          simp only [implies, hmatch, beq_iff_eq, Bool.or_eq_true, false_or] at himp
          obtain ⟨y, z, hy, hz, rfl⟩ := binaryValue_compute (rfl : BinaryOp.or.isComparison = false) hu
          have hl : left ∈ (Kind.binary (σ := Select) .or left right).children := by simp
          have hr : right ∈ (Kind.binary (σ := Select) .or left right).children := by simp
          refine Value.truth_of_or ?_
          exact himp.imp (fun hi => ih left hl (hx.of_child hl) hi hy) fun hi => ih right hr (hx.of_child hr) hi hz
        | _ => simp [implies, hmatch] at himp
      | unary op operand =>
        cases op with
        | notNull =>
          simp only [implies, hmatch, beq_iff_eq, Bool.or_eq_true, false_or] at himp
          obtain ⟨w, hw, rfl⟩ := Option.map_eq_some_iff.1 hu
          have hmem : operand ∈ (Kind.unary (σ := Select) .notNull operand).children := by simp
          rw [h.not_isNull .self (hx.of_child hmem) himp hv hm hw]
          rfl
        | _ => simp [implies, hmatch] at himp
      | _ => simp [implies, hmatch] at himp

end Implicable

end Expr

/-! ## Scans of two conditions -/

/-- Implication between conditions without IN over an empty list is right on every row: where the first condition
is true so is one that it implies, and where it is true, or only other than NULL, so is an expression other than
NULL that it is said to make so. -/
theorem Gen.implied_on_rows {catalog : Catalog} {config : Config} {params : List Value} {outer : List (Int × Cursor)}
    {store : Store} {setting : Gen.Setting} {t : Table} {cursor : Int} {a b : Expr} {pa pb : Program} {ca cb : Compiler}
    {ka kb : Nat} {ma mb : Machine} (htame : catalog.collations.Tame)
    (hcomparable : Expr.Comparable catalog.functions (setting.Reserves cursor) a b) (hlisted : a.Every Expr.Listed)
    (hhonest : ∀ r ∈ store.rows t.id,
      a.Every (Expr.Honest ((Env.under setting catalog config params outer).at cursor r)))
    (hdistincta : a.identities.Nodup) (hdistinctb : b.identities.Nodup)
    (ha : (Gen.forEachRow setting t cursor 1 a.coded.exact).Makes (.new catalog config) pa ca)
    (hb : (Gen.forEachRow setting t cursor 1 b.coded.exact).Makes (.new catalog config) pb cb)
    (hwholea : pa.CopiesWhole) (hwholeb : pb.CopiesWhole)
    (hsizea : pa.ops.size < 2147483648) (hsizeb : pb.ops.size < 2147483648)
    (houter : ∀ q ∈ outer, q.2.isStored = true)
    (hruna : Machine.runFrom pa.ops ka 0 (.startUnder pa catalog store params outer) = (.ok (), ma))
    (hrunb : Machine.runFrom pb.ops kb 0 (.startUnder pb catalog store params outer) = (.ok (), mb))
    (i : Nat) (hi : i < (store.rows t.id).length) :
    ∃ va vb, ma.rows[i]? = some [va] ∧ mb.rows[i]? = some [vb] ∧
      (Expr.implies none a b = true → va.truth = some true → vb.truth = some true) ∧
      (Expr.impliesNotNull none b false a = true → va.truth = some true → vb.isNull = false) ∧
      (Expr.impliesNotNull none b true a = true → va.isNull = false → vb.isNull = false) := by
  obtain ⟨as, has, hrowsa⟩ := Gen.forEachRow_values htame hcomparable.left hdistincta ha hwholea hsizea houter hruna
  obtain ⟨bs, hbs, hrowsb⟩ := Gen.forEachRow_values htame hcomparable.right hdistinctb hb hwholeb hsizeb houter hrunb
  have hr : (store.rows t.id)[i]? = some (store.rows t.id)[i] := List.getElem?_eq_getElem hi
  generalize (store.rows t.id)[i] = r at hr
  obtain ⟨ra, hra, hia⟩ := getElem?_of_mapM has hr
  obtain ⟨rb, hrb, hib⟩ := getElem?_of_mapM hbs hr
  rw [rowValues_single] at hra hrb
  obtain ⟨va, hva, rfl⟩ := Option.map_eq_some_iff.1 hra
  obtain ⟨vb, hvb, rfl⟩ := Option.map_eq_some_iff.1 hrb
  have himplicable : Expr.Implicable catalog.functions (setting.Reserves cursor)
      ((Env.under setting catalog config params outer).at cursor r) a b :=
    { hcomparable with
      caseBlind := ⟨rfl, fun _ _ => Collations.answer_congr htame, rfl, rfl⟩
      listed := hlisted
      honest := hhonest r (List.mem_of_getElem? hr) }
  refine ⟨va, vb, by simpa [hrowsa] using hia, by simpa [hrowsb] using hib, fun himp ht => ?_, fun himp ht => ?_,
    fun himp hn => ?_⟩
  · exact himplicable.truth .self himp hva ht hvb
  · exact himplicable.not_isNull .self .self himp hva ht hvb
  · exact himplicable.not_isNull .self .self himp hva hn hvb

namespace Example

/-- NOT (a * 2 IN (2, 4, 6)) over the rows of the table. -/
def notInDoubled : Expr :=
  .ofKind (.unary .not (.ofKind (.inList 0 (.ofKind (.binary .mul column (literal 2)))
    [⟨literal 2, false, 0⟩, ⟨literal 4, false, 0⟩, ⟨literal 6, false, 0⟩])))

def orNotNull : Expr := .ofKind (.binary .or (literal 0) (.ofKind (.unary .notNull column)))

/-- What is asked of the nodes of conditions over the table. -/
def Fits (x : Expr) : Prop :=
  x.ScalarNode Catalog.empty.functions (Gen.Setting.Reserves {} 0) ∧ x.Unfixed ∧
    x.Resolved (fun _ => some table) ∧ x.Listed ∧ ∀ ref, x.kind = .column ref → x.canBeNull = true

theorem notInDoubled_fits : notInDoubled.Every Fits := by
  simp [notInDoubled, every_ofKind, Fits, ScalarNode, Unfixed, Resolved, Listed, column, literal, Gen.Setting.Reserves]
  decide

theorem orNotNull_fits : orNotNull.Every Fits := by
  simp [orNotNull, every_ofKind, Fits, ScalarNode, Unfixed, Resolved, Listed, column, literal, Gen.Setting.Reserves]
  decide

theorem comparable {a b : Expr} (ha : a.Every Fits) (hb : b.Every Fits) :
    Comparable Catalog.empty.functions (Gen.Setting.Reserves {} 0) a b where
  left := ha.mono fun _ h => h.1
  right := hb.mono fun _ h => h.1
  leftUnfixed := ha.mono fun _ h => h.2.1
  rightUnfixed := hb.mono fun _ h => h.2.1
  marks := markedAlike_of_resolved (ha.mono fun _ h => h.2.2.1) (hb.mono fun _ h => h.2.2.1)

def otherStore : Store := ⟨[(1, [⟨1, [.integer 1]⟩, ⟨2, [.integer 5]⟩, ⟨3, [.null]⟩])]⟩

end Example

open Example in
/-- The first condition is true on the second row only, so the second one is true there. -/
theorem Gen.implied_on_rows_not_in :
    ∃ pa ca pb cb ma mb,
      (Gen.forEachRow {} table 0 1 notInDoubled.coded.exact).Makes (.new .empty {}) pa ca ∧
      (Gen.forEachRow {} table 0 1 orNotNull.coded.exact).Makes (.new .empty {}) pb cb ∧
      pa.run .empty otherStore [] = (.ok (), ma) ∧ pb.run .empty otherStore [] = (.ok (), mb) ∧
      Expr.implies none notInDoubled orNotNull = true ∧
      ma.rows = #[[.integer 0], [.integer 1], [.null]] ∧
      ∃ v, mb.rows[1]? = some [v] ∧ v.truth = some true := by
  obtain ⟨pa, ca, ma, ha, hruna, hrowsa⟩ := Gen.of_delivered?
    (show (Gen.forEachRow {} table 0 1 notInDoubled.coded.exact).delivered? .empty {} otherStore [] =
      some #[[.integer 0], [.integer 1], [.null]] by decide +kernel)
  obtain ⟨pb, cb, mb, hb, hrunb, -⟩ := Gen.of_delivered?
    (show (Gen.forEachRow {} table 0 1 orNotNull.coded.exact).delivered? .empty {} otherStore [] =
      some #[[.integer 1], [.integer 1], [.integer 0]] by decide +kernel)
  have himp : Expr.implies none notInDoubled orNotNull = true := by decide +kernel
  refine ⟨pa, ca, pb, cb, ma, mb, ha, hb, hruna, hrunb, himp, hrowsa, ?_⟩
  obtain ⟨va, vb, hva, hvb, himplied, -, -⟩ := Gen.implied_on_rows (Collations.tame_of_no_factory rfl)
    (comparable notInDoubled_fits orNotNull_fits) (notInDoubled_fits.mono fun _ h => h.2.2.2.1)
    (fun r _ => notInDoubled_fits.mono fun x h ref href hc => by rw [h.2.2.2.2 ref href] at hc; cases hc)
    (by decide) (by decide) ha hb
    (Gen.copiesWhole_of_makes ha (by decide +kernel)) (Gen.copiesWhole_of_makes hb (by decide +kernel))
    (Gen.size_lt_of_makes ha (by decide +kernel)) (Gen.size_lt_of_makes hb (by decide +kernel))
    (List.forall_mem_nil _) hruna hrunb 1 (by decide)
  rw [hrowsa] at hva
  cases hva
  exact ⟨vb, hvb, himplied himp (by decide +kernel)⟩

namespace Example

def notInNothing : Expr := .ofKind (.unary .not (.ofKind (.inList 0 (.ofKind (.param 1 "?1")) [])))

def paramNotNull : Expr := .ofKind (.unary .notNull (.ofKind (.param 1 "?1")))

end Example

open Example in
/-- NULL is not in an empty list, so the first condition is true of it and the second one, which it is said to
imply, is false. -/
theorem Gen.implied_false_on_empty_list :
    Expr.implies none notInNothing paramNotNull = true ∧
      (Gen.forEachRow {} table 0 1 notInNothing.coded.exact).delivered? .empty {} ⟨[(1, [⟨1, [.null]⟩])]⟩ [.null] =
        some #[[.integer 1]] ∧
      (Gen.forEachRow {} table 0 1 paramNotNull.coded.exact).delivered? .empty {} ⟨[(1, [⟨1, [.null]⟩])]⟩ [.null] =
        some #[[.integer 0]] := by
  decide +kernel

end ScalarSql
