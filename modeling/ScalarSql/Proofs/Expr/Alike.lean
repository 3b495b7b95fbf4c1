import ScalarSql.Proofs.Expr.Plain
import Mathlib.Data.Option.Basic
import Mathlib.Data.List.Forall2

/-!
# Expressions that compare alike

How a value is compared depends on the expression it comes from: on its affinity, its collating
sequence and whether COLLATE is below it. Two expressions are alike if they agree in this; names of
collating sequences may differ in upper and lower case.
-/

namespace ScalarSql

open ScalarSql.Expr Text

variable {a b : Option String} {c : Option String}

/-- Both names are absent, or they are the same up to the case of letters. -/
def SameName? : Option String → Option String → Prop :=
  Option.Rel fun a b => sameName a b = true

theorem SameName?.refl (a : Option String) : SameName? a a := by
  cases a with
  | none => exact .none
  | some n => exact .some (sameName_self n)

theorem SameName?.trans (h1 : SameName? a b) (h2 : SameName? b c) : SameName? a c := by
  cases h1 with
  | none => exact h2
  | some h1 =>
    cases h2 with
    | some h2 => exact .some (sameName_trans h1 h2)

theorem SameName?.bind_eq {α : Type} {f g : String → Option α} (hfg : ∀ a b, sameName a b → f a = g b)
    (h : SameName? a b) : a.bind f = b.bind g := by
  cases h with
  | none => rfl
  | some h => exact hfg _ _ h

theorem SameName?.or {d : Option String} (h1 : SameName? a b) (h2 : SameName? c d) : SameName? (a.or c) (b.or d) := by
  cases h1 with
  | none => exact h2
  | some h => exact .some h

namespace Expr

/-- The expressions have the same affinity, the same collating sequence and the same say in which
sequence is used, and both or neither can be NULL. -/
structure TypedAlike (e x : Expr) : Prop where
  affinity : e.affinity = x.affinity
  collate : e.flags.collate = x.flags.collate
  collation : SameName? e.collationName? x.collationName?
  canBeNull : e.canBeNull = x.canBeNull

/-- The expressions agree as single values and field by field. -/
structure Alike (e x : Expr) : Prop extends TypedAlike e x where
  size : e.vectorSize = x.vectorSize
  field : ∀ i, TypedAlike (e.vectorField i) (x.vectorField i)

variable {e x l l' r r' : Expr} {xs ys : List (Item Expr)} {y : Expr}

theorem TypedAlike.refl (e : Expr) : TypedAlike e e := ⟨rfl, rfl, .refl _, rfl⟩

theorem Alike.refl (e : Expr) : Alike e e := ⟨.refl e, rfl, fun i => .refl (e.vectorField i)⟩

theorem TypedAlike.trans (h1 : TypedAlike e x) (h2 : TypedAlike x y) : TypedAlike e y :=
  ⟨h1.affinity.trans h2.affinity, h1.collate.trans h2.collate, h1.collation.trans h2.collation,
    h1.canBeNull.trans h2.canBeNull⟩

theorem Alike.trans (h1 : Alike e x) (h2 : Alike x y) : Alike e y :=
  ⟨h1.toTypedAlike.trans h2.toTypedAlike, h1.size.trans h2.size, fun i => (h1.field i).trans (h2.field i)⟩

theorem Alike.isVector (h : Alike e x) : e.isVector = x.isVector := by
  rw [Expr.isVector, Expr.isVector, h.size]

theorem vectorField_of_single (h : e.isVector = false) (i : Nat) : e.vectorField i = e := by
  obtain ⟨info, kind⟩ := e
  simp only [isVector, decide_eq_false_iff_not] at h
  cases kind with
  | vector items | subquery id select => rw [vectorField, if_neg (by simpa [vectorSize] using h)]
  | register reg source =>
    rw [vectorField, if_neg (by simpa [vectorSize, isVector] using h)]
  | _ => rfl

theorem Alike.of_single (h : TypedAlike e x) (he : e.vectorSize = 1) (hx : x.vectorSize = 1) : Alike e x := by
  refine ⟨h, he.trans hx.symm, fun i => ?_⟩
  rw [vectorField_of_single (by simp [Expr.isVector, he]), vectorField_of_single (by simp [Expr.isVector, hx])]
  exact h

theorem TypedAlike.compareAffinity (hl : TypedAlike l l') (hr : TypedAlike r r') :
    l.compareAffinity r.affinity = l'.compareAffinity r'.affinity := by
  rw [Expr.compareAffinity, Expr.compareAffinity, hl.affinity, hr.affinity]

theorem TypedAlike.compareCollationName? (hl : TypedAlike l l') (hr : TypedAlike r r') :
    SameName? (l.compareCollationName? r) (l'.compareCollationName? r') := by
  unfold Expr.compareCollationName?
  rw [hl.collate, hr.collate]
  split
  · exact hl.collation
  · split
    · exact hr.collation
    · exact hl.collation.or hr.collation

/-! ## COLLATE below a node -/

theorem flag_infoOf {φ : ExprFlags → Bool} (hφ : ∀ f g, φ (f.union g.inherited) = (φ f || φ g))
    (kind : Kind Expr Select) : φ (infoOf kind).flags = (φ kind.ownFlags || kind.children.any (φ ·.flags)) := by
  have hfold (es : List Expr) (f : ExprFlags) :
      φ (es.foldl (fun f e => f.union e.flags.inherited) f) = (φ f || es.any (φ ·.flags)) := by
    induction es generalizing f with
    | nil => simp
    | cons e es ih => simp [ih, hφ, Bool.or_assoc]
  exact hfold _ _

theorem collate_infoOf (kind : Kind Expr Select) :
    (infoOf kind).flags.collate = (kind.ownFlags.collate || kind.children.any (·.flags.collate)) :=
  flag_infoOf (fun _ _ => rfl) kind

/-! ## Nodes -/

/-- Operators on alike operands are alike if both or neither contain COLLATE. -/
theorem alike_binary {i i' : NodeInfo} {op : BinaryOp} (hi : i.flags.collate = i'.flags.collate) (hl : l.Alike l')
    (hr : r.Alike r') : Alike (.node i (.binary op l r)) (.node i' (.binary op l' r')) := by
  refine .of_single ⟨rfl, hi, ?_, rfl⟩ rfl rfl
  rw [collationName?, collationName?, hi, hl.collate]
  split
  · exact .none
  · split
    · exact hl.collation
    · exact hr.collation


/-- A list of parts, each with whether it contains COLLATE and the name found through it, that agree
with the parts of another list. -/
def SameParts : List (Bool × Option String) → List (Bool × Option String) → Prop :=
  List.Forall₂ fun p q => p.1 = q.1 ∧ SameName? p.2 q.2

theorem SameParts.pickCollated {xs ys : List (Bool × Option String)} (h : SameParts xs ys) :
    SameName? (pickCollated xs) (pickCollated ys) := by
  have hfind : Option.Rel (fun p q => p.1 = q.1 ∧ SameName? p.2 q.2) (xs.find? (·.1)) (ys.find? (·.1)) := by
    induction h with
    | nil => exact .none
    | @cons p q rest rest' hpq _ ih =>
      rw [List.find?_cons, List.find?_cons, hpq.1]
      cases q.1 with
      | true => exact .some hpq
      | false => exact ih
  unfold Expr.pickCollated
  generalize xs.find? (·.1) = a at hfind ⊢
  generalize ys.find? (·.1) = b at hfind ⊢
  cases hfind with
  | some hpq => exact hpq.2
  | none =>
    cases h with
    | nil => exact .none
    | cons hpq _ => exact hpq.2

def AlikeItems : List (Item Expr) → List (Item Expr) → Prop :=
  List.Forall₂ fun x y => x.expr.Alike y.expr

theorem AlikeItems.collationNames (h : AlikeItems xs ys) : SameParts (collationNames xs) (collationNames ys) := by
  induction h with
  | nil => exact .nil
  | cons hxy _ ih => exact .cons ⟨hxy.collate, hxy.collation⟩ ih

theorem AlikeItems.affinityAt (h : AlikeItems xs ys) (i : Nat) : affinityAt i xs = affinityAt i ys := by
  induction h generalizing i with
  | nil => rfl
  | cons hxy _ ih =>
    cases i with
    | zero => exact hxy.affinity
    | succ i => exact ih i

theorem AlikeItems.getElem? (h : AlikeItems xs ys) (n : Nat) :
    Option.Rel (fun x y : Item Expr => x.expr.Alike y.expr) xs[n]? ys[n]? := by
  induction h generalizing n with
  | nil => exact .none
  | cons hxy _ ih =>
    cases n with
    | zero => exact .some hxy
    | succ n => exact ih n

/-- If the node contains COLLATE, its name is picked from its parts. -/
theorem sameName_pick {c c' : Bool} (hc : c = c') {xs ys : List (Bool × Option String)} (h : SameParts xs ys) :
    SameName? (if c then pickCollated xs else none) (if c' then pickCollated ys else none) := by
  subst hc
  cases c
  · exact .none
  · exact h.pickCollated

section

variable {i j : NodeInfo} (hi : i.flags.collate = j.flags.collate) {xs ys : List (Item Expr)}
include hi

theorem alike_unary {op : UnaryOp} (h : e.Alike x) : Alike (.node i (.unary op e)) (.node j (.unary op x)) := by
  refine .of_single ⟨rfl, hi, ?_, ?_⟩ rfl rfl
  · rw [collationName?, collationName?, hi]
    split
    · exact h.collation
    · exact .none
  · cases op <;> first | rfl | exact h.canBeNull

theorem alike_collate {c d : String} (hname : sameName c d) (h : e.Alike x) :
    Alike (.node i (.collate e c)) (.node j (.collate x d)) :=
  .of_single ⟨h.affinity, hi, .some hname, rfl⟩ rfl rfl

theorem alike_cast {type : String} (h : e.Alike x) : Alike (.node i (.cast e type)) (.node j (.cast x type)) :=
  .of_single ⟨rfl, hi, h.collation, rfl⟩ rfl rfl

theorem alike_call {s t : String} {v w : Option (Window Expr)} (hu : i.flags.unlikely = j.flags.unlikely)
    (h : AlikeItems xs ys) : Alike (.node i (.call s xs v)) (.node j (.call t ys w)) := by
  refine .of_single ⟨?_, hi, sameName_pick hi h.collationNames, rfl⟩ rfl rfl
  rw [affinity, affinity, hu, h.affinityAt]

theorem alike_between {u u' : Expr} (h : e.Alike x) (hl : l.Alike l') (hu : u.Alike u') :
    Alike (.node i (.between e l u)) (.node j (.between x l' u')) :=
  .of_single ⟨rfl, hi, sameName_pick hi (.cons ⟨h.collate, h.collation⟩
    (.cons ⟨hl.collate, hl.collation⟩ (.cons ⟨hu.collate, hu.collation⟩ .nil))), rfl⟩ rfl rfl

theorem alike_inList {id id' : Identity} (h : e.Alike x) (hs : AlikeItems xs ys) :
    Alike (.node i (.inList id e xs)) (.node j (.inList id' x ys)) :=
  .of_single ⟨rfl, hi, sameName_pick hi (.cons ⟨h.collate, h.collation⟩ hs.collationNames), rfl⟩ rfl rfl

theorem alike_vector (h : AlikeItems xs ys) : Alike (.node i (.vector xs)) (.node j (.vector ys)) := by
  have htyped : TypedAlike (.node i (.vector xs)) (.node j (.vector ys)) :=
    ⟨h.affinityAt 0, hi, sameName_pick hi h.collationNames, rfl⟩
  refine ⟨htyped, h.length_eq, fun n => ?_⟩
  rw [vectorField, vectorField, h.length_eq]
  split
  · have hget := h.getElem? n
    generalize xs[n]? = a at hget ⊢
    generalize ys[n]? = b at hget ⊢
    cases hget with
    | none => exact htyped
    | some hxy => exact hxy.toTypedAlike
  · exact htyped

theorem alike_caseOf {b b' o o' : Option Expr} {xs ys : List (Expr × Expr)} (hb : Option.Rel Alike b b')
    (hs : List.Forall₂ (fun p q : Expr × Expr => p.1.Alike q.1 ∧ p.2.Alike q.2) xs ys) (ho : Option.Rel Alike o o') :
    Alike (.node i (.caseOf b xs o)) (.node j (.caseOf b' ys o')) := by
  have harms : SameParts (collationNamesOfArms xs) (collationNamesOfArms ys) := by
    induction hs with
    | nil => exact .nil
    | cons hpq _ ih =>
      exact .cons ⟨hpq.1.collate, hpq.1.collation⟩ (.cons ⟨hpq.2.collate, hpq.2.collation⟩ ih)
  refine .of_single ⟨rfl, hi, ?_, rfl⟩ rfl rfl
  rw [collationName?.eq_def, collationName?.eq_def]
  refine sameName_pick hi (List.rel_append (List.rel_append ?_ harms) ?_)
  · cases hb with
    | none => exact .nil
    | some h => exact .cons ⟨h.collate, h.collation⟩ .nil
  · cases ho with
    | none => exact .nil
    | some h => exact .cons ⟨h.collate, h.collation⟩ .nil

end

/-- A register is compared as the expression whose value it holds. -/
theorem alike_register (reg : Int) (source : Expr) : Alike (ofKind (.register reg source)) source := by
  have htyped : TypedAlike (ofKind (.register reg source)) source := by
    refine ⟨?_, ?_, ?_, ?_⟩
    · rw [ofKind, affinity]
    · rw [ofKind, flags, info, collate_infoOf]
      simp [Kind.ownFlags]
    · rw [ofKind, collationName?]
      exact .refl _
    · rw [ofKind, canBeNull]
  refine ⟨htyped, ?_, fun i => ?_⟩
  · rw [ofKind, vectorSize]
  · by_cases hv : source.isVector
    · rw [ofKind, vectorField, if_pos hv]
      exact .refl _
    · rw [ofKind, vectorField, if_neg hv]
      rw [vectorField_of_single (by simpa using hv)]
      exact htyped

end Expr

end ScalarSql
