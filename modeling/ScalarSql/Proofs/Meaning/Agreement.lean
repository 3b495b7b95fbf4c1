import ScalarSql.Proofs.Expr.Induction
import ScalarSql.Proofs.Meaning.Expr

/-!
# Values and branches agree

Where an expression has a value, a branch on it is taken exactly as the truth of the value says. The
branch follows a way of its own through AND, OR, NOT, the tests for truth and NULL, comparisons,
BETWEEN and IN, so this is proved for each of them from the same fact about its operands.
-/

namespace ScalarSql

/-! ## Three-valued logic -/

@[simp]
theorem Value.truth_ofTruth (t : Option Bool) : (Value.ofTruth t).truth = t := by
  rcases t with _ | _ | _ <;> rfl

@[simp]
theorem Value.truth_ofBool (b : Bool) : (Value.ofBool b).truth = some b := by
  cases b <;> rfl

/-- A branch on AND: the first operand decides if it is false, or unknown and that does not jump. -/
theorem takes_and (j : Bool) (x y : Option Bool) :
    takes true j (Truth.and x y) = (!takes false (!j) x && takes true j y) ∧
      takes false j (Truth.and x y) = (takes false j x || takes false j y) := by
  rcases x with _ | _ | _ <;> rcases y with _ | _ | _ <;> cases j <;> decide

theorem takes_or (j : Bool) (x y : Option Bool) : takes true j (Truth.or x y) = (takes true j x || takes true j y) ∧
      takes false j (Truth.or x y) = (!takes true (!j) x && takes false j y) := by
  rcases x with _ | _ | _ <;> rcases y with _ | _ | _ <;> cases j <;> decide

theorem takes_not (w j : Bool) (t : Option Bool) : takes w j (Truth.not t) = takes (!w) j t := by
  rcases t with _ | _ | _ <;> cases w <;> cases j <;> decide

/-- A branch on a truth test is a branch on its operand, for what the test accepts. -/
theorem takes_holds (test : TruthTest) (w j : Bool) (t : Option Bool) : takes w j (some (test.holds t)) =
      takes ((test.forTrue != test.negated) == w) (test.negated == w) t := by
  obtain ⟨f, n⟩ := test
  rcases t with _ | _ | _ <;> cases f <;> cases n <;> cases w <;> rfl

namespace Meaning

/-- Where the value is defined, branches agree with it, and it is what a literal shows. -/
structure Agrees (μ : Meaning) (env : Env) : Prop where
  jump : ∀ v, μ.value env = some v → ∀ w j, μ.jump w j env = some (takes w j v.truth)
  branch : ∀ v, μ.value env = some v → ∀ w j, μ.branch w j env = some (takes w j v.truth)
  alwaysTrue : ∀ v, μ.value env = some v → μ.expr.isAlwaysTrue = true → v.truth = some true
  alwaysFalse : ∀ v, μ.value env = some v → μ.expr.isAlwaysFalse = true → v.truth = some false

/-- A node that is neither TRUE, FALSE nor an integer literal. -/
def NotLiteral (e : Expr) : Prop := e.isAlwaysTrue = false ∧ e.isAlwaysFalse = false

variable {e : Expr} {env : Env} {left right operand low high μ : Meaning} {value : Reading} {v a b : Value}
  {op : BinaryOp}

theorem onTruth_eq (hv : value env = some v) (htrue : e.isAlwaysTrue → v.truth = some true)
    (hfalse : e.isAlwaysFalse → v.truth = some false) (w j : Bool) :
    onTruth e value w j env = some (takes w j v.truth) := by
  unfold onTruth
  cases ht : e.isAlwaysTrue <;> cases hf : e.isAlwaysFalse <;> cases w <;>
    simp_all [takes]

theorem Agrees.ofValue (htrue : ∀ v, value env = some v → e.isAlwaysTrue → v.truth = some true)
    (hfalse : ∀ v, value env = some v → e.isAlwaysFalse → v.truth = some false) : (ofValue e value).Agrees env where
  jump v hv := onTruth_eq hv (htrue v hv) (hfalse v hv)
  branch v hv := onTruth_eq hv (htrue v hv) (hfalse v hv)
  alwaysTrue := htrue
  alwaysFalse := hfalse

theorem Agrees.ofJump (he : NotLiteral e) {jump : Bool → Bool → Env → Option Bool}
    (h : ∀ v, value env = some v → ∀ w j, jump w j env = some (takes w j v.truth)) :
    (ofJump e value jump).Agrees env where
  jump := h
  branch := h
  alwaysTrue _ _ ht := absurd ht (by simp [Meaning.ofJump, he.1])
  alwaysFalse _ _ hf := absurd hf (by simp [Meaning.ofJump, he.2])

/-- A node that is no literal and branches on its value. -/
theorem Agrees.ofValue_of_notLiteral (he : NotLiteral e) (value : Reading) : (Meaning.ofValue e value).Agrees env :=
  .ofValue (fun _ _ ht => absurd ht (by simp [he.1])) fun _ _ hf => absurd hf (by simp [he.2])

/-! ## Binary operators -/

section

variable (hl : left.Agrees env) (hr : right.Agrees env) (ha : left.value env = some a) (hb : right.value env = some b)

include hl hr ha hb

theorem jumpAnd_eq (w j : Bool) : jumpAnd left right w j env = some (takes w j (Truth.and a.truth b.truth)) := by
  unfold jumpAnd
  cases w with
  | true =>
    rw [(takes_and j _ _).1]
    simp only [if_true, hl.branch a ha, hr.branch b hb]
    cases takes false (!j) a.truth <;> rfl
  | false =>
    rw [(takes_and j _ _).2]
    simp only [Bool.false_eq_true, if_false, hl.branch a ha, hr.branch b hb]
    cases takes false j a.truth <;> rfl

theorem jumpOr_eq (w j : Bool) : jumpOr left right w j env = some (takes w j (Truth.or a.truth b.truth)) := by
  unfold jumpOr
  cases w with
  | true =>
    rw [(takes_or j _ _).1]
    simp only [if_true, hl.branch a ha, hr.branch b hb]
    cases takes true j a.truth <;> rfl
  | false =>
    rw [(takes_or j _ _).2]
    simp only [Bool.false_eq_true, if_false, hl.branch a ha, hr.branch b hb]
    cases takes true (!j) a.truth <;> rfl

end

theorem jumpBinary_comparison (hop : op.isComparison) (he : NotLiteral e) (hv : binaryValue op left right env = some v)
    (w j : Bool) : jumpBinary e op left right w j env = some (takes w j v.truth) := by
  have hjump : jumpBinary e op left right =
      if !(left.expr.isVector || right.expr.isVector) then jumpComparison op left right
      else onTruth e (binaryValue op left right) := by
    cases op <;> first
      | exact absurd hop (by decide)
      | rfl
  rw [hjump]
  cases hrows : left.expr.isVector || right.expr.isVector with
  | true => exact onTruth_eq hv (fun h => by simp [he.1] at h) (fun h => by simp [he.2] at h) w j
  | false =>
    simp only [binaryValue, hop, hrows, Bool.not_true, Bool.false_eq_true, if_false] at hv
    obtain ⟨a, ha, hv⟩ := Option.bind_eq_some_iff.1 hv
    obtain ⟨b, hb, hv⟩ := Option.bind_eq_some_iff.1 hv
    cases hv
    simp [jumpComparison, ha, hb]

theorem notLiteral_binary (info : NodeInfo) (op : BinaryOp) (x y : Expr) :
    NotLiteral (.node info (.binary op x y)) := by
  simp [NotLiteral, Expr.isAlwaysTrue, Expr.isAlwaysFalse]

theorem reduced?_of_ne (h1 : op ≠ .and) (h2 : op ≠ .or) : reduced? op left right = none := by
  cases op <;> first
    | rfl
    | exact absurd rfl h1
    | exact absurd rfl h2

theorem Agrees.comparison (hop : op.isComparison) (he : NotLiteral e) : (binary e op left right).Agrees env := by
  have hreduced : reduced? op left right = none :=
    reduced?_of_ne (fun h => by simp [h, BinaryOp.isComparison] at hop)
      fun h => by simp [h, BinaryOp.isComparison] at hop
  have hjump := fun v (hv : binaryValue op left right env = some v) => jumpBinary_comparison (e := e) hop he hv
  refine ⟨hjump, ?_, fun _ _ h => ?_, fun _ _ h => ?_⟩
  · simp only [binary, hreduced]
    exact hjump
  · exact absurd h (by simp [binary, Meaning.ofJump, he.1])
  · exact absurd h (by simp [binary, Meaning.ofJump, he.2])

theorem binaryValue_compute (hop : op.isComparison = false) (hv : binaryValue op left right env = some v) :
    ∃ a b, left.value env = some a ∧ right.value env = some b ∧ v = op.compute a b := by
  simp only [binaryValue, hop, Bool.not_false, if_true] at hv
  obtain ⟨a, ha, hv⟩ := Option.bind_eq_some_iff.1 hv
  obtain ⟨b, hb, hv⟩ := Option.bind_eq_some_iff.1 hv
  exact ⟨a, b, ha, hb, (Option.some.inj hv).symm⟩

theorem jumpBinary_logic (he : NotLiteral e) (hop : op.isComparison = false) (hl : left.Agrees env)
    (hr : right.Agrees env) (hv : binaryValue op left right env = some v) (w j : Bool) :
    jumpBinary e op left right w j env = some (takes w j v.truth) := by
  obtain ⟨a, b, ha, hb, rfl⟩ := binaryValue_compute hop hv
  cases op with
  | and => simpa [jumpBinary, BinaryOp.compute, Value.and] using jumpAnd_eq hl hr ha hb w j
  | or => simpa [jumpBinary, BinaryOp.compute, Value.or] using jumpOr_eq hl hr ha hb w j
  | eq | ne | lt | le | gt | ge | is | isNot => exact absurd hop (by decide)
  | _ => exact onTruth_eq hv (fun h => by simp [he.1] at h) (fun h => by simp [he.2] at h) w j

section

variable (t : Option Bool)

include t

theorem Truth.true_and : Truth.and (some true) t = t := by
  rcases t with _ | _ | _ <;> rfl

theorem Truth.and_true : Truth.and t (some true) = t := by
  rcases t with _ | _ | _ <;> rfl

theorem Truth.and_false : Truth.and t (some false) = some false := by
  rcases t with _ | _ | _ <;> rfl

theorem Truth.false_or : Truth.or (some false) t = t := by
  rcases t with _ | _ | _ <;> rfl

theorem Truth.or_false : Truth.or t (some false) = t := by
  rcases t with _ | _ | _ <;> rfl

theorem Truth.or_true : Truth.or t (some true) = some true := by
  rcases t with _ | _ | _ <;> rfl

end

/-- The operand that AND or OR is reduced to has the truth of the whole. -/
theorem reduced?_truth (hop : op.isComparison = false) (hl : left.Agrees env) (hr : right.Agrees env)
    (ha : left.value env = some a) (hb : right.value env = some b) (hμ : reduced? op left right = some μ) :
    (μ = left ∧ (op.compute a b).truth = a.truth) ∨ (μ = right ∧ (op.compute a b).truth = b.truth) := by
  have hlt := hl.alwaysTrue a ha
  have hlf := hl.alwaysFalse a ha
  have hrt := hr.alwaysTrue b hb
  have hrf := hr.alwaysFalse b hb
  cases op with
  | and =>
    simp only [reduced?] at hμ
    simp only [BinaryOp.compute, Value.and, Value.truth_ofTruth]
    split at hμ
    · rename_i h
      rcases Bool.or_eq_true_iff.1 h with h | h
      · rw [hlt h, Truth.true_and]
        simp_all
      · rw [hrf h, Truth.and_false]
        simp_all
    · split at hμ
      · rename_i h
        rcases Bool.or_eq_true_iff.1 h with h | h
        · rw [hrt h, Truth.and_true]
          simp_all
        · rw [hlf h]
          simp_all [Truth.and]
      · cases hμ
  | or =>
    simp only [reduced?] at hμ
    simp only [BinaryOp.compute, Value.or, Value.truth_ofTruth]
    split at hμ
    · rename_i h
      rcases Bool.or_eq_true_iff.1 h with h | h
      · rw [hlt h]
        simp_all [Truth.or]
      · rw [hrf h, Truth.or_false]
        simp_all
    · split at hμ
      · rename_i h
        rcases Bool.or_eq_true_iff.1 h with h | h
        · rw [hrt h, Truth.or_true]
          simp_all
        · rw [hlf h, Truth.false_or]
          simp_all
      · cases hμ
  | eq | ne | lt | le | gt | ge | is | isNot => exact absurd hop (by decide)
  | _ => cases hμ

theorem Agrees.binary (he : NotLiteral e) (hl : left.Agrees env) (hr : right.Agrees env) :
    (binary e op left right).Agrees env := by
  cases hop : op.isComparison with
  | true => exact .comparison hop he
  | false =>
    have hjump := fun v (hv : binaryValue op left right env = some v) => jumpBinary_logic he hop hl hr hv
    refine ⟨hjump, fun v hv w j => ?_, fun _ _ h => ?_, fun _ _ h => ?_⟩
    · simp only [Meaning.binary]
      cases hμ : reduced? op left right with
      | none => exact hjump v hv w j
      | some μ =>
        obtain ⟨a, b, ha, hb, rfl⟩ := binaryValue_compute hop hv
        rcases reduced?_truth hop hl hr ha hb hμ with ⟨rfl, ht⟩ | ⟨rfl, ht⟩
        · rw [ht]
          exact hl.jump a ha w j
        · rw [ht]
          exact hr.jump b hb w j
    · exact absurd h (by simp [Meaning.binary, Meaning.ofJump, he.1])
    · exact absurd h (by simp [Meaning.binary, Meaning.ofJump, he.2])

/-! ## Unary operators -/

theorem jumpUnary_eq (he : NotLiteral e) (op : UnaryOp) (h : operand.Agrees env)
    (hv : unaryValue op operand env = some v) (w j : Bool) :
    jumpUnary e op operand w j env = some (takes w j v.truth) := by
  have htruth : ∀ test : TruthTest, (operand.value env).map (fun v => Value.ofBool (test.holds v.truth)) = some v →
      operand.branch ((test.forTrue != test.negated) == w) (test.negated == w) env = some (takes w j v.truth) := by
    intro test htest
    obtain ⟨x, hx, rfl⟩ := Option.map_eq_some_iff.1 htest
    rw [h.branch x hx, Value.truth_ofBool, takes_holds]
  cases op with
  | not =>
    obtain ⟨x, hx, rfl⟩ := Option.map_eq_some_iff.1 hv
    simp only [jumpUnary, UnaryOp.truthTest?, h.branch x hx, Value.not, Value.truth_ofTruth, takes_not]
  | isNull =>
    obtain ⟨x, hx, rfl⟩ := Option.map_eq_some_iff.1 hv
    simp [jumpUnary, UnaryOp.truthTest?, hx, takes]
  | notNull =>
    obtain ⟨x, hx, rfl⟩ := Option.map_eq_some_iff.1 hv
    simp only [jumpUnary, UnaryOp.truthTest?, hx, takes, Option.map_some, Value.truth_ofBool, Option.elim_some]
    cases x.isNull <;> cases w <;> rfl
  | isTrue => exact htruth ⟨true, false⟩ hv
  | isNotTrue => exact htruth ⟨true, true⟩ hv
  | isFalse => exact htruth ⟨false, false⟩ hv
  | isNotFalse => exact htruth ⟨false, true⟩ hv
  | positive | negate | bitNot =>
    exact onTruth_eq hv (fun h => by simp [he.1] at h) (fun h => by simp [he.2] at h) w j

theorem Agrees.unary (he : NotLiteral e) (op : UnaryOp) (h : operand.Agrees env) : (unary e op operand).Agrees env :=
  .ofJump he fun _ hv => jumpUnary_eq he op h hv

/-! ## BETWEEN and IN -/

theorem Agrees.compared (hop : op.isComparison) : (compared op left right).Agrees env :=
  .comparison hop (notLiteral_binary _ op left.expr right.expr)

theorem Agrees.conjunction (values : List Value) : (conjunction operand low high values).Agrees env :=
  .binary (notLiteral_binary _ _ _ _) (.compared rfl) (.compared rfl)

theorem Agrees.between (he : NotLiteral e) : (between e operand low high).Agrees env := by
  refine .ofJump he fun v hv w j => ?_
  obtain ⟨values, hrow, hv⟩ := Option.bind_eq_some_iff.1 hv
  simp only [hrow, Option.bind_eq_bind, Option.bind_some]
  exact (Agrees.conjunction values).branch v hv w j

theorem Agrees.inList (he : NotLiteral e) (items : List Meaning) : (inList e operand items).Agrees env := by
  refine .ofJump he fun v hv w j => ?_
  obtain ⟨t, ht, rfl⟩ := Option.map_eq_some_iff.1 hv
  simp [ht]

end Meaning

/-! ## Expressions -/

theorem ofInt_toInt_eq_zero {v : Int32} (h : Int64.ofInt v.toInt = 0) : v = 0 := by
  have hsame : Int64.ofInt v.toInt = v.toInt64 := by simp
  rw [hsame] at h
  have hback : v.toInt64.toInt32 = (0 : Int64).toInt32 := by rw [h]
  simpa using hback

open Meaning in
theorem Expr.meaning_agrees (e : Expr) (env : Env) : e.meaning.Agrees env := by
  induction e using Expr.children_induction with
  | step info kind ih =>
    cases kind with
    | boolean b =>
      refine .ofValue ?_ ?_
      · rintro v hv h
        cases hv
        cases b
        · simp [isAlwaysTrue] at h
        · rfl
      · rintro v hv h
        cases hv
        cases b
        · rfl
        · simp [isAlwaysFalse] at h
    | integer literal =>
      cases literal with
      | inline n =>
        refine .ofValue ?_ ?_
        · rintro v hv h
          cases hv
          simp only [isAlwaysTrue, Expr.kind, Bool.and_eq_true, bne_iff_ne] at h
          have hne : Int64.ofInt n.toInt ≠ 0 := fun h0 => h.2 (ofInt_toInt_eq_zero h0)
          simp only [Value.truth, Option.some.injEq, bne_iff_ne]
          exact hne
        · rintro v hv h
          cases hv
          simp only [isAlwaysFalse, Expr.kind, Bool.and_eq_true, beq_iff_eq] at h
          rw [h.2]
          rfl
      | text t => exact .ofValue_of_notLiteral (by simp [NotLiteral, isAlwaysTrue, isAlwaysFalse]) _
    | unary op operand =>
      exact .unary (by simp [NotLiteral, isAlwaysTrue, isAlwaysFalse]) op (ih operand (by simp))
    | binary op left right =>
      exact .binary (notLiteral_binary _ _ _ _) (ih left (by simp)) (ih right (by simp))
    | between operand low high =>
      exact .between (by simp [NotLiteral, isAlwaysTrue, isAlwaysFalse])
    | inList id operand items =>
      exact .inList (by simp [NotLiteral, isAlwaysTrue, isAlwaysFalse]) _
    | vector items =>
      have hundefined : (Meaning.undefined (.node info (.vector items))).Agrees env :=
        .ofValue_of_notLiteral (by simp [NotLiteral, isAlwaysTrue, isAlwaysFalse]) _
      exact ⟨hundefined.jump, hundefined.branch, hundefined.alwaysTrue, hundefined.alwaysFalse⟩
    | _ => exact .ofValue_of_notLiteral (by simp [NotLiteral, isAlwaysTrue, isAlwaysFalse]) _

end ScalarSql
