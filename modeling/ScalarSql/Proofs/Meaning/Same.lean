import ScalarSql.Proofs.Expr.Alike
import ScalarSql.Proofs.Meaning.Agreement

/-!
# Meanings that are the same

Two meanings are the same in two environments if their values and branches are, and if they are compared
alike. Each way to build a meaning from parts gives the same meaning for the same parts, in environments
that agree in all but the rows.
-/

namespace ScalarSql

open ScalarSql.Expr Text

/-- The environments agree in all but the rows, and do not tell upper from lower case in names of collating
sequences. -/
structure Env.Agrees (env env' : Env) : Prop where
  functions : env.functions = env'.functions
  /-- Names that differ only in case have the same collating sequence. -/
  collation : ∀ a b, sameName a b = true → env.collation a = env'.collation b
  chained : env.chained = env'.chained
  params : env.params = env'.params

theorem Env.Agrees.param {env env' : Env} (h : env.Agrees env') (index : Int) : env.param index = env'.param index := by
  rw [Env.param, Env.param, h.params]

/-- The environment does not tell upper from lower case in names of collating sequences. -/
abbrev Env.CaseBlind (env : Env) : Prop := env.Agrees env

/-- The expressions are both or neither a literal that is true, and so for false. -/
structure Expr.SameLiteral (e x : Expr) : Prop where
  alwaysTrue : e.isAlwaysTrue = x.isAlwaysTrue
  alwaysFalse : e.isAlwaysFalse = x.isAlwaysFalse

namespace Meaning

/-- The first meaning in one environment is the same as the second one in the other. -/
structure Same (env env' : Env) (μ ν : Meaning) : Prop where
  alike : μ.expr.Alike ν.expr
  literal : μ.expr.SameLiteral ν.expr
  value : μ.value env = ν.value env'
  fields : μ.fields.map (· env) = ν.fields.map (· env')
  jump : ∀ w j, μ.jump w j env = ν.jump w j env'
  branch : ∀ w j, μ.branch w j env = ν.branch w j env'

variable {env env' : Env} {e e' : Expr} {μ ν left left' right right' low low' high high' : Meaning}
  {value value' : Reading} {args args' items items' : List Meaning} {o o' : Option Meaning}
  {arms arms' : List (Meaning × Meaning)} {x y : Expr}

theorem order?_congr (henv : env.Agrees env') {l l' r r' : Expr} (hl : l.TypedAlike l') (hr : r.TypedAlike r')
    (nullEq : Bool) (a b : Value) : env.order? l r nullEq a b = env'.order? l' r' nullEq a b := by
  unfold Env.order?
  rw [hl.compareAffinity hr, (hl.compareCollationName? hr).bind_eq henv.collation]

theorem Same.field (h : Same env env' μ ν) (i : Nat) : μ.field i env = ν.field i env' := by
  have hget := congrArg (fun vs => vs[i]?) h.fields
  unfold Meaning.field
  cases hμ : μ.fields[i]? <;> cases hν : ν.fields[i]? <;> simp_all

theorem Same.row (h : Same env env' μ ν) : μ.row env = ν.row env' := by
  have hmapM (fs : List Reading) (env : Env) : fs.mapM (· env) = (fs.map (· env)).mapM id := by
    rw [List.mapM_map]
    rfl
  unfold Meaning.row
  rw [h.alike.size, h.value, hmapM, hmapM, h.fields]

theorem onTruth_congr (he : e.SameLiteral e') (hv : value env = value' env') (w j : Bool) :
    onTruth e value w j env = onTruth e' value' w j env' := by
  unfold onTruth
  rw [he.alwaysTrue, he.alwaysFalse, hv]

/-! ## Binary operators -/

section

variable (henv : env.Agrees env') (op : BinaryOp) (hl : Same env env' left left') (hr : Same env env' right right')

include henv op hl hr

theorem compareFields_congr (n i : Nat) (before : Value) :
    compareFields op left right env n i before = compareFields op left' right' env' n i before := by
  induction n generalizing i before with
  | zero => rfl
  | succ n ih =>
    simp only [compareFields, hl.field, hr.field]
    refine Option.bind_congr fun a _ => Option.bind_congr fun b _ => ?_
    rw [order?_congr henv (hl.alike.field i) (hr.alike.field i)]
    simp only [ih]

theorem binaryValue_congr : binaryValue op left right env = binaryValue op left' right' env' := by
  unfold binaryValue
  rw [hl.value, hr.value, hl.alike.isVector, hr.alike.isVector, hl.alike.size, compareFields_congr henv op hl hr]
  simp only [Env.compare, order?_congr henv hl.alike.toTypedAlike hr.alike.toTypedAlike]

end

section

variable (henv : env.Agrees env') (he : e.SameLiteral e') (op : BinaryOp) (hl : Same env env' left left')

include henv he op hl

theorem jumpBinary_congr (hr : Same env env' right right') (w j : Bool) :
    jumpBinary e op left right w j env = jumpBinary e' op left' right' w j env' := by
  have htruth := onTruth_congr he (binaryValue_congr henv op hl hr) w j
  have hcompare : jumpComparison op left right w j env = jumpComparison op left' right' w j env' := by
    unfold jumpComparison
    rw [hl.value, hr.value]
    simp only [Env.compare, order?_congr henv hl.alike.toTypedAlike hr.alike.toTypedAlike]
  have hand : jumpAnd left right w j env = jumpAnd left' right' w j env' := by
    simp only [jumpAnd, hl.branch, hr.branch]
  have hor : jumpOr left right w j env = jumpOr left' right' w j env' := by
    simp only [jumpOr, hl.branch, hr.branch]
  unfold jumpBinary
  rw [hl.alike.isVector, hr.alike.isVector]
  split
  · exact hand
  · exact hor
  · split
    · exact hcompare
    · exact htruth

/-- AND and OR with a literal come down to the same operand. -/
theorem branchBinary_congr (hr : Same env env' right right') (w j : Bool) :
    (binary e op left right).branch w j env = (binary e' op left' right').branch w j env' := by
  have hjump := jumpBinary_congr henv he op hl hr w j
  simp only [binary, reduced?, hl.literal.alwaysTrue, hl.literal.alwaysFalse, hr.literal.alwaysTrue,
    hr.literal.alwaysFalse]
  generalize (left'.expr.isAlwaysTrue || right'.expr.isAlwaysFalse) = keepsSecond
  generalize (right'.expr.isAlwaysTrue || left'.expr.isAlwaysFalse) = keepsFirst
  have hright := hr.jump w j
  have hleft := hl.jump w j
  cases op <;> cases keepsSecond <;> cases keepsFirst <;> assumption

end

/-! ## Nodes -/

section

variable (ha : e.Alike e') (hlit : e.SameLiteral e') (hv : value env = value' env')

include ha hlit hv

theorem Same.ofJump {jump jump' : Bool → Bool → Env → Option Bool} (hj : ∀ w j, jump w j env = jump' w j env') :
    Same env env' (ofJump e value jump) (ofJump e' value' jump') where
  alike := ha
  literal := hlit
  value := hv
  fields := rfl
  jump := hj
  branch := hj

theorem Same.ofValue : Same env env' (ofValue e value) (ofValue e' value') :=
  .ofJump ha hlit hv (onTruth_congr hlit hv)

end

theorem Same.binary (henv : env.Agrees env') (ha : e.Alike e') (hlit : e.SameLiteral e')
    (op : BinaryOp) (hl : Same env env' left left') (hr : Same env env' right right') :
    Same env env' (binary e op left right) (binary e' op left' right') where
  alike := ha
  literal := hlit
  value := binaryValue_congr henv op hl hr
  fields := rfl
  jump := jumpBinary_congr henv hlit op hl hr
  branch := branchBinary_congr henv hlit op hl hr

theorem Same.compared (henv : env.Agrees env') (op : BinaryOp) (hl : Same env env' left left')
    (hr : Same env env' right right') : Same env env' (compared op left right) (compared op left' right') := by
  refine .binary henv (alike_binary ?_ hl.alike hr.alike) ⟨?_, ?_⟩ op hl hr
  · rw [collate_infoOf, collate_infoOf]
    simp [Kind.ownFlags, hl.alike.collate, hr.alike.collate]
  · simp [isAlwaysTrue]
  · simp [isAlwaysFalse]

/-! ## BETWEEN and CASE -/

theorem Same.held (ha : e.Alike e') (hlit : e.SameLiteral e') (values : List Value) :
    Same env env' (held e values) (held e' values) := by
  have hsame : Same env env' (.ofValue e fun _ => values.head?) (.ofValue e' fun _ => values.head?) :=
    .ofValue ha hlit rfl
  refine ⟨ha, hlit, rfl, ?_, hsame.jump, hsame.branch⟩
  simp only [Meaning.held, List.map_map, Function.comp_def]

section

variable (henv : env.Agrees env')

include henv

theorem Same.conjunction (ho : Same env env' μ ν) (hl : Same env env' low low') (hh : Same env env' high high')
    (values : List Value) : Same env env' (conjunction μ low high values) (conjunction ν low' high' values) :=
  have hheld := Same.held ho.alike ho.literal values
  .compared henv _ (.compared henv _ hheld hl) (.compared henv _ hheld hh)

theorem Same.between (ha : e.Alike e') (hlit : e.SameLiteral e') (ho : Same env env' μ ν) (hl : Same env env' low low')
    (hh : Same env env' high high') : Same env env' (between e μ low high) (between e' ν low' high') := by
  refine .ofJump ha hlit ?_ fun w j => ?_
  · simp only [ho.row, (Same.conjunction henv ho hl hh _).value]
  · simp only [ho.row, (Same.conjunction henv ho hl hh _).branch]

/-- The subjects of two CASE expressions are the same values of alike expressions. -/
def SameSubject : Option (Expr × List Value) → Option (Expr × List Value) → Prop :=
  Option.Rel fun s t => s.1.Alike t.1 ∧ s.1.SameLiteral t.1 ∧ s.2 = t.2

theorem caseArms_congr {s t : Option (Expr × List Value)} (hs : SameSubject s t) (ho : Option.Rel (Same env env') o o')
    (h : List.Forall₂ (fun a b => Same env env' a.1 b.1 ∧ Same env env' a.2 b.2) arms arms') :
    caseArms s o env arms = caseArms t o' env' arms' := by
  induction h with
  | nil =>
    cases ho with
    | none => rfl
    | some ho => exact ho.value
  | @cons a b rest rest' hab _ ih =>
    have htest : (armTest s a.1).branch false true env = (armTest t b.1).branch false true env' := by
      cases hs with
      | none => exact hab.1.branch _ _
      | @some s t hst =>
        obtain ⟨x, values⟩ := s
        obtain ⟨y, values'⟩ := t
        obtain ⟨ha, hlit, rfl⟩ := hst
        exact (Same.compared henv _ (.held ha hlit values) hab.1).branch _ _
    rw [caseArms, caseArms, htest, ih, hab.2.value]

theorem Same.caseOf (ha : e.Alike e') (hlit : e.SameLiteral e') {base base' : Option Meaning}
    (hb : Option.Rel (Same env env') base base') (ho : Option.Rel (Same env env') o o')
    (h : List.Forall₂ (fun a b => Same env env' a.1 b.1 ∧ Same env env' a.2 b.2) arms arms') :
    Same env env' (caseOf e base arms o) (caseOf e' base' arms' o') := by
  refine .ofValue ha hlit ?_
  cases hb with
  | none => exact caseArms_congr henv .none ho h
  | @some b b' hb =>
    simp only [hb.row]
    refine Option.bind_congr fun values _ => ?_
    have hs : SameSubject (some (b.expr, values)) (some (b'.expr, values)) := .some ⟨hb.alike, hb.literal, rfl⟩
    exact caseArms_congr henv hs ho h

end

/-! ## Unary operators -/

theorem unaryValue_congr (op : UnaryOp) (h : Same env env' μ ν) (hneg : μ.negatedValue env = ν.negatedValue env') :
    unaryValue op μ env = unaryValue op ν env' := by
  cases op <;> simp only [unaryValue, hneg, h.value]

theorem Same.unary (ha : e.Alike e') (hlit : e.SameLiteral e') (op : UnaryOp) (h : Same env env' μ ν)
    (hneg : μ.negatedValue env = ν.negatedValue env') : Same env env' (unary e op μ) (unary e' op ν) := by
  have hv := unaryValue_congr op h hneg
  refine .ofJump ha hlit hv fun w j => ?_
  have htruth := onTruth_congr hlit hv w j
  cases op <;> simp only [jumpUnary, UnaryOp.truthTest?, h.branch, h.value] <;> exact htruth

/-! ## Calls -/

theorem Functions.find?_congr (fs : Functions) {a b : String} (h : sameName a b)
    (n : Nat) : fs.find? a n = fs.find? b n := by
  have hnamed : fs.named a = fs.named b := by
    refine List.filter_congr fun f _ => ?_
    simp only [sameName, beq_iff_eq] at h ⊢
    rw [h]
  unfold Functions.find?
  rw [hnamed]

theorem firstNotNull_cons (env : Env) (μ ν : Meaning) (rest : List Meaning) : firstNotNull env (μ :: ν :: rest) =
      (μ.value env).bind fun v => if v.isNull then firstNotNull env (ν :: rest) else some v :=
  rfl

theorem firstNotNull_congr (h : List.Forall₂ (Same env env') args args') :
    firstNotNull env args = firstNotNull env' args' := by
  induction h with
  | nil => rfl
  | @cons a b rest rest' hab hrest ih =>
    cases hrest with
    | nil => exact hab.value
    | cons h1 h2 => rw [firstNotNull_cons, firstNotNull_cons, hab.value, ih]

theorem mapM_value_congr (h : List.Forall₂ (Same env env') args args') :
    args.mapM (·.value env) = args'.mapM (·.value env') := by
  induction h with
  | nil => rfl
  | cons hab _ ih => rw [List.mapM_cons, List.mapM_cons, hab.value, ih]

section

variable (henv : env.Agrees env')

include henv

theorem callCollation_congr (h : List.Forall₂ (Same env env') args args') :
    env.callCollation (args.map (·.expr)) = env'.callCollation (args'.map (·.expr)) := by
  have hfirst : SameName? ((args.map (·.expr)).findSome? (·.collationName?))
      ((args'.map (·.expr)).findSome? (·.collationName?)) := by
    induction h with
    | nil => exact .none
    | @cons a b rest rest' hab _ ih =>
      have hname := hab.alike.collation
      simp only [List.map_cons, List.findSome?_cons]
      generalize a.expr.collationName? = x at hname ⊢
      generalize b.expr.collationName? = y at hname ⊢
      cases hname with
      | none => exact ih
      | some hxy => exact .some hxy
  unfold Env.callCollation
  generalize (args.map (·.expr)).findSome? (·.collationName?) = x at hfirst ⊢
  generalize (args'.map (·.expr)).findSome? (·.collationName?) = y at hfirst ⊢
  cases hfirst with
  | none => exact henv.collation _ _ (by decide)
  | some hxy => exact henv.collation _ _ hxy

theorem callValue_congr {name name' : String} (hname : sameName name name')
    (h : List.Forall₂ (Same env env') args args') : callValue name args env = callValue name' args' env' := by
  unfold callValue
  rw [henv.functions, Functions.find?_congr _ hname, h.length_eq, firstNotNull_congr h, mapM_value_congr h]
  refine Option.bind_congr fun f _ => ?_
  have hcall (values : List Value) : env.call f (args.map (·.expr)) values =
      env'.call f (args'.map (·.expr)) values := by
    simp only [Env.call, callCollation_congr henv h]
  split
  · rfl
  · cases h with
    | nil =>
      cases f.flags.unlikely <;> simp only [hcall]
    | cons hab hrest =>
      cases f.flags.unlikely with
      | true => exact hab.value
      | false => simp only [hcall]

/-! ## IN -/

theorem chainOutcome_congr (hx : x.TypedAlike y) (v : Value) (unknown : Bool)
    (h : List.Forall₂ (Same env env') items items') :
    chainOutcome x v env unknown items = chainOutcome y v env' unknown items' := by
  induction h generalizing unknown with
  | nil => rfl
  | cons hab _ ih =>
    simp only [chainOutcome, hab.value, hx.affinity, hx.collation.bind_eq henv.collation, hab.alike.canBeNull, ih]

theorem lookupOutcome_congr (hx : x.TypedAlike y) (notNull : Bool) (v : Value)
    (keys : List Value) : lookupOutcome x notNull v keys env = lookupOutcome y notNull v keys env' := by
  have hcollation : env.collation (x.collationName?.getD "BINARY") =
      env'.collation (y.collationName?.getD "BINARY") := by
    have hname := hx.collation
    generalize x.collationName? = a at hname ⊢
    generalize y.collationName? = b at hname ⊢
    cases hname with
    | none => exact henv.collation _ _ (by decide)
    | some hab => exact henv.collation _ _ hab
  unfold lookupOutcome
  rw [hx.affinity, hx.canBeNull, hcollation]

end

theorem notNull_congr (h : List.Forall₂ (Same env env') items items') :
    (items.all fun μ => !μ.expr.canBeNull) = items'.all fun μ => !μ.expr.canBeNull := by
  induction h with
  | nil => rfl
  | cons hab _ ih => rw [List.all_cons, List.all_cons, hab.alike.canBeNull, ih]

theorem Same.inList (henv : env.Agrees env') (ha : e.Alike e') (hlit : e.SameLiteral e') (ho : Same env env' μ ν)
    (h : List.Forall₂ (Same env env') items items')
    (hconst : items.all (·.expr.isConstant .plain) = items'.all (·.expr.isConstant .plain)) :
    Same env env' (inList e μ items) (inList e' ν items') := by
  have hempty : items.isEmpty = items'.isEmpty := by cases h <;> rfl
  have houtcome : listOutcome μ items env = listOutcome ν items' env' := by
    unfold listOutcome looksUp
    rw [hempty, hconst, henv.chained, h.length_eq, mapM_value_congr h, ho.value, notNull_congr h]
    simp only [lookupOutcome_congr henv ho.alike.toTypedAlike, chainOutcome_congr henv ho.alike.toTypedAlike _ _ h]
  exact .ofJump ha hlit (by rw [houtcome]) fun w j => by rw [houtcome]

end Meaning

end ScalarSql
