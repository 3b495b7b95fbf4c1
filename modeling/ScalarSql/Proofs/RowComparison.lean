import ScalarSql.Proofs.Branching

/-!
# Row values compare lexicographically

The code of a comparison of row values compares the fields one pair after the other. It keeps the outcome
so far in a register and leaves as soon as it is decided, so the outcome of a pair depends on what was there
before it. What comes out is simple: the pairs count as a list of orders, one for each pair, where an order
is missing if the pair holds a NULL that is not compared.

* Two rows are equal unless a pair differs; if none differs, a missing order makes that unknown.
* Two rows are ordered as the first pair that is not equal, or as the last pair.

`Meaning.compareFields_eq_lexicographic` states this of the meaning of a comparison and
`Gen.rows_compared_lexicographically` of its code.
-/

namespace ScalarSql

open ScalarSql.Expr Meaning

variable {op : BinaryOp} {σ : Scope} {K : List (Int × Value)} {μ : Meaning} {e : Expr} {code : Coded} {base : Int}
  {items : List (Item Expr)}

open Compiler

/-! ## The order of rows -/

theorem Truth.and_assoc (s t u : Option Bool) : Truth.and (Truth.and s t) u = Truth.and s (Truth.and t u) := by
  rcases s with _ | (_ | _) <;> rcases t with _ | (_ | _) <;> rcases u with _ | (_ | _) <;> rfl

namespace BinaryOp

/-- Whether rows with the given orders of their fields are equal: not if some pair differs, and unknown if
none does but some pair has no order. -/
def rowsEqual (orders : List (Option Ordering)) : Option Bool :=
  if orders.any fun o => o.any (· != .eq) then some false
  else if orders.any Option.isNone then none
  else some true

/-- The outcome of an operator on rows with the given orders of their fields: that of the first pair that is
not equal, or of the last pair. -/
def ofFirstDifference (op : BinaryOp) : List (Option Ordering) → Option Bool
  | [] => none
  | [o] => o.map op.opcode.accepts
  | o :: rest => if o = some .eq then ofFirstDifference op rest else o.map op.opcode.accepts

/-- The outcome of a comparison of rows with the given orders of their fields. -/
def lexicographic (op : BinaryOp) (orders : List (Option Ordering)) : Option Bool :=
  match op with
  | .eq | .is => rowsEqual orders
  | .ne | .isNot => (rowsEqual orders).map (!·)
  | _ => op.ofFirstDifference orders

theorem rowsEqual_cons (o : Option Ordering) (rest : List (Option Ordering)) :
    rowsEqual (o :: rest) = Truth.and (o.map (· == .eq)) (rowsEqual rest) := by
  unfold rowsEqual
  by_cases hdiffers : (rest.any fun o => o.any (· != .eq))
  · rcases o with _ | (_ | _ | _) <;> simp [hdiffers, Truth.and]
  · by_cases hnull : rest.any Option.isNone
    · rcases o with _ | (_ | _ | _) <;> simp [hdiffers, hnull, Truth.and]
    · rcases o with _ | (_ | _ | _) <;> simp [hdiffers, hnull, Truth.and]

end BinaryOp

/-- The orders of the fields of two row values, each pair under its own affinity and collating sequence. -/
def Env.rowOrders (env : Env) (op : BinaryOp) (left right : Expr) (as bs : List Value) : List (Option Ordering) :=
  (as.zip bs).mapIdx fun i p =>
    env.order? (left.vectorField i) (right.vectorField i) op.comparesNull p.1 p.2

theorem BinaryOp.lexicographic_ne_none (h : op.comparesNull) (env : Env) (l r : Expr) (as bs : List Value) :
    op.lexicographic (env.rowOrders op l r as bs) ≠ none := by
  have hordered : none ∉ env.rowOrders op l r as bs := by
    intro hnone
    obtain ⟨i, hi, horder⟩ := List.mem_mapIdx.1 hnone
    simp only [h, Env.order?, CompareMode.order?, if_true] at horder
    split at horder <;> cases horder
  have hequal : rowsEqual (env.rowOrders op l r as bs) ≠ none := by
    unfold rowsEqual
    split
    · simp
    · rw [if_neg (by simpa using hordered)]
      simp
  cases op with
  | is => exact hequal
  | isNot => simpa [lexicographic] using hequal
  | _ => cases h

/-! ## The outcome so far -/

namespace Meaning

variable {env : Env} {as : List Value}

/-- What is in the register after the pairs with the given orders, where `before` is the outcome of the pairs
before them; for the first pair it is of no account. -/
def compareOrders (op : BinaryOp) : (first : Bool) → (before : Value) → List (Option Ordering) → Value
  | _, before, [] => before
  | first, before, order :: rest =>
    let keepNull := (strict op == .eq || strict op == .ne) && !first
    let outcome := (if rest = [] then op.opcode else strict op).stored keepNull order before
    if rest = [] || decides (strict op) order outcome then outcome else compareOrders op false outcome rest

theorem field_of_mapM (h : μ.fields.mapM (· env) = some as) {i : Nat} {a : Value} (ha : as[i]? = some a) :
    μ.field i env = some a := by
  have hlt : i < μ.fields.length := by
    rw [← length_of_mapM h]
    exact (List.getElem?_eq_some_iff.1 ha).1
  obtain ⟨y, hy, hget⟩ := getElem?_of_mapM h (List.getElem?_eq_getElem hlt)
  rw [field, List.getElem?_eq_getElem hlt, Option.bind_some, hy]
  exact hget.symm.trans ha

theorem compareFields_eq_compareOrders (op : BinaryOp) {ν : Meaning} {bs : List Value}
    (ha : μ.fields.mapM (· env) = some as) (hb : ν.fields.mapM (· env) = some bs) (hlen : as.length = bs.length)
    (n i : Nat) (hn : i + n = as.length) (before : Value) : compareFields op μ ν env n i before =
      some (compareOrders op (i == 0) before ((env.rowOrders op μ.expr ν.expr as bs).drop i)) := by
  have hsize : (env.rowOrders op μ.expr ν.expr as bs).length = as.length := by
    simp [Env.rowOrders, hlen]
  induction n generalizing i before with
  | zero =>
    rw [List.drop_of_length_le (by omega)]
    rfl
  | succ n ih =>
    have hi : i < (env.rowOrders op μ.expr ν.expr as bs).length := by omega
    have hleft := field_of_mapM ha (List.getElem?_eq_getElem (i := i) (by omega))
    have hright := field_of_mapM hb (List.getElem?_eq_getElem (i := i) (by omega))
    have horder : (env.rowOrders op μ.expr ν.expr as bs)[i] = env.order? (μ.expr.vectorField i)
        (ν.expr.vectorField i) op.comparesNull as[i] bs[i] := by
      simp [Env.rowOrders]
    have hrest : (env.rowOrders op μ.expr ν.expr as bs).drop (i + 1) = [] ↔ n = 0 := by
      rw [List.drop_eq_nil_iff]
      omega
    rw [List.drop_eq_getElem_cons hi, compareOrders, compareFields, hleft, hright, horder]
    have hbne : (i != 0) = !(i == 0) := rfl
    simp only [Option.bind_eq_bind, Option.bind_some, hrest, hbne]
    rw [apply_ite some, ih (i + 1) (by omega)]
    rfl

/-! ## Equality -/

variable {op : BinaryOp} {orders : List (Option Ordering)} {negated first : Bool} {before : Value} {t : Option Bool}

/-- The outcome of equality, or of its opposite. -/
def verdict (negated : Bool) (t : Option Bool) : Value := .ofTruth (t.map (· != negated))

/-- The outcome so far stands for whether the pairs so far are equal; there is none before the first pair. -/
def SoFar (negated first : Bool) (before : Value) (t : Option Bool) : Prop :=
  if first then t = some true else before = verdict negated t ∧ t ≠ some false

/-- A pair that is compared for equality, or for its opposite, adds to the outcome so far. -/
theorem stored_verdict (h : SoFar negated first before t) (o : Option Ordering) :
    (if negated then Opcode.ne else .eq).stored (!first) o before =
      verdict negated (Truth.and t (o.map (· == .eq))) := by
  cases first with
  | true =>
    obtain rfl : t = some true := h
    rcases o with _ | (_ | _ | _) <;> cases negated <;> rfl
  | false =>
    obtain ⟨rfl, hne⟩ : before = verdict negated t ∧ t ≠ some false := h
    rcases t with _ | (_ | _)
    · rcases o with _ | (_ | _ | _) <;> cases negated <;> rfl
    · exact absurd rfl hne
    · rcases o with _ | (_ | _ | _) <;> cases negated <;> rfl

/-- The comparison is decided as soon as a pair differs. -/
theorem decides_verdict (negated : Bool) (o : Option Ordering) (t : Option Bool) :
    decides (if negated then .ne else .eq) o (verdict negated t) = (t == some false) := by
  rcases t with _ | (_ | _) <;> cases negated <;> rfl

theorem compareOrders_equality (hop : op.opcode = if negated then .ne else .eq) (h : SoFar negated first before t)
    (hne : orders ≠ []) :
    compareOrders op first before orders = verdict negated (Truth.and t (BinaryOp.rowsEqual orders)) := by
  have hstrict : strict op = if negated then .ne else .eq := by
    rw [strict, hop]
    cases negated <;> rfl
  have hkeep : (strict op == .eq || strict op == .ne) := by
    rw [hstrict]
    cases negated <;> rfl
  induction orders generalizing first before t with
  | nil => exact absurd rfl hne
  | cons o rest ih =>
    have houtcome : (if rest = [] then op.opcode else strict op).stored (!first) o before =
        verdict negated (Truth.and t (o.map (· == .eq))) := by
      rw [hstrict, hop, ite_self, stored_verdict h]
    rw [compareOrders, hkeep, Bool.true_and, houtcome, BinaryOp.rowsEqual_cons, ← Truth.and_assoc]
    generalize Truth.and t (o.map (· == .eq)) = s
    by_cases hlast : rest = []
    · simp [hlast, BinaryOp.rowsEqual, Truth.and_true]
    · simp only [hlast, decide_false, Bool.false_or, hstrict, decides_verdict, beq_iff_eq]
      split
      · rename_i hfalse
        subst hfalse
        rfl
      · rename_i hopen
        exact ih ⟨rfl, hopen⟩ hlast

/-! ## Order -/

/-- Fields before the last one decide unless they are equal, and then as the operator does. -/
theorem stored_strict (hop : op.opcode ∈ [Opcode.lt, .le, .gt, .ge]) {o : Option Ordering} (hne : o ≠ some .eq)
    (before : Value) : (strict op).stored false o before = .ofTruth (o.map op.opcode.accepts) := by
  simp only [List.mem_cons, List.not_mem_nil, or_false] at hop
  rcases o with _ | (_ | _ | _)
  · rfl
  · rcases hop with h | h | h | h <;> rw [strict, h] <;> rfl
  · exact absurd rfl hne
  · rcases hop with h | h | h | h <;> rw [strict, h] <;> rfl

theorem compareOrders_order (hop : op.opcode ∈ [Opcode.lt, .le, .gt, .ge]) (first : Bool) (before : Value)
    (hne : orders ≠ []) : compareOrders op first before orders = .ofTruth (op.ofFirstDifference orders) := by
  have hstrict : strict op = .lt ∨ strict op = .gt := by
    simp only [List.mem_cons, List.not_mem_nil, or_false] at hop
    rcases hop with h | h | h | h <;> simp [strict, h]
  have hkeep : (strict op == .eq || strict op == .ne) = false := by
    rcases hstrict with h | h <;> simp [h]
  have hdecides (o : Option Ordering) (v : Value) : decides (strict op) o v = (o.getD .lt != .eq) := by
    rcases hstrict with h | h <;> rw [h] <;> rfl
  induction orders generalizing first before with
  | nil => exact absurd rfl hne
  | cons o rest ih =>
    rw [compareOrders, hkeep, Bool.false_and]
    cases rest with
    | nil =>
      cases o <;> rfl
    | cons next rest =>
      simp only [reduceCtorEq, if_false, decide_false, Bool.false_or, hdecides, BinaryOp.ofFirstDifference]
      by_cases heq : o = some .eq
      · subst heq
        exact ih _ _ (by simp)
      · have hdecided : (o.getD .lt != .eq) := by
          rcases o with _ | (_ | _ | _)
          · rfl
          · rfl
          · exact absurd rfl heq
          · rfl
        rw [if_pos hdecided, if_neg heq, stored_strict hop heq]

theorem compareOrders_eq_lexicographic (hop : op.isComparison) (hne : orders ≠ []) (before : Value) :
    compareOrders op true before orders = .ofTruth (op.lexicographic orders) := by
  have hequality (negated : Bool) (h : op.opcode = if negated then .ne else .eq) :
      compareOrders op true before orders = verdict negated (BinaryOp.rowsEqual orders) := by
    have hstart : SoFar negated true before (some true) := rfl
    rw [compareOrders_equality h hstart hne]
    rcases BinaryOp.rowsEqual orders with _ | (_ | _) <;> rfl
  have hverdict (t : Option Bool) : verdict false t = .ofTruth t ∧ verdict true t = .ofTruth (t.map (!·)) := by
    rcases t with _ | (_ | _) <;> exact ⟨rfl, rfl⟩
  cases op with
  | eq | is => exact (hequality false rfl).trans (hverdict _).1
  | ne | isNot => exact (hequality true rfl).trans (hverdict _).2
  | lt | le | gt | ge => exact compareOrders_order (by decide) true before hne
  | _ => cases hop

theorem compareFields_eq_lexicographic (hop : op.isComparison) {ν : Meaning} {env : Env} {as bs : List Value}
    (ha : μ.fields.mapM (· env) = some as) (hb : ν.fields.mapM (· env) = some bs) (hlen : as.length = bs.length)
    (hne : as ≠ []) : compareFields op μ ν env as.length 0 .null =
      some (.ofTruth (op.lexicographic (env.rowOrders op μ.expr ν.expr as bs))) := by
  rw [compareFields_eq_compareOrders op ha hb hlen as.length 0 (Nat.zero_add _), List.drop_zero, beq_self_eq_true,
    compareOrders_eq_lexicographic hop]
  have hbs : bs ≠ [] := by
    rintro rfl
    exact hne (List.length_eq_zero_iff.1 hlen)
  simp [Env.rowOrders, hne, hbs]

end Meaning

/-! ## The code -/

/-- The ways in which a row value can be an operand of a comparison, with the register from which its fields
are read. -/
inductive Coded.RowValue (σ : Scope) (K : List (Int × Value)) : Coded → Meaning → Int → Prop
  | vector {code : Coded} {μ : Meaning} (h : code.Realizes σ K μ) (hvector : code.expr.isVector = true) :
    RowValue σ K code μ 0
  /-- The fields were computed into registers before. -/
  | register {code : Coded} {e : Expr} {reg : Int} {values : List Value} (halike : code.expr.Alike e)
    (hlen : values.length = code.expr.vectorSize) (hheld : ∀ (i : Nat) v, values[i]? = some v → (reg + i, v) ∈ K) :
    RowValue σ K (code.held reg) (.held e values) 0
  /-- The fields are the columns of a sub-select that was run before. -/
  | subquery {code : Coded} {id : Identity} {select : Select} {base : Int} {values : List Value}
    (hkind : code.expr.kind = .subquery id select) (hlen : values.length = code.expr.vectorSize)
    (hheld : ∀ (i : Nat) v, values[i]? = some v → (base + i, v) ∈ K) :
    RowValue σ K code (.held code.expr values) base

theorem Coded.RowValue.fieldsFrom (h : RowValue σ K code μ base) : code.FieldsFrom σ K μ base := by
  cases h with
  | vector h hvector => exact h.computes.field hvector
  | register halike hlen hheld =>
    exact fieldsFrom_held ((alike_register _ _).trans halike) hlen hheld fun _ => rfl
  | subquery hkind hlen hheld =>
    refine fieldsFrom_held (.refl _) hlen hheld fun i => ?_
    rw [Gen.rowField, hkind]

theorem Coded.RowValue.fields_length (h : RowValue σ K code μ base) : μ.fields.length = code.expr.vectorSize := by
  cases h with
  | vector h hvector =>
    obtain ⟨info, items, he, hfields⟩ := h.vector hvector
    rw [← h.fields.length_eq, he, vectorSize]
    simpa using congrArg List.length hfields
  | register _ hlen | subquery _ hlen => exact (List.length_map _).trans hlen

/-- The code that compares all fields of two row values leaves the lexicographic outcome in its register,
wherever it runs: `done` stands behind it. -/
def ComparesRows (σ : Scope) (K : List (Int × Value)) (op : BinaryOp) (left right : Coded) (μ ν : Meaning)
    (leftBase rightBase reg : Int) (done : Label) : Prop :=
  ∀ ⦃c c'⦄, (Gen.storeFields op.opcode (strict op) (rowMode op) left right leftBase rightBase reg
      done left.expr.vectorSize 0).Makes c () c' → c.Good σ → c.Open reg → done.index < c.builder.labels.size →
    Gen.Unused (fieldIds left.expr right.expr 0) c → ∀ w : World σ, w.Avoids K reg →
      (w.addr done.index).toNat = c'.size → ∀ as bs, μ.fields.mapM (· w.env) = some as →
      ν.fields.mapM (· w.env) = some bs →
      Yields w K (· = reg) c c'
        (fun env => some (.ofTruth (op.lexicographic (env.rowOrders op μ.expr ν.expr as bs)))) reg

theorem Coded.RowValue.compares {left right : Coded} {ν : Meaning} {leftBase rightBase : Int}
    (hop : op.isComparison) (hl : left.RowValue σ K μ leftBase) (hr : right.RowValue σ K ν rightBase)
    (hsize : left.expr.vectorSize = right.expr.vectorSize) (hwidth : 2 ≤ left.expr.vectorSize) (reg : Int)
    (done : Label) : ComparesRows σ K op left right μ ν leftBase rightBase reg done := by
  intro c c' hmakes hc hreg hdone hids w havoid hplace as bs ha hb m ready
  obtain ⟨-, hrun⟩ := storesFields hop hl.fieldsFrom hr.fieldsFrom left.expr.vectorSize 0 (by omega) (by omega) hmakes
    hc hreg hdone hids
  -- nothing is known of the register before the first pair
  have ready1 := ready.hold hreg.taken havoid.lent
  refine (hrun w _ havoid hplace m ready1).congr ?_
  have hla : as.length = left.expr.vectorSize := (length_of_mapM ha).trans hl.fields_length
  have hlb : bs.length = right.expr.vectorSize := (length_of_mapM hb).trans hr.fields_length
  have hne : as ≠ [] := by
    rintro rfl
    rw [List.length_nil] at hla
    omega
  rw [compareFields_zero op μ ν w.env (by omega), ← hla]
  exact (compareFields_eq_lexicographic hop ha hb (by omega) hne).symm

def itemValues (env : Env) (items : List (Item Expr)) : Option (List Value) :=
  items.mapM fun item => item.expr.meaning.value env

theorem Expr.fields_of_vector (h : e.kind = .vector items) (env : Env) :
    e.meaning.fields.mapM (· env) = itemValues env items := by
  obtain ⟨info, kind⟩ := e
  subst h
  have hfields : (node info (.vector items)).meaning.fields = (itemsMeaning items).map (·.value) := rfl
  rw [hfields, itemsMeaning_eq_map, List.map_map, List.mapM_map]
  rfl

theorem Expr.vectorSize_of_vector (h : e.kind = .vector items) : e.vectorSize = items.length := by
  obtain ⟨info, kind⟩ := e
  subst h
  rfl

theorem Expr.value_of_comparison {l r : Expr} (h : e.kind = .binary op l r) (hop : op.isComparison)
    (hvector : l.isVector) (env : Env) :
    e.meaning.value env = compareFields op l.meaning r.meaning env l.vectorSize 0 .null := by
  obtain ⟨info, kind⟩ := e
  subst h
  show binaryValue op l.meaning r.meaning env = _
  simp [binaryValue, hop, hvector]

/-- Row values compare lexicographically. The code that compares their fields leaves the outcome in its register,
whether the fields are given by expressions, were computed before or are those of a sub-select that was run. A scan
delivers it for each row on which all fields have values. IS and IS NOT are never unknown. Row values of different
widths are refused. -/
theorem Gen.rows_compared_lexicographically {op : BinaryOp} (hop : op.isComparison = true) :
    (∀ {σ : Scope} {K : List (Int × Value)} {left right : Coded} {μ ν : Meaning} {leftBase rightBase : Int},
      left.RowValue σ K μ leftBase → right.RowValue σ K ν rightBase →
      left.expr.vectorSize = right.expr.vectorSize → 2 ≤ left.expr.vectorSize → ∀ reg done,
      ComparesRows σ K op left right μ ν leftBase rightBase reg done) ∧
    (∀ {catalog : Catalog} {config : Config} {params : List Value} {outer : List (Int × Cursor)} {store : Store}
      {setting : Gen.Setting} {t : Table} {cursor : Int} {e l r : Expr} {ls rs : List (Item Expr)} {p : Program}
      {c' : Compiler} {k : Nat} {m : Machine}, e.kind = .binary op l r → l.kind = .vector ls → r.kind = .vector rs →
      ls.length = rs.length → 2 ≤ ls.length → catalog.collations.Tame →
      e.Scalar catalog.functions (setting.Reserves cursor) → e.identities.Nodup →
      (Gen.forEachRow setting t cursor 1 e.coded.exact).Makes (.new catalog config) p c' → p.CopiesWhole →
      p.ops.size < 2147483648 → (∀ q ∈ outer, q.2.isStored = true) →
      Machine.runFrom p.ops k 0 (.startUnder p catalog store params outer) = (.ok (), m) →
      m.rows.size = (store.rows t.id).length ∧
        ∀ (i : Nat) row as bs, (store.rows t.id)[i]? = some row →
          itemValues ((Env.under setting catalog config params outer).at cursor row) ls = some as →
          itemValues ((Env.under setting catalog config params outer).at cursor row) rs = some bs →
          m.rows[i]? = some [.ofTruth (op.lexicographic
            (((Env.under setting catalog config params outer).at cursor row).rowOrders op l r as bs))]) ∧
    (op.comparesNull = true → ∀ env l r as bs, op.lexicographic (Env.rowOrders env op l r as bs) ≠ none) ∧
    ∀ (left right : Coded) (reg : Int) (c : Compiler), left.expr.vectorSize ≠ right.expr.vectorSize →
      (Gen.storeRows op left right reg).run c = (.error .rowValueMisused, c) := by
  refine ⟨fun hl hr => hl.compares hop hr, ?_, BinaryOp.lexicographic_ne_none, fun left right reg c hne => ?_⟩
  · intro catalog config params outer store setting t cursor e l r ls rs p c' k m he hl hr hlen hwidth htame hscalar
      hdistinct hmakes hwhole hsize houter hrun
    obtain ⟨vss, hvss, hrows⟩ := Gen.forEachRow_values htame hscalar hdistinct hmakes hwhole hsize houter hrun
    refine ⟨by rw [hrows]; exact length_of_mapM hvss, fun i row as bs hrow ha hb => ?_⟩
    obtain ⟨vs, hvs, hget⟩ := getElem?_of_mapM hvss hrow
    have hla : as.length = ls.length := length_of_mapM ha
    have hlb : bs.length = rs.length := length_of_mapM hb
    have hwidthl : l.vectorSize = as.length := by rw [Expr.vectorSize_of_vector hl, hla]
    have hvector : l.isVector = true := by
      simp only [Expr.isVector, decide_eq_true_eq]
      omega
    rw [rowValues_single, Expr.value_of_comparison he hop hvector, hwidthl,
      Meaning.compareFields_eq_lexicographic hop ((Expr.fields_of_vector hl _).trans ha)
        ((Expr.fields_of_vector hr _).trans hb) (by omega) (List.ne_nil_of_length_pos (by omega)),
      Expr.meaning_expr, Expr.meaning_expr] at hvs
    cases hvs
    simpa [hrows] using hget
  · rw [Gen.storeRows, if_pos hne]
    rfl

namespace Example

def twice : Expr := .ofKind (.vector [⟨column, false, 0⟩, ⟨column, false, 0⟩])

def twoAndNull : Expr := .ofKind (.vector [⟨literal 2, false, 0⟩, ⟨.ofKind .null, false, 0⟩])

def atMostTwo : Expr := .ofKind (.binary .le twice twoAndNull)

theorem atMostTwo_scalar : atMostTwo.Scalar Catalog.empty.functions (Gen.Setting.Reserves {} 0) := by
  simp [atMostTwo, twice, twoAndNull, scalar_ofKind, ScalarNode, column, literal, Gen.Setting.Reserves]

end Example

open Example in
/-- The first pair decides for the rows 1 and NULL, and the second one, with its NULL, for the row 2. -/
theorem Gen.rows_compared_lexicographically_le :
    ∃ p c m, (Gen.forEachRow {} table 0 1 atMostTwo.coded.exact).Makes (.new .empty {}) p c ∧
      p.run .empty store [] = (.ok (), m) ∧
      m.rows[0]? = some [.ofTruth (BinaryOp.le.lexicographic [some .lt, none])] ∧
      m.rows[1]? = some [.ofTruth (BinaryOp.le.lexicographic [some .eq, none])] ∧
      m.rows[2]? = some [.ofTruth (BinaryOp.le.lexicographic [none, none])] := by
  obtain ⟨p, c, m, h, hrun, -⟩ := Gen.of_delivered?
    (show (Gen.forEachRow {} table 0 1 atMostTwo.coded.exact).delivered? .empty {} store [] =
      some #[[.integer 1], [.null], [.null]] by decide +kernel)
  obtain ⟨-, hrows⟩ := (Gen.rows_compared_lexicographically (show BinaryOp.le.isComparison = true from rfl)).2.1 rfl
    (show twice.kind = .vector _ from rfl) (show twoAndNull.kind = .vector _ from rfl) rfl (by decide)
    (Collations.tame_of_no_factory rfl) atMostTwo_scalar (by decide) h
    (Gen.copiesWhole_of_makes h (by decide +kernel)) (Gen.size_lt_of_makes h (by decide +kernel))
    (List.forall_mem_nil _) hrun
  refine ⟨p, c, m, h, hrun, ?_, ?_, ?_⟩
  · exact hrows 0 ⟨1, [.integer 1]⟩ [.integer 1, .integer 1] [.integer 2, .null] rfl rfl rfl
  · exact hrows 1 ⟨2, [.integer 2]⟩ [.integer 2, .integer 2] [.integer 2, .null] rfl rfl rfl
  · exact hrows 2 ⟨3, [.null]⟩ [.null, .null] [.integer 2, .null] rfl rfl rfl

namespace Example

def pairs : Table where
  id := 1
  name := "t"
  columns := [{ name := "a", declaredType := some "INT" }, { name := "b", declaredType := some "INT" }]
  rowidAlias := none
  indexes := []

def pairStore : Store := ⟨[(1, [⟨1, [.integer 1, .integer 5]⟩, ⟨2, [.integer 5, .integer 1]⟩])]⟩

def twoTexts : Expr :=
  .ofKind (.subquery 0 (.mk { id := 1, columns :=
    [⟨.ofKind (.string "5"), false, 0⟩, ⟨.ofKind (.string "1"), false, 0⟩] }))

def allPairs : Select :=
  .mk { id := 2
        columns := [⟨.ofKind (.column ⟨0, 0, some pairs, none⟩), false, 0⟩,
          ⟨.ofKind (.column ⟨0, 1, some pairs, none⟩), false, 0⟩]
        sources := [⟨pairs, 0, none⟩] }

/-- The row value ('5', S IN (SELECT a, b FROM t)) with the sub-select S above. -/
def textAndTest : Expr :=
  .ofKind (.vector [⟨.ofKind (.string "5"), false, 0⟩, ⟨.ofKind (.inSelect 3 twoTexts allPairs), false, 0⟩])

end Example

open Example in
/-- The fields of a sub-select can be changed after they were computed: IN converts them in their registers. So
('5', '1') = ('5', 1) comes out true here, although the second pair differs. -/
theorem Gen.rows_not_compared_lexicographically_converted :
    (Gen.evaluation { cursors := some 1 } [.ofKind (.binary .eq twoTexts textAndTest)]).delivered?
        .empty {} pairStore [] =
      some #[[.integer 1]] ∧
    (Gen.evaluation { cursors := some 1 } [.ofKind (.inSelect 3 twoTexts allPairs)]).delivered? .empty {} pairStore [] =
      some #[[.integer 1]] ∧
    BinaryOp.eq.lexicographic ((Env.under {} .empty {} [] []).rowOrders .eq twoTexts textAndTest
      [.text "5", .text "1"] [.text "5", .integer 1]) = some false := by
  decide +kernel

end ScalarSql
