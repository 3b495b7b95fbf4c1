import ScalarSql.Proofs.Jumps
import ScalarSql.Proofs.ListItems

/-!
# Constants that are set aside

A constant part of an expression may be computed once, before the first row, instead of where it stands.
A scan of values and branches can then fail only where a row has none, or where a constant that was set
aside has no value (`Gen.outcomeRow_leads`). So if a scan without constants set aside ends without an error,
the one with constants set aside does too and delivers the same rows, as long as every constant part has a
value (`Gen.factored_scan_runs`).

That condition is needed: a constant is set aside even where it stands in an arm of CASE that is never
taken, and if it fails then so does the statement (`Gen.factored_arm_fails`).
-/

namespace ScalarSql

open Catalog Compiler ScalarSql.Expr Gen Machine

/-! ## Rows of outcomes -/

/-- What is delivered of an expression. -/
inductive Outcome
  | value (e : Expr)
  /-- Whether a branch on it is taken. -/
  | branch (e : Expr) (wanted jumpIfNull : Bool)

namespace Outcome

def expr : Outcome → Expr
  | value e => e
  | branch e _ _ => e

def load : Outcome → (reg : Int) → Gen Unit
  | value e => e.coded.exact
  | branch e wanted jumpIfNull => branchOutcome e.coded wanted jumpIfNull

def meaning : Outcome → Env → Option Value
  | value e => e.meaning.value
  | branch e wanted jumpIfNull => fun env => (e.meaning.branch wanted jumpIfNull env).map .ofBool

end Outcome

def Gen.outcomeRow : List Outcome → (reg : Int) → Gen Unit
  | [], _ => return ()
  | o :: rest, reg => do
    o.load reg
    outcomeRow rest (reg + 1)

section

variable {σ : Scope} {K : Known} {P : Prop} {hoisting : Bool}

theorem Outcome.loads {o : Outcome} (h : o.expr.Plain σ) : Loads σ K o.expr.identities o.load o.meaning := by
  have hrealizes := h.realizes K
  rw [← o.expr.coded_expr]
  cases o with
  | value e => exact hrealizes.value.exact
  | branch e wanted jumpIfNull => exact .branchOutcome (hrealizes.branch wanted jumpIfNull)

theorem FillsRow.outcomes {os : List Outcome} (hos : ∀ o ∈ os, o.expr.Plain σ) (reg : Int) :
    FillsRow σ K (os.flatMap (·.expr.identities)) P hoisting (outcomeRow os reg) reg (os.map Outcome.meaning) := by
  induction os generalizing K reg with
  | nil => exact .nil
  | cons o os ih =>
    obtain ⟨ho, hos⟩ := List.forall_mem_cons.1 hos
    exact .cons (.load (Outcome.loads ho)) fun _ => ih hos (reg + 1)

end

theorem exists_of_mapM_eq_none {α β : Type} {f : α → Option β} {l : List α} (h : l.mapM f = none) :
    ∃ a ∈ l, f a = none := by
  induction l with
  | nil => cases h
  | cons a l ih =>
    cases ha : f a with
    | none => exact ⟨a, List.mem_cons_self, ha⟩
    | some b =>
      cases hl : l.mapM f with
      | none =>
        obtain ⟨x, hx, hnone⟩ := ih hl
        exact ⟨x, List.mem_cons_of_mem a hx, hnone⟩
      | some bs =>
        rw [List.mapM_cons, ha, hl] at h
        cases h

/-! ## Parts of expressions -/

namespace Expr

theorem every_part (e : Expr) : e.Every (·.Part e) := by
  have hpart (x : Expr) (hx : x.Part e) : x.Every (·.Part e) := by
    induction x using children_induction with
    | step info kind ih => exact .node hx fun y hy => ih y hy (hx.of_child hy)
  exact hpart e .self

/-- Scalar expressions are plain in a common scope in which only their parts, zero and the row value of the
expressions are compiled. -/
theorem exists_scope_of_parts {setting : Setting} {cursor : Int} (catalog : Catalog) {es : List Expr}
    (hes : ∀ e ∈ es, e.Scalar catalog.functions (setting.Reserves cursor))
    (hdistinct : (es.flatMap (·.identities)).Nodup) :
    ∃ σ : Scope, σ.Suits catalog setting cursor ∧ (∀ r, ¬ σ.aside r) ∧ (∀ e ∈ es, e.Plain σ) ∧
      ∀ x, σ.part x → (∃ e ∈ es, x.Part e) ∨ x = .ofKind (.integer (.inline 0)) ∨
        ∃ items, x = .ofKind (.vector items) := by
  obtain ⟨items, hfields, hscalar, hids⟩ := exists_row hes
  have hzero : (ofKind (.integer (.inline 0))).Part (.ofKind (.vector items)) :=
    .child (by simp [-Kind.children, ofKind, hfields]) .self
  obtain ⟨σ, hσ, haside, hpart, hplain⟩ :=
    exists_scope_of_every catalog (fun _ => False) hscalar (hids ▸ hdistinct) hzero (every_part _)
  refine ⟨σ, hσ, by simp [haside], fun e he => hplain.children e ?_, fun x hx => ?_⟩
  · show e ∈ (Kind.vector items : Kind Expr Select).children
    rw [hfields]
    exact List.mem_cons_of_mem _ he
  · rw [hpart] at hx
    cases hx with
    | self => exact .inr (.inr ⟨items, rfl⟩)
    | child hy hx =>
      rename_i y
      have hy' : y ∈ (Kind.vector items : Kind Expr Select).children := hy
      rw [hfields] at hy'
      rcases List.mem_cons.1 hy' with rfl | he
      · cases hx with
        | self => exact .inr (.inl rfl)
        | child hz _ => cases hz
      · exact .inl ⟨y, he, hx⟩

theorem not_makes_vector {items : List (Item Expr)} {reg : Int} {c c' : Compiler} :
    ¬ ((ofKind (.vector items)).coded.exact reg).Makes c () c' := by
  intro h
  simp only [Code.exact, makes_bind] at h
  obtain ⟨_, _, htarget, -⟩ := h
  obtain ⟨⟨⟩, _, -, hthrow⟩ := makes_bind.1 htarget
  exact makes_throw.1 hthrow

/-- The expression is one that may be set aside: it is constant, and it has code. -/
def Aside (x : Expr) : Prop :=
  x.isConstant .notJoin = true ∧ ∃ reg c c', (x.coded.exact reg).Makes c () c'

end Expr

/-! ## Scans with constants set aside -/

section

variable {catalog : Catalog} {config : Config} {setting : Setting} {t : Table} {cursor : Int} {os : List Outcome}
  {store : Store} {params : List Value} {outer : List (Int × Cursor)} {p : Program} {c' : Compiler}

section

variable (htame : catalog.collations.Tame)
  (hscalar : ∀ o ∈ os, o.expr.Scalar catalog.functions (setting.Reserves cursor))
  (hdistinct : (os.flatMap (·.expr.identities)).Nodup)
  (h : (forEachRow setting t cursor os.length (outcomeRow os)).Makes (.new catalog config) p c')

include htame hscalar hdistinct h

/-- No registers are copied together, if the parts of the outcomes are computed into the registers that are wanted. -/
theorem Gen.outcomeRow_copiesWhole (hdirect : ∀ o ∈ os, o.expr.Every (Expr.Direct catalog.functions)) :
    p.CopiesWhole := by
  have hids : (os.map Outcome.expr).flatMap (·.identities) = os.flatMap (·.expr.identities) := List.flatMap_map ..
  obtain ⟨σ, hσ, haside, hpart, hplain⟩ :=
    exists_scope_of_list catalog (fun _ => False) (List.forall_mem_map.2 hscalar) (hids ▸ hdistinct) trivial
      (fun _ => trivial) (List.forall_mem_map.2 hdirect)
  have hfills : FillsRow σ [] (os.flatMap (·.expr.identities)) False config.hoistConstants (outcomeRow os 1) 1
      (os.map Outcome.meaning) := .outcomes (List.forall_mem_map.1 hplain) 1
  rw [← List.length_map Outcome.meaning] at h
  exact forEachRow_copiesWhole h (hσ.fits htame) (by simp [haside]) hfills.start hdistinct hσ.covers hσ.current
    (hσ.unmerged hpart)

variable (hwhole : p.CopiesWhole) (hsize : p.ops.size < 2147483648) (houter : ∀ q ∈ outer, q.2.isStored = true)

include hwhole hsize houter

/-- A scan delivers the outcomes for each row. It fails only where a row has none, or where a constant part that
was set aside has no value. -/
theorem Gen.outcomeRow_leads (store : Store) (params : List Value) : ∃ a n, p.ops[a]? = some (.of .halt) ∧
      Leads p.ops (fun b m => b = a ∧ ∃ vss,
          (store.rows t.id).mapM
              (rowValues (.under setting catalog config params outer) cursor (os.map Outcome.meaning)) =
            some vss ∧ m.rows = vss.toArray)
        ((∃ o ∈ os, ∃ x : Expr, x.Part o.expr ∧ x.Aside ∧
            x.meaning.value (.under setting catalog config params outer) = none) ∨
          (store.rows t.id).mapM
              (rowValues (.under setting catalog config params outer) cursor (os.map Outcome.meaning)) =
            none) n 0 (.startUnder p catalog store params outer) := by
  have hids : (os.map Outcome.expr).flatMap (·.identities) = os.flatMap (·.expr.identities) := List.flatMap_map ..
  obtain ⟨σ, hσ, haside, hplain, hparts⟩ :=
    exists_scope_of_parts catalog (List.forall_mem_map.2 hscalar) (hids ▸ hdistinct)
  have hfills : FillsRow σ [] (os.flatMap (·.expr.identities)) False config.hoistConstants (outcomeRow os 1) 1
      (os.map Outcome.meaning) := .outcomes (List.forall_mem_map.1 hplain) 1
  rw [← List.length_map Outcome.meaning] at h
  obtain ⟨a, n, hoisted, hhalt, hhoisted, hleads⟩ := forEachRow_leads h (hσ.fits htame)
    (fun r hr => absurd hr (haside r)) hfills.start hdistinct hσ.covers hσ.current hwhole hsize (hσ.env htame) rfl
    (show Finishes.Fresh σ (.under setting catalog config params outer) (.startUnder p catalog store params outer) from
      startUnder_fresh houter)
  refine ⟨a, n, hhalt, hleads.weaken ?_ fun hfails => hfails.imp_left fun hnone => ?_⟩
  · rintro b m ⟨rfl, vss, hvss, hrows⟩
    exact ⟨rfl, vss, hvss, hrows.trans Array.empty_append⟩
  · -- one of the constants has no value, and it is a part of an expression, since zero has one
    obtain ⟨x, hx, hvalue⟩ := exists_of_mapM_eq_none hnone
    obtain ⟨hfixed, hcode⟩ := hhoisted x hx
    rcases hparts x hfixed.1.here.part with ⟨e, he, hpart⟩ | rfl | ⟨items, rfl⟩
    · obtain ⟨o, ho, rfl⟩ := List.mem_map.1 he
      exact ⟨o, ho, x, hpart, ⟨hfixed.2, hcode⟩, hvalue⟩
    · cases hvalue
    · obtain ⟨reg, c1, c2, hmakes⟩ := hcode
      exact absurd hmakes not_makes_vector

theorem Gen.outcomeRow_rows {k : Nat} {m : Machine}
    (hrun : runFrom p.ops k 0 (.startUnder p catalog store params outer) = (.ok (), m)) :
    ∃ vss, (store.rows t.id).mapM
        (rowValues (.under setting catalog config params outer) cursor (os.map Outcome.meaning)) =
      some vss ∧ m.rows = vss.toArray := by
  obtain ⟨a, n, hhalt, hleads⟩ := outcomeRow_leads htame hscalar hdistinct h hwhole hsize houter store params
  obtain ⟨b, -, hrows⟩ := halted_of_leads hleads (fun b m1 hb => ⟨_, hb.1 ▸ hhalt, Instr.step_halt⟩) hrun
  exact hrows

theorem Gen.outcomeRow_runs {vss : List (List Value)} (hconstants : ∀ o ∈ os, ∀ x : Expr, x.Part o.expr → x.Aside →
      x.meaning.value (.under setting catalog config params outer) ≠ none) (hvss : (store.rows t.id).mapM
      (rowValues (.under setting catalog config params outer) cursor (os.map Outcome.meaning)) = some vss) :
    ∃ k m, m.rows = vss.toArray ∧
      ∀ s, runFrom p.ops (k + s) 0 (.startUnder p catalog store params outer) = (.ok (), m) := by
  obtain ⟨a, n, hhalt, hleads⟩ := outcomeRow_leads htame hscalar hdistinct h hwhole hsize houter store params
  rcases runFrom_of_leads hleads with ⟨k, -, b, m, ⟨rfl, wss, hwss, hrows⟩, hruns⟩ | ⟨hfails, -⟩
  · rw [hvss] at hwss
    cases hwss
    refine ⟨k + 1, m, hrows, fun s => ?_⟩
    have hstep : ((Instr.of .halt).step b).run m = (.ok .halt, m) := Instr.step_halt
    rw [Nat.add_assoc, hruns, Nat.add_comm]
    simp only [runFrom, hhalt, hstep, nextAddress]
  · rcases hfails with ⟨o, ho, x, hx, haside, hnone⟩ | hnone
    · exact absurd hnone (hconstants o ho x hx haside)
    · rw [hvss] at hnone
      cases hnone

end

/-- If a scan ends without an error where no constants are set aside, it does where they are, and it delivers the
same rows, as long as each constant part of its expressions has a value. -/
theorem Gen.factored_scan_runs (config : Config) {p₀ p₁ : Program} {c₀ c₁ : Compiler} {k₀ : Nat} {m₀ : Machine}
    (htame : catalog.collations.Tame)
    (hscalar : ∀ o ∈ os, o.expr.Scalar catalog.functions (setting.Reserves cursor))
    (hdistinct : (os.flatMap (·.expr.identities)).Nodup)
    (h₀ : (Gen.forEachRow setting t cursor os.length (Gen.outcomeRow os)).Makes
      (.new catalog { config with hoistConstants := false }) p₀ c₀)
    (h₁ : (Gen.forEachRow setting t cursor os.length (Gen.outcomeRow os)).Makes
      (.new catalog { config with hoistConstants := true }) p₁ c₁)
    (hwhole₀ : p₀.CopiesWhole) (hsize₀ : p₀.ops.size < 2147483648)
    (hwhole₁ : p₁.CopiesWhole) (hsize₁ : p₁.ops.size < 2147483648)
    (houter : ∀ q ∈ outer, q.2.isStored = true)
    (hconstants : ∀ o ∈ os, ∀ x : Expr, x.Part o.expr → x.Aside →
      x.meaning.value (.under setting catalog config params outer) ≠ none)
    (hrun₀ : Machine.runFrom p₀.ops k₀ 0 (.startUnder p₀ catalog store params outer) = (.ok (), m₀)) :
    ∃ k₁ m₁, m₁.rows = m₀.rows ∧
      ∀ s, Machine.runFrom p₁.ops (k₁ + s) 0 (.startUnder p₁ catalog store params outer) = (.ok (), m₁) := by
  obtain ⟨vss, hvss, hrows₀⟩ := Gen.outcomeRow_rows htame hscalar hdistinct h₀ hwhole₀ hsize₀ houter hrun₀
  obtain ⟨k₁, m₁, hrows₁, hruns⟩ :=
    Gen.outcomeRow_runs htame hscalar hdistinct h₁ hwhole₁ hsize₁ houter hconstants hvss
  exact ⟨k₁, m₁, hrows₁.trans hrows₀.symm, hruns⟩

end

namespace Example

def absolute (e : Expr) : Expr :=
  .node { infoOf (.call "abs" [⟨e, false, 0⟩] none) with flags := { constantCall := true } }
    (.call "abs" [⟨e, false, 0⟩] none)

/-- CASE WHEN ?1 THEN abs(-7) ELSE a END. -/
def sevenOrColumn : Expr :=
  .ofKind (.caseOf none [(parameter, absolute (.ofKind (.unary .negate (literal 7))))] (some column))

/-- a AND abs(?1). -/
def columnAndParameter : Expr := .ofKind (.binary .and column (absolute parameter))

def valueAndBranch : List Outcome := [.value sevenOrColumn, .branch columnAndParameter true false]

def valueAndBranchRows : Gen Program := forEachRow {} table 0 2 (outcomeRow valueAndBranch)

theorem absolute_scalar {e : Expr} (he : e.Scalar empty.functions (Setting.Reserves {} 0))
    (hflags : (absolute e).FlagsComputed) : (absolute e).Scalar empty.functions (Setting.Reserves {} 0) := by
  have hfind : empty.functions.find? "abs" 1 = empty.functions.entries.head? := rfl
  refine .node ⟨hflags, rfl, by simp, fun f hf => ?_, fun _ => ?_⟩ (List.forall_mem_singleton.2 he)
  · cases hfind.symm.trans hf
    exact ⟨by simp, by simp⟩
  · show false = (empty.functions.find? "abs" 1).any (·.flags.unlikely)
    rfl

theorem valueAndBranch_scalar : ∀ o ∈ valueAndBranch, o.expr.Scalar empty.functions (Setting.Reserves {} 0) := by
  have hparameter : parameter.Scalar empty.functions (Setting.Reserves {} 0) :=
    .ofKind ⟨rfl, trivial⟩ (List.forall_mem_nil _)
  have hseven : (ofKind (.unary .negate (literal 7))).Scalar empty.functions (Setting.Reserves {} 0) :=
    .ofKind ⟨rfl, trivial⟩ (List.forall_mem_singleton.2 (literal_scalar 7))
  simp [valueAndBranch, Outcome.expr, sevenOrColumn, columnAndParameter, scalar_ofKind, ScalarNode, column_scalar,
    hparameter, absolute_scalar hparameter rfl, absolute_scalar hseven rfl]

/-- A node that is not constant, or that has a value where the first parameter is 0. -/
def HasValue (x : Expr) : Prop :=
  x.isConstant .notJoin = true → x.meaning.value (.under {} .empty {} [.integer 0] []) ≠ none

theorem valueAndBranch_hasValue : ∀ o ∈ valueAndBranch, o.expr.Every HasValue := by
  simp [valueAndBranch, Outcome.expr, sevenOrColumn, columnAndParameter, absolute, parameter, column, literal,
    every_ofKind, every_node]
  simp only [HasValue]
  decide +kernel

end Example

open Example in
/-- The call in the arm that is not taken is computed before the first row, and the rows are the same. -/
theorem Gen.factored_scan_runs_arm :
    ∃ p₀ c₀ m₀ p₁ c₁ k₁ m₁,
      valueAndBranchRows.Makes (.new .empty { hoistConstants := false }) p₀ c₀ ∧
      valueAndBranchRows.Makes (.new .empty { hoistConstants := true }) p₁ c₁ ∧
      p₀.run .empty store [.integer 0] = (.ok (), m₀) ∧
      (∀ s, Machine.runFrom p₁.ops (k₁ + s) 0 (.start p₁ .empty store [.integer 0]) = (.ok (), m₁)) ∧
      m₁.rows = #[[.integer 1, .integer 0], [.integer 2, .integer 0], [.null, .integer 0]] := by
  obtain ⟨p₀, c₀, m₀, h₀, hrun₀, hrows₀⟩ := Gen.of_delivered?
    (show valueAndBranchRows.delivered? .empty { hoistConstants := false } store [.integer 0] =
      some #[[.integer 1, .integer 0], [.integer 2, .integer 0], [.null, .integer 0]] by decide +kernel)
  obtain ⟨p₁, c₁, _, h₁, -, -⟩ := Gen.of_delivered?
    (show valueAndBranchRows.delivered? .empty { hoistConstants := true } store [.integer 0] =
      some #[[.integer 1, .integer 0], [.integer 2, .integer 0], [.null, .integer 0]] by decide +kernel)
  obtain ⟨k₁, m₁, hrows, hruns⟩ := Gen.factored_scan_runs {} (Collations.tame_of_no_factory rfl)
    valueAndBranch_scalar (by decide) h₀ h₁
    (Gen.copiesWhole_of_makes h₀ (by decide +kernel)) (Gen.size_lt_of_makes h₀ (by decide +kernel))
    (Gen.copiesWhole_of_makes h₁ (by decide +kernel)) (Gen.size_lt_of_makes h₁ (by decide +kernel))
    (List.forall_mem_nil _) (fun o ho x hx haside => ((valueAndBranch_hasValue o ho).part hx).here haside.1) hrun₀
  exact ⟨p₀, c₀, m₀, p₁, c₁, k₁, m₁, h₀, h₁, hrun₀, hruns, hrows.trans hrows₀⟩

/-- The text of the error with which a statement ends, if it can be compiled and fails. -/
def Gen.failure? (g : Gen Program) (catalog : Catalog) (config : Config) (store : Store) (params : List Value) :
    Option String :=
  match g.run (.new catalog config) with
  | (.ok p, _) =>
    match p.run catalog store params with
    | (.error e, _) => some e.message
    | _ => none
  | _ => none

namespace Example

/-- CASE WHEN ?1 THEN abs(-9223372036854775808) ELSE 1 END. -/
def overflowOrOne : Expr :=
  .ofKind (.caseOf none [(parameter, absolute (.ofKind (.unary .negate (.ofKind
    (.integer (.text "9223372036854775808"))))))] (some (literal 1)))

end Example

open Example in
/-- The least integer has no absolute value. Where constants are set aside the call is computed although its arm is
not taken, and the statement fails. -/
theorem Gen.factored_arm_fails :
    (Gen.evaluation {} [overflowOrOne]).delivered? .empty { hoistConstants := false } .empty [.integer 0] =
        some #[[.integer 1]] ∧
      (Gen.evaluation {} [overflowOrOne]).failure? .empty { hoistConstants := true } .empty [.integer 0] =
        some "integer overflow" := by
  decide +kernel

end ScalarSql
