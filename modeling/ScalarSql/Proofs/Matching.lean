import ScalarSql.Proofs.Factoring
import ScalarSql.Proofs.Implication
import ScalarSql.Proofs.Resolution.Marks

/-!
# Equal expressions have equal values

Trees are compared without most of their flags and without the tables of their columns. For scalar expressions
that were resolved against the same tables this makes no difference: if they are equal, or equal but for COLLATE
at the top of one of them, then scans of the two deliver the same rows, and a scan that delivers both delivers the
same value twice (`Gen.matching_delivered_alike`). So a register that holds the value of the one serves for the
other.

Sub-selects are compared by their identities alone. Copies of one sub-select that were resolved against different
tables are equal, and their values differ (`Gen.equal_copies_differ`).
-/

namespace ScalarSql

open Catalog Compiler ScalarSql.Expr Gen

namespace Expr

variable {fs : Functions} {cursors : Int → Prop} {tables : Int → Option Table} {env : Env} {a b e x y : Expr}

/-! ## COLLATE at the top -/

theorem skipCollate_ne_of_collate {z : Expr} {c : String} (h : e.kind = .collate z c) : e.skipCollate ≠ e :=
  fun heq => e.skipCollate_not_collate z c (heq.symm ▸ h)

theorem of_underCollate {m : Match} (h : m.underCollate = .equalUnderCollate) :
    m = .equal ∨ m = .equalUnderCollate := by
  cases m with
  | equal => exact .inl rfl
  | equalUnderCollate => exact .inr rfl
  | different => cases h

theorem matches_of_equalUnderCollate (h : compare none a b = .equalUnderCollate) :
    (a.skipCollate ≠ a ∧ Matches a.skipCollate b) ∨ (b.skipCollate ≠ b ∧ Matches a b.skipCollate) := by
  induction a using children_induction with
  | step i k ih =>
    by_cases hk : ∃ x c, k = .collate x c
    · obtain ⟨x, c, rfl⟩ := hk
      by_cases hb : ∃ y d, b.kind = .collate y d
      · obtain ⟨j, l⟩ := b
        obtain ⟨y, d, rfl : l = _⟩ := hb
        exact absurd h (ofBool_ne _)
      · have hb (y : Expr) (d : String) : b.kind ≠ .collate y d := fun hy => hb ⟨y, d, hy⟩
        rw [compare_collate_left hb] at h
        refine .inl ⟨skipCollate_ne_of_collate rfl, ?_⟩
        show Matches x.skipCollate b
        rcases of_underCollate h with hx | hx
        · rw [skipCollate_of_not_collate (not_collate_of_matches_right hb hx)]
          exact hx
        · rcases ih x List.mem_cons_self hx with hx | hx
          · exact hx.2
          · exact absurd (skipCollate_of_not_collate hb) hx.1
    · have hk (x : Expr) (c : String) : k ≠ .collate x c := fun hx => hk ⟨x, c, hx⟩
      obtain ⟨t, hskip, hseen⟩ := compare_of_not_collate (a := .node i k) hk b
      rw [hseen, seenFrom] at h
      split at h
      · rename_i y d hy
        refine .inr ⟨skipCollate_ne_of_collate hy, hskip.trans ?_⟩
        exact (of_underCollate h).resolve_right (ofBool_ne t)
      · exact absurd h (ofBool_ne t)

theorem value_skipCollate (e : Expr) (env : Env) : e.skipCollate.meaning.value env = e.meaning.value env := by
  induction e using children_induction with
  | step info kind ih =>
    cases kind with
    | collate operand name => exact ih operand List.mem_cons_self
    | _ => rfl

theorem Every.skipCollate {P : Expr → Prop} (h : e.Every P) : e.skipCollate.Every P := by
  induction e using children_induction with
  | step info kind ih =>
    cases kind with
    | collate operand name => exact ih operand List.mem_cons_self (h.children operand List.mem_cons_self)
    | _ => exact h

/-! ## Resolved expressions -/

/-- A node of a scalar expression behind resolution. -/
def BoundNode (fs : Functions) (cursors : Int → Prop) (tables : Int → Option Table) (e : Expr) : Prop :=
  e.ScalarNode fs cursors ∧ e.Bound fs tables

theorem BoundNode.unfixed (h : e.BoundNode fs cursors tables) : e.Unfixed := fun ref href => (h.2.column ref href).2

theorem BoundNode.truthName? (h : e.BoundNode fs cursors tables) : e.truthName? = none := by
  obtain ⟨info, kind⟩ := e
  cases kind with
  | ident name => exact absurd rfl (h.2.ident name)
  | _ => rfl

section

variable (hx : x.BoundNode fs cursors tables) (hy : y.BoundNode fs cursors tables) (hm : Matches x y)

include hx hy hm

theorem BoundNode.call_eq (name : String) (args : List (Item Expr)) (window : Option (Window Expr))
    (hcall : x.kind = .call name args window) :
    x.flags.constantCall = y.flags.constantCall ∧ x.flags.unlikely = y.flags.unlikely := by
  have hk := (matches_iff.1 hm).2
  rw [hcall] at hk
  obtain ⟨flags, hflags, hconstant, hunlikely⟩ := hx.2.call name args window hcall
  generalize hother : y.kind = other at hk
  cases hk with
  | @call _ t _ ys _ window' hname hargs =>
    obtain ⟨flags', hflags', hconstant', hunlikely'⟩ := hy.2.call t ys window' hother
    have hsame : Resolve.callFlags fs t ys.length = .ok flags := by
      rw [← hargs.length_eq]
      unfold Resolve.callFlags at hflags ⊢
      rw [← Meaning.Functions.find?_congr fs hname]
      split at hflags
      · exact hflags
      · cases hflags
    cases hsame.symm.trans hflags'
    exact ⟨hconstant.trans hconstant'.symm, hunlikely.trans hunlikely'.symm⟩

theorem BoundNode.column_eq
    (r s : ColumnRef Expr) (hr : x.kind = .column r) (hs : y.kind = .column s) : r.table = s.table := by
  have hk := (matches_iff.1 hm).2
  rw [hr, hs] at hk
  cases hk with
  | column hcursor => rw [(hx.2.column r hr).1, (hy.2.column s hs).1, hcursor]

end

/-- Scalar expressions that were resolved against the same tables mean the same if they match. -/
theorem same_of_bound (henv : env.CaseBlind) (hx : x.Every (BoundNode fs cursors tables))
    (hy : y.Every (BoundNode fs cursors tables)) (hm : Matches x y) : SameMeaning env env x y := by
  let R (x y : Expr) : Prop :=
    x.Every (BoundNode fs cursors tables) ∧ y.Every (BoundNode fs cursors tables) ∧ Matches x y
  have hparts (x y : Expr) (h : R x y) (c : Expr) (hc : c ∈ x.kind.children) (d : Expr) (hd : d ∈ y.kind.children)
      (hcd : Matches c d) : R c d := ⟨h.1.children c hc, h.2.1.children d hd, hcd⟩
  have hnode (x y : Expr) (h : R x y) : SameNode fs cursors env env x y := by
    have hx := h.1.here
    have hy := h.2.1.here
    have hm := h.2.2
    have htruth : x.truthName? = y.truthName? := hx.truthName?.trans hy.truthName?.symm
    exact
      { kind := (matches_iff.1 hm).2
        scalar := ⟨hx.1, hy.1⟩
        unfixed := ⟨hx.unfixed, hy.unfixed⟩
        fromJoin := hx.2.fromJoin.trans hy.2.fromJoin.symm
        unlikely := fun name args window hcall => (hx.call_eq hy hm name args window hcall).2
        truthName? := htruth
        constant := by
          refine isConstant_plain_congr (R := R) (fun x y h => ⟨h.1.here.1, h.1.here.unfixed⟩)
            (fun x y h => ⟨h.2.1.here.1, h.2.1.here.unfixed⟩) (fun x y h => ?_) hparts h
          refine ⟨h.2.2, constantNode_congr h.2.2 (h.1.here.truthName?.trans h.2.1.here.truthName?.symm) ?_⟩
          exact fun name args window hcall => (h.1.here.call_eq h.2.1.here h.2.2 name args window hcall).1
        column := column_congr hm hx.unfixed hy.unfixed hx.1.1 hy.1.1 (hx.2.canBeNull.trans hy.2.canBeNull.symm)
          (hx.column_eq hy hm) }
  exact same_of_nodes henv hnode hparts x y ⟨hx, hy, hm⟩

theorem value_eq_of_compare (henv : env.CaseBlind) (ha : a.Every (BoundNode fs cursors tables))
    (hb : b.Every (BoundNode fs cursors tables)) (h : compare none a b ≠ .different) :
    a.meaning.value env = b.meaning.value env := by
  cases hm : compare none a b with
  | different => exact absurd hm h
  | equal => exact (same_of_bound henv ha hb hm).1.value
  | equalUnderCollate =>
    rcases matches_of_equalUnderCollate hm with ⟨-, hm⟩ | ⟨-, hm⟩
    · rw [← a.value_skipCollate]
      exact (same_of_bound henv ha.skipCollate hb hm).1.value
    · rw [← b.value_skipCollate]
      exact (same_of_bound henv ha hb.skipCollate hm).1.value

/-- Resolution against a FROM clause leaves every node of a scalar expression bound. -/
theorem every_boundNode {sources : List Source} (hsources : ∀ s ∈ sources, tables s.cursor = some s.table)
    (he : e.Every Unbound) (hresolve : e.resolve fs sources = .ok a) (ha : a.Scalar fs cursors) :
    a.Every (BoundNode fs cursors tables) := by
  have hreads : Resolve.Reads tables [sources] := List.forall_mem_singleton.2 hsources
  unfold resolve at hresolve
  cases hexpr : Resolve.expr fs [sources] e with
  | error error =>
    rw [hexpr] at hresolve
    cases hresolve
  | ok result =>
    rw [hexpr] at hresolve
    cases hresolve
    exact ha.and (Resolve.expr_bound hreads he result.1 result.2 hexpr ha)

end Expr

/-! ## Scans of equal expressions -/

/-- The statement can be compiled into a program that runs each copy as a whole; that ends without an error and
has delivered the rows. -/
def Gen.Delivers (g : Gen Program) (catalog : Catalog) (config : Config) (store : Store) (params : List Value)
    (outer : List (Int × Cursor)) (rows : Array (List Value)) : Prop :=
  ∃ p c k m, g.Makes (.new catalog config) p c ∧ p.CopiesWhole ∧ p.ops.size < 2147483648 ∧
    Machine.runFrom p.ops k 0 (.startUnder p catalog store params outer) = (.ok (), m) ∧ m.rows = rows

section

variable {catalog : Catalog} {config : Config} {setting : Setting} {t : Table} {cursor : Int}
  {store : Store} {params : List Value} {outer : List (Int × Cursor)} {rows : Array (List Value)}

theorem Gen.Delivers.outcomes (os : List Outcome)
    (h : (forEachRow setting t cursor os.length (outcomeRow os)).Delivers catalog config store params outer rows)
    (htame : catalog.collations.Tame) (hscalar : ∀ o ∈ os, o.expr.Scalar catalog.functions (setting.Reserves cursor))
    (hdistinct : (os.flatMap (·.expr.identities)).Nodup) (houter : ∀ q ∈ outer, q.2.isStored) :
    ∃ vss, (store.rows t.id).mapM
        (rowValues (.under setting catalog config params outer) cursor (os.map Outcome.meaning)) =
      some vss ∧ rows = vss.toArray := by
  obtain ⟨p, c, k, m, hmakes, hwhole, hsize, hrun, rfl⟩ := h
  exact outcomeRow_rows htame hscalar hdistinct hmakes hwhole hsize houter hrun

/-- Equal expressions that were resolved against the same tables have the same value. -/
theorem Gen.matching_delivered_alike (tables : Int → Option Table) (sources₁ sources₂ : List Source)
    {e₁ e₂ a b : Expr} (htame : catalog.collations.Tame)
    (hsources₁ : ∀ s ∈ sources₁, tables s.cursor = some s.table)
    (hsources₂ : ∀ s ∈ sources₂, tables s.cursor = some s.table)
    (he₁ : e₁.Every Expr.Unbound) (he₂ : e₂.Every Expr.Unbound)
    (ha : e₁.resolve catalog.functions sources₁ = .ok a) (hb : e₂.resolve catalog.functions sources₂ = .ok b)
    (hscalar₁ : a.Scalar catalog.functions (setting.Reserves cursor))
    (hscalar₂ : b.Scalar catalog.functions (setting.Reserves cursor))
    (hmatch : Expr.compare none a b ≠ .different) (houter : ∀ q ∈ outer, q.2.isStored = true) :
    (Expr.compare none a b = .equalUnderCollate →
      (a.skipCollate ≠ a ∧ Expr.compare none a.skipCollate b = .equal) ∨
        (b.skipCollate ≠ b ∧ Expr.compare none a b.skipCollate = .equal)) ∧
    (a.identities.Nodup → b.identities.Nodup → ∀ rows₁ rows₂,
      (Gen.forEachRow setting t cursor 1 (Gen.outcomeRow [.value a])).Delivers catalog config store params outer rows₁ →
      (Gen.forEachRow setting t cursor 1 (Gen.outcomeRow [.value b])).Delivers catalog config store params outer rows₂ →
      rows₁ = rows₂) ∧
    ((a.identities ++ b.identities).Nodup → ∀ rows,
      (Gen.forEachRow setting t cursor 2 (Gen.outcomeRow [.value a, .value b])).Delivers
        catalog config store params outer
        rows → ∀ row ∈ rows, ∃ v, row = [v, v]) := by
  have hblind : (Env.under setting catalog config params outer).CaseBlind :=
    ⟨rfl, fun _ _ => Collations.answer_congr htame, rfl, rfl⟩
  have hbound₁ := Expr.every_boundNode hsources₁ he₁ ha hscalar₁
  have hbound₂ := Expr.every_boundNode hsources₂ he₂ hb hscalar₂
  have hvalue (r : Row) : a.meaning.value ((Env.under setting catalog config params outer).at cursor r) =
      b.meaning.value ((Env.under setting catalog config params outer).at cursor r) :=
    Expr.value_eq_of_compare (hblind.agrees _ _) hbound₁ hbound₂ hmatch
  refine ⟨Expr.matches_of_equalUnderCollate, fun hids₁ hids₂ rows₁ rows₂ h₁ h₂ => ?_, fun hids rows h row hrow => ?_⟩
  · obtain ⟨vss, hvss, rfl⟩ := Gen.Delivers.outcomes [.value a] h₁ htame (List.forall_mem_singleton.2 hscalar₁)
      (by simpa [Outcome.expr] using hids₁) houter
    obtain ⟨wss, hwss, rfl⟩ := Gen.Delivers.outcomes [.value b] h₂ htame (List.forall_mem_singleton.2 hscalar₂)
      (by simpa [Outcome.expr] using hids₂) houter
    have hrows : rowValues (.under setting catalog config params outer) cursor [a.meaning.value] =
        rowValues (.under setting catalog config params outer) cursor [b.meaning.value] := by
      funext r
      rw [rowValues_single, rowValues_single, hvalue]
    have hsame : (store.rows t.id).mapM
        (rowValues (.under setting catalog config params outer) cursor [b.meaning.value]) =
        some vss := hrows ▸ hvss
    rw [Option.some.inj (hsame.symm.trans hwss)]
  · obtain ⟨vss, hvss, rfl⟩ := Gen.Delivers.outcomes [.value a, .value b] h htame
      (List.forall_mem_cons.2 ⟨hscalar₁, List.forall_mem_singleton.2 hscalar₂⟩) (by simpa [Outcome.expr] using hids)
      houter
    obtain ⟨r, -, hr⟩ := mem_of_mapM hvss (by simpa using hrow)
    have hpair : ([a.meaning.value, b.meaning.value].mapM
        (· ((Env.under setting catalog config params outer).at cursor r))) = some row := hr
    rw [List.mapM_cons, List.mapM_cons, ← hvalue] at hpair
    cases hv : a.meaning.value ((Env.under setting catalog config params outer).at cursor r) with
    | none =>
      rw [hv] at hpair
      cases hpair
    | some v =>
      rw [hv] at hpair
      cases hpair
      exact ⟨v, rfl⟩

end

theorem Gen.delivers_of_delivered? {g : Gen Program} {catalog : Catalog} {config : Config} {store : Store}
    {params : List Value} {rows : Array (List Value)} (h : g.delivered? catalog config store params = some rows)
    (hwhole : (g.run (.new catalog config)).1.toOption.all (fun p => decide p.CopiesWhole))
    (hsize : (g.run (.new catalog config)).1.toOption.all (·.ops.size < 2147483648)) :
    g.Delivers catalog config store params [] rows := by
  obtain ⟨p, c, m, hmakes, hrun, hrows⟩ := of_delivered? h
  exact ⟨p, c, _, m, hmakes, copiesWhole_of_makes hmakes hwhole, size_lt_of_makes hmakes hsize, hrun, hrows⟩

namespace Example

/-- f(c) = 2 for the names of a function and of a column. -/
def callIsTwo (f c : String) : Expr :=
  .ofKind (.binary .eq (.ofKind (.call f [⟨.ofKind (.ident c), false, 0⟩] none)) (literal 2))

/-- The same, resolved against the table. -/
def columnCallIsTwo (f : String) : Expr :=
  .ofKind (.binary .eq (.node { flags := { hasCall := true, constantCall := true }, height := 2 }
    (.call f [⟨column, false, 0⟩] none)) (literal 2))

def collated (e : Expr) : Expr := .ofKind (.collate e "NOCASE")

theorem callIsTwo_unbound (f c : String) : (callIsTwo f c).Every Unbound := by
  refine .ofKind ⟨rfl, rfl, rfl, rfl, by rintro _ ⟨⟩⟩ (List.forall_mem_cons.2 ⟨?_, List.forall_mem_singleton.2 ?_⟩)
  · refine .ofKind ⟨rfl, rfl, rfl, rfl, by rintro _ ⟨⟩⟩ (List.forall_mem_singleton.2 ?_)
    exact .ofKind ⟨rfl, rfl, rfl, rfl, by rintro _ ⟨⟩⟩ (List.forall_mem_nil _)
  · exact .ofKind ⟨rfl, rfl, rfl, rfl, by rintro _ ⟨⟩⟩ (List.forall_mem_nil _)

theorem columnCallIsTwo_scalar {f : String} (hfind : empty.functions.find? f 1 = empty.functions.entries.head?) :
    (columnCallIsTwo f).Scalar empty.functions (Setting.Reserves {} 0) := by
  refine .ofKind ⟨rfl, trivial⟩ (List.forall_mem_cons.2 ⟨?_, List.forall_mem_singleton.2 (literal_scalar 2)⟩)
  refine .node ⟨rfl, rfl, by simp, fun g hg => ?_, fun _ => ?_⟩ (List.forall_mem_singleton.2 column_scalar)
  · cases hfind.symm.trans hg
    exact ⟨by simp, by simp⟩
  · show false = (empty.functions.find? f 1).any (·.flags.unlikely)
    rw [hfind]
    rfl

end Example

open Example in
/-- abs(a) = 2 under COLLATE and ABS(t.a) = 2 without it have the same value on each row. -/
theorem Gen.matching_delivered_alike_collate :
    Expr.compare none (collated (columnCallIsTwo "abs")) (columnCallIsTwo "ABS") = .equalUnderCollate ∧
      Expr.compare none (columnCallIsTwo "abs") (columnCallIsTwo "ABS") = .equal ∧
      ∃ rows, (Gen.forEachRow {} table 0 2 (Gen.outcomeRow [.value (collated (columnCallIsTwo "abs")),
        .value (columnCallIsTwo "ABS")])).Delivers .empty {} store [] [] rows ∧
        rows.size = 3 ∧ ∀ row ∈ rows, ∃ v, row = [v, v] := by
  have hcompare : Expr.compare none (collated (columnCallIsTwo "abs")) (columnCallIsTwo "ABS") =
      .equalUnderCollate := by
    decide +kernel
  have hdelivers := Gen.delivers_of_delivered?
    (show (Gen.forEachRow {} table 0 2 (Gen.outcomeRow [.value (collated (columnCallIsTwo "abs")),
        .value (columnCallIsTwo "ABS")])).delivered? .empty {} store [] =
      some #[[.integer 0, .integer 0], [.integer 1, .integer 1], [.null, .null]] by decide +kernel)
    (by decide +kernel) (by decide +kernel)
  obtain ⟨hcollate, -, hboth⟩ := Gen.matching_delivered_alike (fun _ => some table) [⟨table, 0, none⟩]
    [⟨table, 0, none⟩] (Collations.tame_of_no_factory rfl) (List.forall_mem_singleton.2 rfl)
    (List.forall_mem_singleton.2 rfl)
    (show (collated (callIsTwo "abs" "a")).Every Expr.Unbound from
      .ofKind ⟨rfl, rfl, rfl, rfl, by rintro _ ⟨⟩⟩ (List.forall_mem_singleton.2 (callIsTwo_unbound "abs" "a")))
    (callIsTwo_unbound "ABS" "t.a") rfl rfl
    (show (collated (columnCallIsTwo "abs")).Scalar _ _ from
      .ofKind ⟨rfl, trivial⟩ (List.forall_mem_singleton.2 (columnCallIsTwo_scalar rfl)))
    (columnCallIsTwo_scalar rfl) (by rw [hcompare]; rintro ⟨⟩) (List.forall_mem_nil _)
  refine ⟨hcompare, ?_, _, hdelivers, rfl, hboth (by decide) _ hdelivers⟩
  rcases hcollate hcompare with hleft | hright
  · exact hleft.2
  · exact absurd rfl hright.1

namespace Example

def otherTable : Table := { table with id := 2, name := "u" }

def selected : Expr := .ofKind (.subquery 1 (selectOf 1 [.ofKind (.ident "a")] [] none))

/-- A copy of it that was resolved against a table on a cursor. -/
def selectedFrom (t : Table) (cursor : Int) : Expr :=
  .node { flags := { subquery := true, correlated := true }, height := 2 }
    (.subquery 1 (selectOf 1 [.ofKind (.column ⟨cursor, 0, some t, none⟩)] [] none))

def oneAndTwo : Store := ⟨[(1, [⟨1, [.integer 1]⟩]), (2, [⟨1, [.integer 2]⟩])]⟩

/-- Delivers the values of two expressions, with the first table on the cursor 0 and the second on the cursor 1. -/
def onBoth (a b : Expr) : Gen Program :=
  forEachRow { cursors := some 2 } table 0 2 fun reg => do
    emit (.of .openRead 1 0 0 (.table otherTable))
    let done ← label
    emitJump (.of .rewind 1) done
    outcomeRow [.value a, .value b] reg
    resolve done

end Example

open Example in
/-- Copies of one sub-select that are resolved against different tables are equal, and the one has the value 1, the
other one 2. -/
theorem Gen.equal_copies_differ :
    selected.resolve Catalog.empty.functions [⟨table, 0, none⟩] = .ok (selectedFrom table 0) ∧
      selected.resolve Catalog.empty.functions [⟨otherTable, 1, none⟩] = .ok (selectedFrom otherTable 1) ∧
      Expr.compare none (selectedFrom table 0) (selectedFrom otherTable 1) = .equal ∧
      (onBoth (selectedFrom table 0) (selectedFrom otherTable 1)).delivered? .empty {} oneAndTwo [] =
        some #[[.integer 1, .integer 2]] := by
  refine ⟨rfl, rfl, ?_⟩
  decide +kernel

end ScalarSql
