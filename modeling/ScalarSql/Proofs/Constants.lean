import ScalarSql.Proofs.Branching

/-!
# Constants under any rows

A constant delivers one value under all rows, all other open cursors and all stores, since it reads none of them.
A table constant delivers the same value wherever the row of its table is the same. This is what lets a constant
be computed before the first row and the table of a constant list be filled once.

A column read from an aggregate does not obey it: such a column counts as constant as soon as a value is known
for it, even if that value is another column.
-/

namespace ScalarSql

theorem Gen.forEachRow_value_at {catalog : Catalog} {config : Config} {params : List Value}
    {outer : List (Int × Cursor)} {store : Store} {setting : Gen.Setting} {t : Table} {cursor : Int} {e : Expr}
    {p : Program} {c' : Compiler} {k : Nat} {m : Machine} (htame : catalog.collations.Tame)
    (hscalar : e.Scalar catalog.functions (setting.Reserves cursor)) (hdistinct : e.identities.Nodup)
    (h : (Gen.forEachRow setting t cursor 1 e.coded.exact).Makes (.new catalog config) p c') (hwhole : p.CopiesWhole)
    (hsize : p.ops.size < 2147483648) (houter : ∀ q ∈ outer, q.2.isStored)
    (hrun : Machine.runFrom p.ops k 0 (.startUnder p catalog store params outer) = (.ok (), m)) {i : Nat} {r : Row}
    (hr : (store.rows t.id)[i]? = some r) :
    ∃ v, e.meaning.value ((Env.under setting catalog config params outer).at cursor r) = some v ∧
      m.rows[i]? = some [v] := by
  obtain ⟨vss, hvss, hrows⟩ := Gen.forEachRow_values htame hscalar hdistinct h hwhole hsize houter hrun
  obtain ⟨vs, hvs, hi⟩ := getElem?_of_mapM hvss hr
  rw [rowValues_single] at hvs
  obtain ⟨v, hv, rfl⟩ := Option.map_eq_some_iff.1 hvs
  exact ⟨v, hv, by simpa [hrows] using hi⟩

/-- A program that scans a constant is run twice, with the same parameters and any two stores and sets of cursors
that are open around it. It delivers the same value for a row of the first run and for one of the second, if the
two agree on the row that the mode of the constant allows. -/
theorem Gen.constant_delivered_alike {catalog : Catalog} {config : Config} {params : List Value}
    {outer outer' : List (Int × Cursor)} {store store' : Store} {setting : Gen.Setting} {t : Table} {cursor : Int}
    {e : Expr} {mode : ConstMode} {p : Program} {c : Compiler} {k k' : Nat} {m m' : Machine}
    (htame : catalog.collations.Tame) (hscalar : e.Scalar catalog.functions (setting.Reserves cursor))
    (hdistinct : e.identities.Nodup) (hconstant : e.isConstant mode = true)
    (h : (Gen.forEachRow setting t cursor 1 e.coded.exact).Makes (.new catalog config) p c) (hwhole : p.CopiesWhole)
    (hsize : p.ops.size < 2147483648) (houter : ∀ q ∈ outer, q.2.isStored = true)
    (houter' : ∀ q ∈ outer', q.2.isStored = true)
    (hrun : Machine.runFrom p.ops k 0 (.startUnder p catalog store params outer) = (.ok (), m))
    (hrun' : Machine.runFrom p.ops k' 0 (.startUnder p catalog store' params outer') = (.ok (), m'))
    {i j : Nat} {r r' : Row} (hr : (store.rows t.id)[i]? = some r) (hr' : (store'.rows t.id)[j]? = some r')
    (hagree : ∀ n, mode = .tableConstant n →
      ((Env.under setting catalog config params outer).at cursor r).seen n =
        ((Env.under setting catalog config params outer').at cursor r').seen n) :
    ∃ v, m.rows[i]? = some [v] ∧ m'.rows[j]? = some [v] := by
  obtain ⟨v, hv, hi⟩ := Gen.forEachRow_value_at htame hscalar hdistinct h hwhole hsize houter hrun hr
  obtain ⟨v', hv', hj⟩ := Gen.forEachRow_value_at htame hscalar hdistinct h hwhole hsize houter' hrun' hr'
  have hblind : ((Env.under setting catalog config params outer).at cursor r).Agrees
      ((Env.under setting catalog config params outer').at cursor r') :=
    ⟨rfl, fun _ _ => Collations.answer_congr htame, rfl, rfl⟩
  have hvalue := Expr.value_of_isConstant hblind hagree hconstant
  rw [hv, hv'] at hvalue
  cases hvalue
  exact ⟨v, hi, hj⟩

open Example in
/-- NOT (a IN (2, NULL)) is constant for the table of a. It is 0 for a = 2, whichever rows stand around. -/
theorem Gen.constant_delivered_alike_not_in :
    ∃ p c m m', (Gen.forEachRow {} table 0 1 notIn.coded.exact).Makes (.new .empty {}) p c ∧
      notIn.isConstant (.tableConstant 0) = true ∧
      p.run .empty store [] = (.ok (), m) ∧ p.run .empty ⟨[(1, [⟨2, [.integer 2]⟩])]⟩ [] = (.ok (), m') ∧
      m.rows[1]? = some [.integer 0] ∧ m'.rows[0]? = some [.integer 0] := by
  obtain ⟨p, c, m, h, hrun, hrows⟩ := Gen.of_delivered?
    (show (Gen.forEachRow {} table 0 1 notIn.coded.exact).delivered? .empty {} store [] =
      some #[[.null], [.integer 0], [.null]] by decide +kernel)
  obtain ⟨p', c', m', h', hrun', -⟩ := Gen.of_delivered?
    (show (Gen.forEachRow {} table 0 1 notIn.coded.exact).delivered? .empty {} ⟨[(1, [⟨2, [.integer 2]⟩])]⟩ [] =
      some #[[.integer 0]] by decide +kernel)
  cases Eq.trans (Eq.symm h) h'
  have hconstant : notIn.isConstant (.tableConstant 0) = true := by decide +kernel
  obtain ⟨v, hv, hv'⟩ := Gen.constant_delivered_alike (Collations.tame_of_no_factory rfl) notIn_scalar (by decide)
    hconstant h (Gen.copiesWhole_of_makes h (by decide +kernel)) (Gen.size_lt_of_makes h (by decide +kernel))
    (List.forall_mem_nil _) (List.forall_mem_nil _) hrun hrun' (i := 1) (j := 0) rfl rfl (fun _ _ => rfl)
  have hi : m.rows[1]? = some [.integer 0] := by rw [hrows]; rfl
  obtain rfl : v = .integer 0 := by simpa using hv.symm.trans hi
  exact ⟨p, c, m, m', h, hconstant, hrun, hrun', hi, hv'⟩

/-- An accumulated column whose known value is the column of the table. -/
def Example.knownColumn : Expr := .ofKind (.aggColumn 0 ⟨0, 0, some table, some column⟩)

open Example in
/-- The accumulated column counts as constant, and delivers another value for each row. -/
theorem Gen.constant_delivered_apart_known :
    knownColumn.isConstant .plain = true ∧
      (Gen.forEachRow {} table 0 1 knownColumn.coded.exact).delivered? .empty {} store [] =
        some #[[.integer 1], [.integer 2], [.null]] := by
  decide +kernel

end ScalarSql
