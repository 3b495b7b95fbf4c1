import ScalarSql.Proofs.Matching

/-!
# IN over a list as a disjunction

The items of a list that is not looked up are compared in turn. If they have no affinity and no collating sequence,
each comparison is that of `=` between the operand and the item (`Expr.Bare.order?_eq`), and the chain of comparisons
has the truth value of their disjunction (`Meaning.chainOutcome_eq_or`). So scans of the two deliver the same truth
values, and a branch on IN is taken as the disjunction says (`Gen.list_test_is_disjunction`).

An item with a sub-select may convert a constant that the operand was computed from, and then the two differ
(`Gen.list_test_ne_disjunction`).
-/

namespace ScalarSql

open ScalarSql.Expr

variable {x : Expr}

/-- x = i1 OR ... OR x = iₖ, and FALSE for an empty list. -/
def Expr.anyEqual (x : Expr) : List (Item Expr) → Expr
  | [] => .ofKind (.boolean false)
  | [item] => .ofKind (.binary .eq x item.expr)
  | item :: rest => .ofKind (.binary .or (.ofKind (.binary .eq x item.expr)) (anyEqual x rest))

/-- A single value without affinity and without collating sequence. -/
structure Expr.Bare (e : Expr) : Prop where
  single : e.isVector = false
  affinity : e.affinity = .none
  collation : e.collationName? = none
  collate : e.flags.collate = false

/-! ## Chains of comparisons -/

theorem Truth.or_unknown (unknown : Bool) {c : Option Bool} (hc : c ≠ some true) (t : Option Bool) :
    or (if unknown || c.isNone then none else some false) t = or (if unknown then none else some false) (or c t) := by
  rcases c with _ | ⟨_ | _⟩
  · cases unknown <;> rcases t with _ | ⟨_ | _⟩ <;> rfl
  · cases unknown <;> rcases t with _ | ⟨_ | _⟩ <;> rfl
  · exact absurd rfl hc

section

variable {env : Env} {x e : Expr} {item : Item Expr} {items : List (Item Expr)} {a k v : Value} {unknown : Bool}

theorem Expr.Bare.order?_eq (h : e.Bare) :
    CompareMode.order? { affinity := x.affinity } (x.collationName?.bind env.collation) a k =
      env.order? x e false a k := by
  have hname : x.compareCollationName? e = x.collationName? := by
    simp [compareCollationName?, h.collation, h.collate]
  -- without any affinity the operator names BLOB, which converts nothing
  have hconvert (v : Value) : CompareMode.convert { affinity := x.compareAffinity e.affinity, nullEq := false } v =
      CompareMode.convert { affinity := x.affinity } v := by
    rw [h.affinity, compareAffinity]
    cases x.affinity <;> rfl
  rw [Env.order?, hname, CompareMode.order?, CompareMode.order?, hconvert, hconvert]

/-- One comparison of a chain: it ends with true, or goes on with what is unknown so far. -/
theorem Meaning.chainOutcome_step (h : e.Bare) (hk : e.meaning.value env = some k)
    (ha : a.isNull → unknown) (hdeclared : e.canBeNull = false → k.isNull = false) (rest : List Meaning) :
    chainOutcome x a env unknown (e.meaning :: rest) = if env.compare .eq x e a k = some true then some (some true)
      else chainOutcome x a env (unknown || (env.compare .eq x e a k).isNone) rest := by
  have hunknown (hne : env.order? x e false a k ≠ some .eq) :
      (unknown || e.canBeNull && k.isNull) = (unknown || (env.order? x e false a k).isNone) := by
    unfold Env.order? CompareMode.order?
    cases hnull : a.isNull <;> cases hkey : k.isNull <;> cases hc : e.canBeNull <;> simp_all
  rw [chainOutcome, hk, Option.bind_eq_bind, Option.bind_some, h.order?_eq, meaning_expr, Env.compare]
  have haccepts (o : Ordering) : BinaryOp.eq.opcode.accepts o ↔ o = .eq := by cases o <;> decide
  by_cases heq : env.order? x e false a k = some .eq
  · simp [heq, BinaryOp.comparesNull, haccepts]
  · rw [if_neg heq, hunknown heq, if_neg]
    · simp [BinaryOp.comparesNull]
    · simpa [BinaryOp.comparesNull, haccepts] using heq

theorem Expr.value_anyEqual_cons (h : item.expr.Bare) (hx : x.isVector = false) (ha : x.meaning.value env = some a)
    (hv : (x.anyEqual (item :: items)).meaning.value env = some v) :
    ∃ k u, item.expr.meaning.value env = some k ∧ (x.anyEqual items).meaning.value env = some u ∧
      v.truth = Truth.or (env.compare .eq x item.expr a k) u.truth := by
  have hequal {w : Value} (hw : (ofKind (.binary .eq x item.expr)).meaning.value env = some w) :
      ∃ k, item.expr.meaning.value env = some k ∧ w.truth = env.compare .eq x item.expr a k := by
    have hw : Meaning.binaryValue .eq x.meaning item.expr.meaning env = some w := hw
    rw [Meaning.binaryValue, meaning_expr, meaning_expr, hx, h.single, ha] at hw
    obtain ⟨k, hk, hw⟩ := Option.bind_eq_some_iff.1 hw
    cases hw
    exact ⟨k, hk, Value.truth_ofTruth _⟩
  cases items with
  | nil =>
    obtain ⟨k, hk, htruth⟩ := hequal hv
    refine ⟨k, .ofBool false, hk, rfl, ?_⟩
    rw [htruth, Value.truth_ofBool]
    rcases env.compare .eq x item.expr a k with _ | ⟨_ | _⟩ <;> rfl
  | cons next items =>
    obtain ⟨w, hw, hv⟩ := Option.bind_eq_some_iff.1 hv
    obtain ⟨u, hu, hv⟩ := Option.bind_eq_some_iff.1 hv
    cases hv
    obtain ⟨k, hk, htruth⟩ := hequal hw
    refine ⟨k, u, hk, hu, ?_⟩
    rw [BinaryOp.compute, Value.or, Value.truth_ofTruth, htruth]

section

variable (hx : x.isVector = false) (hitems : ∀ item ∈ items, item.expr.Bare)

include hx hitems

/-- A chain of comparisons has the truth value of the disjunction, or that of what was unknown before it. -/
theorem Meaning.chainOutcome_eq_or
    (hdeclared : ∀ item ∈ items, item.expr.canBeNull = false → ∀ k, item.expr.meaning.value env = some k →
      k.isNull = false) (ha : x.meaning.value env = some a) (hv : (x.anyEqual items).meaning.value env = some v)
    (hunknown : a.isNull → unknown) : chainOutcome x a env unknown (itemsMeaning items) =
      some (Truth.or (if unknown then none else some false) v.truth) := by
  induction items generalizing unknown v with
  | nil =>
    cases hv
    cases unknown <;> rfl
  | cons item rest ih =>
    obtain ⟨hitem, hrest⟩ := List.forall_mem_cons.1 hitems
    obtain ⟨hknown, hknowns⟩ := List.forall_mem_cons.1 hdeclared
    obtain ⟨k, u, hk, hu, htruth⟩ := value_anyEqual_cons hitem hx ha hv
    rw [htruth, itemsMeaning, chainOutcome_step hitem hk hunknown fun hc => hknown hc k hk]
    split
    · rename_i htrue
      rw [htrue]
      cases unknown <;> cases u.truth <;> rfl
    · rename_i hne
      rw [ih hrest hknowns hu fun hnull => by simp [hunknown hnull], Truth.or_unknown unknown hne]

theorem Expr.truth_anyEqual_of_isNull (hne : items ≠ []) (ha : x.meaning.value env = some a) (hnull : a.isNull)
    (hv : (x.anyEqual items).meaning.value env = some v) : v.truth = none := by
  induction items generalizing v with
  | nil => exact absurd rfl hne
  | cons item rest ih =>
    obtain ⟨hitem, hrest⟩ := List.forall_mem_cons.1 hitems
    obtain ⟨k, u, -, hu, htruth⟩ := value_anyEqual_cons hitem hx ha hv
    have hcompare : env.compare .eq x item.expr a k = none := by
      simp [Env.compare, Env.order?, CompareMode.order?, hnull, BinaryOp.comparesNull]
    rw [htruth, hcompare]
    cases rest with
    | nil =>
      cases hu
      rfl
    | cons next rest =>
      rw [ih hrest (List.cons_ne_nil _ _) hu]
      rfl

/-- Where IN over a list and the disjunction have values, these have the same truth value. -/
theorem Meaning.truth_inList {node : Identity} {w : Value}
    (hdeclared : ∀ item ∈ items, item.expr.canBeNull = false → ∀ k, item.expr.meaning.value env = some k →
      k.isNull = false) (hchain : (∃ item ∈ items, item.expr.isConstant .plain = false) ∨ items.length ≤ env.chained)
    (hv : (ofKind (.inList node x items)).meaning.value env = some v)
    (hw : (x.anyEqual items).meaning.value env = some w) : v.truth = w.truth := by
  obtain ⟨t, ht, rfl⟩ := Option.map_eq_some_iff.1 hv
  have hlooks : looksUp (itemsMeaning items) env = false := by
    simp only [looksUp, itemsMeaning_eq_map, List.all_map, List.length_map, Bool.and_eq_false_iff]
    refine hchain.imp (fun hvaries => ?_) fun hle => by simpa using hle
    obtain ⟨item, hitem, hconstant⟩ := hvaries
    exact List.all_eq_false.2 ⟨item, hitem, by simp [hconstant]⟩
  cases items with
  | nil =>
    cases hw
    cases ht
    rfl
  | cons item rest =>
    rw [listOutcome, hlooks] at ht
    obtain ⟨a, ha, ht⟩ := Option.bind_eq_some_iff.1 ht
    rw [meaning_expr, chainOutcome_eq_or hx hitems hdeclared ha hw fun hnull => hnull] at ht
    cases ht
    cases hnull : a.isNull with
    | true =>
      rw [truth_anyEqual_of_isNull hx hitems (List.cons_ne_nil _ _) ha hnull hw]
      rfl
    | false => rcases w.truth with _ | ⟨_ | _⟩ <;> rfl

end

end

/-! ## Scans -/

theorem map_eq_map_of_mapM {α β γ δ : Type} {f : α → Option β} {g : α → Option γ} {k : β → δ} {k' : γ → δ} {l : List α}
    {bs : List β} {cs : List γ} (hfg : ∀ a ∈ l, ∀ b c, f a = some b → g a = some c → k b = k' c)
    (hbs : l.mapM f = some bs) (hcs : l.mapM g = some cs) : bs.map k = cs.map k' := by
  refine List.ext_getElem? fun i => ?_
  rw [List.getElem?_map, List.getElem?_map]
  cases hi : l[i]? with
  | none =>
    have hle := List.getElem?_eq_none_iff.1 hi
    rw [List.getElem?_eq_none (length_of_mapM hbs ▸ hle), List.getElem?_eq_none (length_of_mapM hcs ▸ hle)]
    rfl
  | some a =>
    obtain ⟨b, hb, hbi⟩ := getElem?_of_mapM hbs hi
    obtain ⟨c, hc, hci⟩ := getElem?_of_mapM hcs hi
    rw [hbi, hci, Option.map_some, Option.map_some, hfg a (List.mem_of_getElem? hi) b c hb hc]

theorem Expr.anyEqual_scalar {fs : Functions} {cursors : Int → Prop} {items : List (Item Expr)}
    (hx : x.Scalar fs cursors) (hitems : ∀ item ∈ items, item.expr.Scalar fs cursors) :
    (x.anyEqual items).Scalar fs cursors := by
  have hequal {e : Expr} (he : e.Scalar fs cursors) : (ofKind (.binary .eq x e)).Scalar fs cursors :=
    .ofKind ⟨rfl, trivial⟩ (List.forall_mem_cons.2 ⟨hx, List.forall_mem_singleton.2 he⟩)
  induction items with
  | nil => exact .ofKind ⟨rfl, trivial⟩ (List.forall_mem_nil _)
  | cons item rest ih =>
    obtain ⟨hitem, hrest⟩ := List.forall_mem_cons.1 hitems
    cases rest with
    | nil => exact hequal hitem
    | cons next rest =>
      exact .ofKind ⟨rfl, trivial⟩ (List.forall_mem_cons.2 ⟨hequal hitem, List.forall_mem_singleton.2 (ih hrest)⟩)

/-- The operand is repeated, but it holds no IN of its own. -/
theorem Expr.anyEqual_identities (hx : x.identities = []) (items : List (Item Expr)) :
    (x.anyEqual items).identities = itemsIdentities items := by
  induction items with
  | nil => rfl
  | cons item rest ih =>
    cases rest with
    | nil => simp [anyEqual, ofKind, identities, itemsIdentities, hx]
    | cons next rest =>
      rw [itemsIdentities, ← ih]
      simp [anyEqual, ofKind, identities, hx]

/-- A scan of IN over a list of bare items that are compared in turn delivers the truth values of the disjunction of
the comparisons, and a branch on it is taken as these say. -/
theorem Gen.list_test_is_disjunction {catalog : Catalog} {config : Config} {setting : Gen.Setting} {t : Table}
    {cursor : Int} {store : Store} {params : List Value} {outer : List (Int × Cursor)} {node : Identity} {x : Expr}
    {items : List (Item Expr)} {rows rows' : Array (List Value)} (htame : catalog.collations.Tame)
    (hscalar : (Expr.ofKind (.inList node x items)).Scalar catalog.functions (setting.Reserves cursor))
    (hdistinct : (Expr.ofKind (.inList node x items)).identities.Nodup) (hids : x.identities = [])
    (hx : x.isVector = false) (hitems : ∀ item ∈ items, item.expr.Bare)
    (hchain : (∃ item ∈ items, item.expr.isConstant .plain = false) ∨ items.length ≤ config.chainedItems)
    (hhonest : ∀ r ∈ store.rows t.id, ∀ item ∈ items,
      item.expr.Every (Expr.Honest ((Env.under setting catalog config params outer).at cursor r)))
    (houter : ∀ q ∈ outer, q.2.isStored = true)
    (hin : (Gen.forEachRow setting t cursor 1 (Gen.outcomeRow [.value (.ofKind (.inList node x items))])).Delivers
      catalog config store params outer rows)
    (hor : (Gen.forEachRow setting t cursor 1 (Gen.outcomeRow [.value (x.anyEqual items)])).Delivers
      catalog config store params outer rows') :
    rows'.size = (store.rows t.id).length ∧ rows.map (·.map Value.truth) = rows'.map (·.map Value.truth) ∧
      ∀ wanted jumpIfNull branches,
        (Gen.forEachRow setting t cursor 1 (Gen.outcomeRow
          [.branch (.ofKind (.inList node x items)) wanted jumpIfNull])).Delivers catalog config store params outer
            branches →
          branches = rows'.map (·.map fun v => .ofBool (takes wanted jumpIfNull v.truth)) := by
  have hparts := hscalar.children
  obtain ⟨hoperand, hrest⟩ := List.forall_mem_cons.1 hparts
  have hscalars : ∀ item ∈ items, item.expr.Scalar catalog.functions (setting.Reserves cursor) :=
    List.forall_mem_map.1 hrest
  have hids' : (x.anyEqual items).identities.Nodup := by
    rw [Expr.anyEqual_identities hids]
    simp only [Expr.ofKind, Expr.identities, hids, List.nil_append] at hdistinct
    exact (List.nodup_cons.1 hdistinct).2
  obtain ⟨vss, hvss, rfl⟩ := Gen.Delivers.outcomes [.value _] hin htame (List.forall_mem_singleton.2 hscalar)
    (by simpa [Outcome.expr] using hdistinct) houter
  obtain ⟨wss, hwss, rfl⟩ := Gen.Delivers.outcomes [.value _] hor htame
    (List.forall_mem_singleton.2 (Expr.anyEqual_scalar hoperand hscalars)) (by simpa [Outcome.expr] using hids') houter
  -- row by row, the two values have the same truth value
  have htruths : vss.map (·.map Value.truth) = wss.map (·.map Value.truth) := by
    refine map_eq_map_of_mapM (fun r hr vs ws hvs hws => ?_) hvss hwss
    rw [List.map_singleton, rowValues_single] at hvs hws
    obtain ⟨v, hv, rfl⟩ := Option.map_eq_some_iff.1 hvs
    obtain ⟨w, hw, rfl⟩ := Option.map_eq_some_iff.1 hws
    rw [List.map_singleton, List.map_singleton,
      Meaning.truth_inList hx hitems (fun item hitem hc k hk => ?_) hchain hv hw]
    exact Value.isNull_of_isProper (Expr.isProper_of_canBeNull (hscalars item hitem) (hhonest r hr item hitem) hc hk)
  refine ⟨by simpa using length_of_mapM hwss, by simpa using congrArg List.toArray htruths,
    fun wanted jumpIfNull branches hbranch => ?_⟩
  obtain ⟨bss, hbss, rfl⟩ := Gen.Delivers.outcomes [.branch _ wanted jumpIfNull] hbranch htame
    (List.forall_mem_singleton.2 hscalar) (by simpa [Outcome.expr] using hdistinct) houter
  have hagree := mapM_eq_some_map (rowValues_branch _ wanted jumpIfNull) hvss
  cases hbss.symm.trans hagree
  have htakes := congrArg (List.map (List.map fun t => Value.ofBool (takes wanted jumpIfNull t))) htruths
  simp only [List.map_map] at htakes
  simpa [Function.comp_def] using congrArg List.toArray htakes

namespace Example

def twoAndLess : List (Item Expr) :=
  [⟨literal 2, false, 0⟩, ⟨.ofKind (.binary .sub column (literal 1)), false, 0⟩]

theorem less_every {P : Expr → Prop} (hless : P (.ofKind (.binary .sub column (literal 1)))) (hcolumn : P column)
    (hone : P (literal 1)) : (ofKind (.binary .sub column (literal 1))).Every P :=
  .ofKind hless (List.forall_mem_cons.2 ⟨.ofKind hcolumn (List.forall_mem_nil _),
    List.forall_mem_singleton.2 (.ofKind hone (List.forall_mem_nil _))⟩)

end Example

open Example in
/-- a IN (2, a - 1) is false, true and NULL on the rows 1, 2 and NULL, as a = 2 OR a = a - 1 is. -/
theorem Gen.list_test_is_disjunction_less :
    ∃ rows, (Gen.forEachRow {} table 0 1 (Gen.outcomeRow
        [.value (.ofKind (.inList 0 Example.column twoAndLess))])).Delivers .empty {} store [] [] rows ∧
      rows.map (·.map Value.truth) = #[[some false], [some true], [none]] := by
  have hin := Gen.delivers_of_delivered?
    (show (Gen.forEachRow {} table 0 1 (Gen.outcomeRow
      [.value (.ofKind (.inList 0 Example.column twoAndLess))])).delivered? .empty {} store [] =
        some #[[.integer 0], [.integer 1], [.null]] by decide +kernel)
    (by decide +kernel) (by decide +kernel)
  have hor := Gen.delivers_of_delivered?
    (show (Gen.forEachRow {} table 0 1 (Gen.outcomeRow [.value (Example.column.anyEqual twoAndLess)])).delivered?
      .empty {} store [] = some #[[.integer 0], [.integer 1], [.null]] by decide +kernel)
    (by decide +kernel) (by decide +kernel)
  have hless := less_every (P := Expr.ScalarNode Catalog.empty.functions (Gen.Setting.Reserves {} 0)) ⟨rfl, trivial⟩
    ⟨rfl, fun _ => .inl (Int.le_refl 0)⟩ ⟨rfl, trivial⟩
  have hscalar : (Expr.ofKind (.inList 0 Example.column twoAndLess)).Scalar Catalog.empty.functions
      (Gen.Setting.Reserves {} 0) :=
    .ofKind ⟨rfl, trivial⟩ (List.forall_mem_cons.2 ⟨column_scalar, List.forall_mem_cons.2 ⟨literal_scalar 2,
      List.forall_mem_singleton.2 hless⟩⟩)
  obtain ⟨-, htruths, -⟩ := Gen.list_test_is_disjunction (Collations.tame_of_no_factory rfl) hscalar
    (by decide) rfl rfl
    (List.forall_mem_cons.2 ⟨⟨rfl, rfl, rfl, rfl⟩, List.forall_mem_singleton.2 ⟨rfl, rfl, rfl, rfl⟩⟩)
    (.inr (by decide))
    (fun r _ => List.forall_mem_cons.2 ⟨.ofKind (by rintro _ ⟨⟩) (List.forall_mem_nil _),
      List.forall_mem_singleton.2 (less_every (by rintro _ ⟨⟩) (by rintro _ _ ⟨⟩) (by rintro _ ⟨⟩))⟩)
    (List.forall_mem_nil _) hin hor
  exact ⟨_, hin, htruths.trans (by decide +kernel)⟩

namespace Example

/-- '05' || (SELECT ''). -/
def joinedText : Expr :=
  .ofKind (.binary .concat (.ofKind (.string "05")) (.ofKind (.subquery 1 (selectOf 1 [.ofKind (.string "")] [] none))))

/-- '05' IN (SELECT a FROM t) and '0' || '5'. -/
def converting : List (Item Expr) :=
  [⟨.ofKind (.inSelect 2 (.ofKind (.string "05")) (selectOf 3 [column] [⟨table, 0, none⟩] none)), false, 0⟩,
    ⟨.ofKind (.binary .concat (.ofKind (.string "0")) (.ofKind (.string "5"))), false, 0⟩]

end Example

open Example in
/-- The first item converts the constant '05' where it is, which the disjunction computes its operand from again: it
compares '5' with '05'. IN has computed the operand before. -/
theorem Gen.list_test_ne_disjunction :
    (Gen.evaluation { cursors := some 1 } [.ofKind (.inList 4 joinedText converting)]).delivered? .empty {}
        ⟨[(1, [⟨1, [.integer 1]⟩])]⟩ [] = some #[[.integer 1]] ∧
      (Gen.evaluation { cursors := some 1 } [joinedText.anyEqual converting]).delivered? .empty {}
        ⟨[(1, [⟨1, [.integer 1]⟩])]⟩ [] = some #[[.integer 0]] := by
  decide +kernel

end ScalarSql
