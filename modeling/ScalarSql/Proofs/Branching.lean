import Mathlib.Data.List.Nodup
import Mathlib.Data.List.Pairwise
import ScalarSql.Proofs.Code.Scan

/-!
# Values and branches

The code of an expression computes its value, or it branches on its truth without computing the value.
Two scans of the same table, one that delivers the value for each row and one that delivers whether a
branch is taken, agree: a branch is taken exactly if the truth of the value is the wanted one, or if it
is unknown and the branch is to be taken then (`Gen.branches_eq_truth_of_values`).

The agreement is that of the meaning of an expression (`Expr.meaning_agrees`), which both kinds of code
realize. It is for expressions that call no functions: their code copies one register at a time, so that
no jump can lead behind a copy of several.
-/

namespace ScalarSql

open Catalog Compiler Gen Machine

/-! ## Storing whether a branch is taken -/

section

variable {σ : Scope} {K : Known} {ids : List Identity}

theorem Loads.branchOutcome {code : Coded} {wanted jumpIfNull : Bool} {d : Env → Option Bool}
    (h : Jumps σ K ids (fun l => code.branch wanted l jumpIfNull) d) :
    Loads σ K ids (branchOutcome code wanted jumpIfNull) fun env => (d env).map .ofBool := by
  intro c c' reg hmakes hc hreg hids
  simp only [Gen.branchOutcome, Gen.makes_bind] at hmakes
  obtain ⟨taken, c1, hlabel, ⟨⟩, c2, hone, ⟨⟩, c3, hbranch, ⟨⟩, c4, hzero, hresolve⟩ := hmakes
  have hload (b : Bool) : Loads σ K [] _ _ := .boolean b
  obtain ⟨s1, hnew⟩ := label_spec hlabel hc
  obtain ⟨s2, hrun2⟩ := hload true hone s1.good (hreg.step s1) (.nil c1)
  obtain ⟨s3, hrun3⟩ := h hbranch s2.good (s2.made hnew.made) ((hids.step s1).step s2)
  have hopen3 := ((hreg.step s1).step s2).step s3
  obtain ⟨s4, hrun4⟩ := hload false hzero s3.good hopen3 (.nil c3)
  obtain ⟨s5, k5, hsize5, hplace⟩ := hnew.resolve hresolve s1 (s2.trans (s3.trans s4))
  refine ⟨s5.mono (by simp), fun w havoid m ready => ?_⟩
  have hrest3 := s4.continues.trans k5
  have hrest2 := s3.continues.trans hrest3
  refine ready.silent s1 (s2.continues.trans hrest2).grows hnew.size fun ready1 => ?_
  refine ready1.bindValue s2 hrest2 (hrun2 w havoid) havoid.only ((hreg.step s1).step s2).taken havoid.lent (by simp)
    fun v hv m2 ready2 => ?_
  cases hv
  have hset := (ready2.held _ List.mem_cons_self).2.2
  -- whether it jumps or not, the branch leaves the register as it is
  have hmore : K ⊆ (reg, .integer 1) :: K := List.subset_cons_self _ _
  have hbranches := (hrun3 w).hold hmore
  refine ready2.bindBranch s3 hrest3 (fun ready => (hbranches m2 ready).frame (r := reg)
    (fun hs => hs.elim (fun hf => ((hreg.step s1).step s2).taken hf.1) havoid.lent) id) (fun _ hf => hf.elim)
    (fun hnone => by simp [hnone]) (fun m3 hb hholds => ?_) fun m3 hb hholds ready3 => ?_
  · exact ⟨.ofBool true, by simp [hb], hplace _ ready.settled, hholds.2.trans hset⟩
  · have hcleared := ready3.before s4 k5.grows k5.guarded hsize5 ((hrun4 w havoid).hold hmore)
    exact hcleared.congr (by simp [hb])

end

/-! ## The scope of an expression -/

namespace Expr

/-- The first expression is the second one or below it. -/
inductive Part (x : Expr) : Expr → Prop
  | self : Part x x
  /-- It is part of an expression directly below. -/
  | child {e y : Expr} (hy : y ∈ e.kind.children) (h : Part x y) : Part x e

theorem Part.of_child {e x y : Expr} (hy : y.Part e) (hx : x ∈ y.kind.children) : x.Part e := by
  induction hy with
  | self => exact .child hx .self
  | child hz _ ih => exact .child hz ih

theorem Every.part {P : Expr → Prop} {e x : Expr} (h : e.Every P) (hx : x.Part e) : x.Every P := by
  induction hx with
  | self => exact h
  | child hy _ ih => exact ih (h.children _ hy)

def ownIdentity (e : Expr) : Option Identity :=
  match e.kind with
  | .inList id _ _ => some id
  | _ => none

variable {fs : Functions} {cursors : Int → Prop} {e x y : Expr} {id : Identity}

theorem armsIdentities_eq_flatMap (arms : List (Expr × Expr)) :
    armsIdentities arms = (arms.flatMap fun arm => [arm.1, arm.2]).flatMap identities := by
  induction arms with
  | nil => rfl
  | cons arm rest ih =>
    rw [armsIdentities, ih]
    simp

theorem identities_eq (h : e.ScalarNode fs cursors) :
    e.identities = e.ownIdentity.toList ++ e.kind.children.flatMap identities := by
  obtain ⟨info, kind⟩ := e
  cases kind with
  | column ref =>
    obtain ⟨cursor, column, table, fixed⟩ := ref
    cases fixed <;> simp [identities, optionIdentities, ownIdentity]
  | caseOf base arms otherwise =>
    have hoption (o : Option Expr) : optionIdentities o = o.toList.flatMap identities := by
      cases o <;> simp [optionIdentities]
    simp [identities, ownIdentity, armsIdentities_eq_flatMap, hoption]
  | aggCall | register | inSelect | selectColumn | ifNullRow => exact h.2.elim
  | _ =>
    simp [identities, ownIdentity, itemsIdentities_eq_flatMap, List.flatMap_map]

theorem mem_identities_of_part (he : e.Scalar fs cursors) (hx : x.Part e) (hid : x.ownIdentity = some id) :
    id ∈ e.identities := by
  induction hx with
  | self => simp [identities_eq he.here, hid]
  | child hy _ ih =>
    rw [identities_eq he.here]
    exact List.mem_append_right _ (List.mem_flatMap.2 ⟨_, hy, ih (he.children _ hy)⟩)

/-- Where identities are distinct, each is that of one IN node. -/
theorem part_unique (he : e.Scalar fs cursors) (hdistinct : e.identities.Nodup) (hx : x.Part e) (hy : y.Part e)
    (hxid : x.ownIdentity = some id) (hyid : y.ownIdentity = some id) : x = y := by
  induction e using Expr.children_induction with
  | step info kind ih =>
    rw [identities_eq he.here, List.nodup_append, List.nodup_flatMap] at hdistinct
    obtain ⟨-, ⟨hparts, hapart⟩, hhere⟩ := hdistinct
    have hbelow {z a : Expr} (ha : a ∈ kind.children) (hz : z.Part a) (hzid : z.ownIdentity = some id) :
        id ∈ kind.children.flatMap identities :=
      List.mem_flatMap.2 ⟨a, ha, mem_identities_of_part (he.children a ha) hz hzid⟩
    cases hx with
    | self =>
      cases hy with
      | self => rfl
      | child hb hy => exact absurd rfl (hhere id (by simp [hxid]) id (hbelow hb hy hyid))
    | @child _ a ha hx =>
      cases hy with
      | self => exact absurd rfl (hhere id (by simp [hyid]) id (hbelow ha hx hxid))
      | @child _ b hb hy =>
        by_cases hab : a = b
        · subst hab
          exact ih a ha (he.children a ha) (hparts a ha) hx hy
        · -- two expressions next to each other have no identity in common
          have hsymm : Std.Symm (Function.onFun List.Disjoint identities) := ⟨fun _ _ h => List.disjoint_symm h⟩
          have hdisjoint := hapart.forall ha hb hab
          exact (hdisjoint (mem_identities_of_part (he.children a ha) hx hxid)
            (mem_identities_of_part (he.children b hb) hy hyid)).elim

end Expr

/-- Expressions of the scope may refer to what the catalog has and to the rows of a scan under the cursor. -/
structure Scope.Suits (σ : Scope) (catalog : Catalog) (setting : Setting) (cursor : Int) : Prop where
  functions : σ.functions = catalog.functions
  collation : σ.collation = catalog.collations.answer
  cursors : σ.cursors = setting.Reserves cursor
  own : σ.own = setting.own

namespace Scope.Suits

variable {σ : Scope} {catalog : Catalog} {setting : Setting} {cursor : Int} (h : σ.Suits catalog setting cursor)

include h

theorem fits (htame : catalog.collations.Tame) : catalog.Fits σ :=
  ⟨h.functions.symm, htame, fun name => by rw [h.collation]⟩

theorem covers : setting.Covers cursor σ := ⟨fun _ hn => h.cursors ▸ hn, h.own⟩

theorem current : σ.cursors cursor := by
  rw [h.cursors]
  exact .inl (Int.le_refl _)

theorem unmerged (hpart : σ.part = Expr.Direct catalog.functions) : σ.Unmerged := by
  refine .inr fun x hx => ?_
  rw [hpart] at hx
  rwa [h.functions]

end Scope.Suits

namespace Expr

variable {e : Expr} {setting : Setting} {cursor : Int}

/-- A scalar expression is plain in a scope of its own, in which only nodes like its own are compiled. -/
theorem exists_scope_of_every (catalog : Catalog) (aside : Int → Prop)
    (he : e.Scalar catalog.functions (setting.Reserves cursor)) (hdistinct : e.identities.Nodup) {part : Expr → Prop}
    (zero : part (.ofKind (.integer (.inline 0)))) (hpart : e.Every part) :
    ∃ σ : Scope, σ.Suits catalog setting cursor ∧ σ.aside = aside ∧ σ.part = part ∧ e.Plain σ := by
  classical
  let node (id : Identity) : Option Expr :=
    if h : ∃ x : Expr, x.Part e ∧ x.ownIdentity = some id then some h.choose else none
  let σ : Scope :=
    { functions := catalog.functions
      collation := catalog.collations.answer
      cursors := setting.Reserves cursor
      own := setting.own
      placed := Setting.reserves_own
      part
      zero
      node
      aside }
  have hplain (y : Expr) (hy : y.Part e) (hs : y.Scalar catalog.functions (setting.Reserves cursor))
      (hf : y.Every part) : y.Plain σ := by
    induction y using Expr.children_induction with
    | step info kind ih =>
      refine .node ⟨hs.here, hf.here, fun id operand items hkind => ?_⟩ fun x hx =>
        ih x hx (hy.of_child hx) (hs.children x hx) (hf.children x hx)
      have hown : (Expr.node info kind).ownIdentity = some id := by rw [ownIdentity, hkind]
      have hfound : ∃ x : Expr, x.Part e ∧ x.ownIdentity = some id := ⟨_, hy, hown⟩
      show node id = _
      simp only [node, dif_pos hfound, Option.some.injEq]
      exact part_unique he hdistinct hfound.choose_spec.1 hy hfound.choose_spec.2 hown
  exact ⟨σ, ⟨rfl, rfl, rfl, rfl⟩, rfl, rfl, hplain e .self he hpart⟩

/-- An expression that calls no function is plain in a scope without calls. -/
theorem exists_scope (catalog : Catalog) (he : e.Scalar catalog.functions (setting.Reserves cursor))
    (hcalls : e.Every fun x => ∀ name args window, x.kind ≠ .call name args window) (hdistinct : e.identities.Nodup) :
    ∃ σ : Scope, σ.Suits catalog setting cursor ∧ (∀ r, ¬ σ.aside r) ∧ σ.Unmerged ∧ e.Plain σ := by
  obtain ⟨σ, hσ, haside, hpart, hplain⟩ :=
    exists_scope_of_every catalog (fun _ => False) he hdistinct (by simp [Expr.ofKind]) hcalls
  refine ⟨σ, hσ, by simp [haside], .inl fun x hx => ?_, hplain⟩
  rwa [hpart] at hx

end Expr

/-! ## Scans of values and of branches -/

theorem FillsRow.single {σ : Scope} {K : Known} {ids : List Identity} {P : Prop} {hoisting : Bool} {g : Int → Gen Unit}
    {d : Reading} {reg : Int} (h : Loads σ K ids g d) : FillsRow σ K ids P hoisting (g reg) reg [d] := by
  have hrow : FillsRow σ K (ids ++ []) P hoisting (do g reg; pure ()) reg [d] := .cons (.load h) fun _ => .nil
  simpa using hrow

/-- The machine before a program starts, with cursors that the caller opened on tables and indexes. -/
def Machine.startUnder (p : Program) (catalog : Catalog) (store : Store) (params : List Value)
    (outer : List (Int × Cursor)) : Machine :=
  { start p catalog store params with cursors := outer }

/-- The environment in which a program starts. -/
def Env.under (setting : Setting) (catalog : Catalog) (config : Config) (params : List Value)
    (outer : List (Int × Cursor)) : Env where
  functions := catalog.functions
  collation := catalog.collations.answer
  chained := config.chainedItems
  params := params
  row n := (outer.lookup n).map Cursor.view
  own := setting.own

section

variable {σ : Scope} {catalog : Catalog} {config : Config} {params : List Value} {outer : List (Int × Cursor)}
  {store : Store} {p : Program} {cursor : Int} {setting : Setting} {t : Table} {c' : Compiler} {k : Nat}
  {m : Machine}

theorem Scope.Suits.env (h : σ.Suits catalog setting cursor) (htame : catalog.collations.Tame) :
    (Env.under setting catalog config params outer).Fits σ :=
  ⟨h.functions.symm, h.collation.symm, h.own.symm, rfl, fun _ _ => Collations.answer_congr htame, rfl, rfl⟩

theorem Machine.startUnder_stored (houter : ∀ q ∈ outer, q.2.isStored) {n : Int} {cur : Cursor}
    (h : (startUnder p catalog store params outer).cursor? n = some cur) : cur.isStored := by
  have hlookup : outer.lookup n = some cur := h
  obtain ⟨before, behind, hsplit, -⟩ := List.lookup_eq_some_iff.1 hlookup
  exact houter (n, cur) (by simp [hsplit])

theorem Machine.startUnder_fresh (houter : ∀ q ∈ outer, q.2.isStored) :
    Finishes.Fresh σ (Env.under setting catalog config params outer) (startUnder p catalog store params outer) := by
  have hnone (n : Int) (t : Nat) (cs : List (Option Collation)) :
      ¬ (startUnder p catalog store params outer).On n t cs := by
    intro hon
    obtain ⟨cur, hcur, hanchor⟩ := Option.map_eq_some_iff.1 hon
    have hstored := startUnder_stored houter hcur
    rw [Cursor.anchored_of_isStored hstored] at hanchor
    rw [hanchor] at hstored
    cases hstored
  exact
    { params := rfl
      rows := fun _ _ => rfl
      stored := fun _ _ _ hcur => startUnder_stored houter hcur
      pending := rfl
      visited := rfl
      separate := ⟨fun n t cs hon => absurd hon (hnone n t cs), fun n k t cs _ hon => absurd hon (hnone n t cs)⟩ }

section

variable {ids : List Identity} {body : Int → Gen Unit} {d : Reading} (hσ : σ.Suits catalog setting cursor)
  (htame : catalog.collations.Tame) (haside : ∀ r, ¬ σ.aside r) (hmerged : σ.Unmerged)
  (hbody : Loads σ [] ids body d) (hids : ids.Nodup)
  (h : (forEachRow setting t cursor [d].length body).Makes (.new catalog config) p c') (hwhole : p.CopiesWhole)
  (hsize : p.ops.size < 2147483648) (houter : ∀ q ∈ outer, q.2.isStored)
  (hrun : runFrom p.ops k 0 (.startUnder p catalog store params outer) = (.ok (), m))

include hσ htame haside hbody hids h

include hmerged in
theorem Gen.loads_copiesWhole : p.CopiesWhole := by
  have hfills : FillsRow σ [] ids False config.hoistConstants (body 1) 1 [d] := .single hbody
  exact forEachRow_copiesWhole h (hσ.fits htame) (fun r hr => absurd hr (haside r)) hfills.start hids hσ.covers
    hσ.current hmerged

include hsize houter hrun

include hwhole in
/-- A scan whose body loads a value delivers it for each row. -/
theorem Gen.forEachRow_loads :
    ∃ vss, (store.rows t.id).mapM (rowValues (.under setting catalog config params outer) cursor [d]) = some vss ∧
      m.rows = vss.toArray := by
  have hfills : FillsRow σ [] ids False config.hoistConstants (body 1) 1 [d] := .single hbody
  obtain ⟨vss, hvss, hdelivered⟩ := forEachRow_rows h (hσ.fits htame) (fun r hr => absurd hr (haside r))
    hfills.start hids hσ.covers hσ.current hwhole hsize (hσ.env htame) rfl (startUnder_fresh houter) hrun
  exact ⟨vss, hvss, hdelivered.trans Array.empty_append⟩

include hmerged in
theorem Gen.forEachRow_unmerged :
    ∃ vss, (store.rows t.id).mapM (rowValues (.under setting catalog config params outer) cursor [d]) = some vss ∧
      m.rows = vss.toArray := by
  have hwhole := loads_copiesWhole hσ htame haside hmerged hbody hids h
  exact forEachRow_loads hσ htame haside hbody hids h hwhole hsize houter hrun

end

theorem Gen.forEachRow_values {e : Expr} (htame : catalog.collations.Tame)
    (hscalar : e.Scalar catalog.functions (setting.Reserves cursor)) (hdistinct : e.identities.Nodup)
    (h : (forEachRow setting t cursor 1 e.coded.exact).Makes (.new catalog config) p c') (hwhole : p.CopiesWhole)
    (hsize : p.ops.size < 2147483648) (houter : ∀ q ∈ outer, q.2.isStored)
    (hrun : runFrom p.ops k 0 (.startUnder p catalog store params outer) = (.ok (), m)) :
    ∃ vss, (store.rows t.id).mapM (rowValues (.under setting catalog config params outer) cursor [e.meaning.value]) =
      some vss ∧ m.rows = vss.toArray := by
  have hall : e.Every fun _ => True := hscalar.mono fun _ _ => trivial
  obtain ⟨σ, hσ, haside, -, hplain⟩ :=
    e.exists_scope_of_every catalog (fun _ => False) hscalar hdistinct trivial hall
  rw [← e.coded_expr] at hdistinct
  exact forEachRow_loads hσ htame (by simp [haside]) (hplain.realizes []).value.exact hdistinct h hwhole hsize houter
    hrun

/-- In the program of a scan no copy of several registers can be entered from elsewhere, if the parts of the value are
computed into the registers that are wanted: then there is none. -/
theorem Gen.copiesWhole_of_direct {e : Expr} (htame : catalog.collations.Tame)
    (hscalar : e.Scalar catalog.functions (setting.Reserves cursor)) (hdistinct : e.identities.Nodup)
    (hdirect : e.Every (Expr.Direct catalog.functions))
    (h : (forEachRow setting t cursor 1 e.coded.exact).Makes (.new catalog config) p c') : p.CopiesWhole := by
  obtain ⟨σ, hσ, haside, hpart, hplain⟩ :=
    e.exists_scope_of_every catalog (fun _ => False) hscalar hdistinct trivial hdirect
  rw [← e.coded_expr] at hdistinct
  exact loads_copiesWhole hσ htame (by simp [haside]) (hσ.unmerged hpart) (hplain.realizes []).value.exact hdistinct h

theorem mapM_eq_some_map {α β γ : Type} {f : α → Option β} {g : α → Option γ} {k : β → γ}
    (hfg : ∀ a b, f a = some b → g a = some (k b)) {l : List α} {bs : List β} (h : l.mapM f = some bs) :
    l.mapM g = some (bs.map k) := by
  induction l generalizing bs with
  | nil =>
    cases h
    rfl
  | cons a l ih =>
    rw [List.mapM_cons] at h
    obtain ⟨b, hb, h⟩ := Option.bind_eq_some_iff.1 h
    obtain ⟨rest, hrest, h⟩ := Option.bind_eq_some_iff.1 h
    cases h
    rw [List.mapM_cons, hfg a b hb, ih hrest]
    rfl

theorem rowValues_single (env : Env) (cursor : Int) (d : Reading) (r : Row) :
    rowValues env cursor [d] r = (d (env.at cursor r)).map ([·]) := by
  unfold rowValues
  cases hd : d (env.at cursor r) <;> simp [hd]

theorem rowValues_branch {env : Env} (e : Expr) (wanted jumpIfNull : Bool) (r : Row) (vs : List Value)
    (h : rowValues env cursor [e.meaning.value] r = some vs) :
    rowValues env cursor [fun env => (e.meaning.branch wanted jumpIfNull env).map .ofBool] r =
      some (vs.map fun v => .ofBool (takes wanted jumpIfNull v.truth)) := by
  rw [rowValues_single] at h ⊢
  obtain ⟨v, hv, rfl⟩ := Option.map_eq_some_iff.1 h
  rw [(e.meaning_agrees _).branch v hv]
  rfl

/-- A branch on an expression without calls is taken exactly if the truth of its value is the wanted one, or
is unknown and the branch is to be taken then. -/
theorem Gen.branches_eq_truth_of_values {setting : Gen.Setting} {t : Table} {cursor : Int} {e : Expr}
    {wanted jumpIfNull : Bool} {pv pb : Program} {cv cb : Compiler} {kv kb : Nat} {mv mb : Machine}
    (htame : catalog.collations.Tame) (hscalar : e.Scalar catalog.functions (setting.Reserves cursor))
    (hcalls : e.Every fun x => ∀ name args window, x.kind ≠ .call name args window)
    (hdistinct : e.identities.Nodup)
    (hv : (Gen.forEachRow setting t cursor 1 e.coded.exact).Makes (.new catalog config) pv cv)
    (hb : (Gen.forEachRow setting t cursor 1 (Gen.branchOutcome e.coded wanted jumpIfNull)).Makes
      (.new catalog config) pb cb)
    (hsizev : pv.ops.size < 2147483648) (hsizeb : pb.ops.size < 2147483648)
    (houter : ∀ q ∈ outer, q.2.isStored = true)
    (hrunv : Machine.runFrom pv.ops kv 0 (.startUnder pv catalog store params outer) = (.ok (), mv))
    (hrunb : Machine.runFrom pb.ops kb 0 (.startUnder pb catalog store params outer) = (.ok (), mb)) :
    mv.rows.size = (store.rows t.id).length ∧
      mb.rows = mv.rows.map (·.map fun v => .ofBool (takes wanted jumpIfNull v.truth)) := by
  obtain ⟨σ, hσ, haside, hmerged, hplain⟩ := e.exists_scope catalog hscalar hcalls hdistinct
  have hrealizes := hplain.realizes []
  have hids := hdistinct
  rw [← e.coded_expr] at hids
  -- each scan delivers what the meaning of the expression says
  obtain ⟨vss, hvss, hrowsv⟩ := Gen.forEachRow_unmerged hσ htame haside hmerged
    hrealizes.value.exact hids hv hsizev houter hrunv
  obtain ⟨wss, hwss, hrowsb⟩ := Gen.forEachRow_unmerged hσ htame haside hmerged
    (.branchOutcome (hrealizes.branch wanted jumpIfNull)) hids hb hsizeb houter hrunb
  have hagree := mapM_eq_some_map (rowValues_branch e wanted jumpIfNull) hvss
  rw [hwss] at hagree
  cases hagree
  refine ⟨?_, by rw [hrowsb, hrowsv]; simp⟩
  rw [hrowsv]
  exact length_of_mapM hvss

end

namespace Example

def table : Table where
  id := 1
  name := "t"
  columns := [{ name := "a", declaredType := some "INT" }]
  rowidAlias := none
  indexes := []

def column : Expr := .ofKind (.column ⟨0, 0, some table, none⟩)

def literal (n : Int32) : Expr := .ofKind (.integer (.inline n))

/-- NOT (a IN (2, NULL)) over the rows of the table. -/
def notIn : Expr :=
  .ofKind (.unary .not (.ofKind (.inList 0 (.ofKind (.column ⟨0, 0, some table, none⟩))
    [⟨literal 2, false, 0⟩, ⟨.ofKind .null, false, 0⟩])))

def store : Store := ⟨[(1, [⟨1, [.integer 1]⟩, ⟨2, [.integer 2]⟩, ⟨3, [.null]⟩])]⟩

theorem column_scalar : column.Scalar empty.functions (Setting.Reserves {} 0) :=
  .ofKind ⟨rfl, fun _ => .inl (Int.le_refl 0)⟩ (List.forall_mem_nil _)

theorem literal_scalar (n : Int32) : (literal n).Scalar empty.functions (Setting.Reserves {} 0) :=
  .ofKind ⟨rfl, trivial⟩ (List.forall_mem_nil _)

theorem notIn_scalar : notIn.Scalar empty.functions (Setting.Reserves {} 0) := by
  simp [notIn, Expr.scalar_ofKind, Expr.ScalarNode, literal, Setting.Reserves]

theorem notIn_callFree : notIn.Every fun x => ∀ name args window, x.kind ≠ .call name args window := by
  simp [notIn, Expr.every_ofKind, literal]

end Example

open Example in
/-- A branch that is taken on false and on unknown is taken for each row: the values are NULL, 0 and NULL. -/
theorem Gen.branches_eq_truth_of_values_not_in :
    ∃ pv cv pb cb mv mb,
      (Gen.forEachRow {} table 0 1 notIn.coded.exact).Makes (.new .empty {}) pv cv ∧
      (Gen.forEachRow {} table 0 1 (Gen.branchOutcome notIn.coded false true)).Makes (.new .empty {}) pb cb ∧
      pv.run .empty store [] = (.ok (), mv) ∧ pb.run .empty store [] = (.ok (), mb) ∧
      mv.rows = #[[.null], [.integer 0], [.null]] ∧
      mb.rows = #[[.integer 1], [.integer 1], [.integer 1]] := by
  obtain ⟨pv, cv, mv, hv, hrunv, hrowsv⟩ := Gen.of_delivered?
    (show (Gen.forEachRow {} table 0 1 notIn.coded.exact).delivered? .empty {} store [] =
      some #[[.null], [.integer 0], [.null]] by decide +kernel)
  obtain ⟨pb, cb, mb, hb, hrunb, -⟩ := Gen.of_delivered?
    (show (Gen.forEachRow {} table 0 1 (Gen.branchOutcome notIn.coded false true)).delivered? .empty {} store [] =
      some #[[.integer 1], [.integer 1], [.integer 1]] by decide +kernel)
  have hagree := Gen.branches_eq_truth_of_values (Collations.tame_of_no_factory rfl) notIn_scalar
    notIn_callFree (by decide) hv hb (Gen.size_lt_of_makes hv (by decide +kernel))
    (Gen.size_lt_of_makes hb (by decide +kernel)) (List.forall_mem_nil _) hrunv hrunb
  refine ⟨pv, cv, pb, cb, mv, mb, hv, hb, hrunv, hrunb, hrowsv, ?_⟩
  rw [hagree.2, hrowsv]
  decide +kernel

/-- The program that fills a row of the statement's own with a text and runs a body over it. -/
def Gen.onOwnRow (text : String) (body : (reg : Int) → Gen Unit) : Gen Program := do
  startIn {}
  let row ← allocRegs 2
  emit (.of .text 0 (row + 1) 0 (.text text))
  modify fun c => { c with ownRow := some (.registers (row + 1)) }
  let out ← allocReg
  body out
  emit (.of .resultRow out 1)
  finish

namespace Example

def ownColumn : Expr := .ofKind (.column ⟨-1, 0, some table, none⟩)

/-- a IN (1, 2, 3) AND 0 OR a || 'x' = '05x' over the statement's own row. -/
def inOrText : Expr :=
  .ofKind (.binary .or (.ofKind (.binary .and (.ofKind (.inList 0 ownColumn
      [⟨literal 1, false, 0⟩, ⟨literal 2, false, 0⟩, ⟨literal 3, false, 0⟩])) (literal 0)))
    (.ofKind (.binary .eq (.ofKind (.binary .concat ownColumn (.ofKind (.string "x")))) (.ofKind (.string "05x")))))

end Example

open Example in
/-- Over a row of the statement's own, values and branches differ: IN converts the column in its register, so
that the text 05 is the number 5 in the second comparison. A branch leaves out the IN, which AND 0 decides. -/
theorem Gen.branch_ne_truth_of_value_own_row :
    (Gen.onOwnRow "05" inOrText.coded.exact).delivered? .empty {} .empty [] = some #[[.integer 0]] ∧
      (Gen.onOwnRow "05" (Gen.branchOutcome inOrText.coded true false)).delivered? .empty {} .empty [] =
        some #[[.integer 1]] := by
  decide +kernel

end ScalarSql
