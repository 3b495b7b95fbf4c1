import ScalarSql.Proofs.Resolution.Scopes

/-!
# Arms of a compound

The arm before a sub-select is resolved with the FROM clause of the sub-select around it. It comes out as it would
standing alone, if that clause has none of the names that the arm looks for outside of itself. Then the arms are
resolved one by one, in the same scopes. Otherwise a name may be bound to a table of the wrong arm.

The proof puts a clause between the clauses around a tree. One that has none of the names that are looked for
there changes nothing but the numbers of the clauses inside of it.
-/

namespace ScalarSql

namespace Resolve

/-- The reach after a clause is put inside of the clauses from number `depth` on. -/
def Reach.insert (depth : Nat) (reach : Reach) : Reach := reach.map fun d => if d < depth then d else d + 1

namespace Reach

variable {a b : Reach} {depth : Nat}

theorem insert_join : (a.join b).insert depth = (a.insert depth).join (b.insert depth) := by
  cases a with
  | none => rfl
  | some m =>
    cases b with
    | none => rfl
    | some n =>
      simp only [join, insert, Option.map_some, Option.some.injEq]
      split <;> split <;> split <;> omega

theorem isBeyond_insert {n : Nat} (h : depth ≤ n) : (a.insert depth).isBeyond (n + 1) = a.isBeyond n := by
  cases a with
  | none => rfl
  | some d =>
    simp only [insert, Option.map_some, isBeyond_some]
    refine decide_eq_decide.2 ?_
    split <;> omega

theorem isBeyond_insert_of_le {n : Nat} (h : n ≤ depth) : (a.insert depth).isBeyond n = a.isBeyond n := by
  cases a with
  | none => rfl
  | some d =>
    simp only [insert, Option.map_some, isBeyond_some]
    refine decide_eq_decide.2 ?_
    split <;> omega

end Reach

variable {fs : Functions} {inner outer : Scopes} {extra : List Source} {name : String}

/-- The result with the new clause in the numbers of its reach. -/
def inserted {α : Type} (outer : Scopes) (result : Except CompileError (α × Reach)) : Except CompileError (α × Reach) :=
  result.map fun r => (r.1, r.2.insert outer.length)

theorem bind_insert {α β : Type} {x x' : Except CompileError (α × Reach)}
    {f f' : α × Reach → Except CompileError (β × Reach)} (hx : x' = inserted outer x)
    (hf : ∀ a r, f' (a, r.insert outer.length) = inserted outer (f (a, r))) :
    (x' >>= f') = inserted outer (x >>= f) := by
  subst hx
  cases x with
  | error e => rfl
  | ok r => exact hf r.1 r.2

theorem pure_insert {α : Type} {a : α} {r r' : Reach} (h : r' = r.insert outer.length) :
    (pure (a, r') : Except CompileError (α × Reach)) = inserted outer (pure (a, r)) := by
  rw [h]
  rfl

/-- The new clause is passed by if it does not have the name, and not looked at if a clause inside of it has. -/
theorem lookup_insert (h : (∃ scope ∈ inner, found name scope ≠ []) ∨ found name extra = []) :
    lookup name (inner ++ extra :: outer) =
      (lookup name (inner ++ outer)).map fun r => (r.1, if r.2 < outer.length then r.2 else r.2 + 1) := by
  induction inner with
  | nil =>
    rw [List.nil_append, List.nil_append, lookup_cons_of_nil (h.resolve_left (by simp))]
    cases hfound : lookup name outer with
    | error e => rfl
    | ok r =>
      obtain ⟨inner, scope, outer', rfl, hdepth, -⟩ := exists_of_lookup hfound
      have hlt : r.2 < (inner ++ scope :: outer').length := by
        rw [hdepth, List.length_append, List.length_cons]
        omega
      show Except.ok r = .ok (r.1, if r.2 < _ then r.2 else r.2 + 1)
      rw [if_pos hlt]
  | cons scope inner ih =>
    rw [List.cons_append, List.cons_append]
    rcases hfound : found name scope with _ | ⟨r, _ | ⟨b, rest⟩⟩
    · rw [lookup_cons_of_nil hfound, lookup_cons_of_nil hfound]
      refine ih (h.imp_left ?_)
      rintro ⟨s, hs, hne⟩
      rcases List.mem_cons.1 hs with rfl | hs
      · exact absurd hfound hne
      · exact ⟨s, hs, hne⟩
    · rw [lookup_cons_of_single hfound, lookup_cons_of_single hfound]
      simp only [Except.map, List.length_append, List.length_cons]
      rw [if_neg (by omega)]
      rfl
    · rw [lookup_cons_of_several hfound, lookup_cons_of_several hfound]
      rfl

theorem markCorrelated_insert (info : NodeInfo) (reach : Reach) :
    markCorrelated info (inner ++ extra :: outer) (reach.insert outer.length) =
      markCorrelated info (inner ++ outer) reach := by
  unfold markCorrelated
  have hlength : (inner ++ extra :: outer).length = (inner ++ outer).length + 1 := by
    simp only [List.length_append, List.length_cons]
    omega
  rw [hlength, Reach.isBeyond_insert (by simp)]

/-! ## Parts -/

/-- The expression is resolved in the clauses with the new one as without it. -/
def ExprInserts (fs : Functions) (inner : Scopes) (extra : List Source) (outer : Scopes) (e : Expr) : Prop :=
  expr fs (inner ++ extra :: outer) e = inserted outer (expr fs (inner ++ outer) e)

/-- The sub-select is resolved in the clauses with the new one as without it. -/
def SelectInserts (fs : Functions) (inner : Scopes) (extra : List Source) (outer : Scopes) (s : Select) : Prop :=
  select fs (inner ++ extra :: outer) s = inserted outer (select fs (inner ++ outer) s)

theorem option_insert {o : Option Expr} (h : ∀ e ∈ o.toList, ExprInserts fs inner extra outer e) :
    option fs (inner ++ extra :: outer) o = inserted outer (option fs (inner ++ outer) o) := by
  cases o with
  | none => rfl
  | some e => exact bind_insert (h e (by simp)) fun _ _ => rfl

theorem items_insert {list : List (Item Expr)} (h : ∀ e ∈ list.map (·.expr), ExprInserts fs inner extra outer e) :
    items fs (inner ++ extra :: outer) list = inserted outer (items fs (inner ++ outer) list) := by
  induction list with
  | nil => rfl
  | cons item rest ih =>
    refine bind_insert (h item.expr (by simp)) fun e a => ?_
    refine bind_insert (ih fun x hx => h x (List.mem_cons_of_mem _ hx)) fun rest b => ?_
    exact pure_insert Reach.insert_join.symm

theorem optionItems_insert {o : Option (List (Item Expr))}
    (h : ∀ e ∈ (o.getD []).map (·.expr), ExprInserts fs inner extra outer e) :
    optionItems fs (inner ++ extra :: outer) o = inserted outer (optionItems fs (inner ++ outer) o) := by
  cases o with
  | none => rfl
  | some list => exact bind_insert (items_insert h) fun _ _ => rfl

theorem armsOf_insert {arms : List (Expr × Expr)}
    (h : ∀ e ∈ arms.flatMap (fun arm => [arm.1, arm.2]), ExprInserts fs inner extra outer e) :
    armsOf fs (inner ++ extra :: outer) arms = inserted outer (armsOf fs (inner ++ outer) arms) := by
  induction arms with
  | nil => rfl
  | cons arm rest ih =>
    refine bind_insert (h arm.1 (by simp)) fun condition a => ?_
    refine bind_insert (h arm.2 (by simp)) fun result b => ?_
    refine bind_insert (ih fun x hx => h x (by simp_all)) fun rest c => ?_
    exact pure_insert (by rw [Reach.insert_join, Reach.insert_join])

theorem optionSelect_insert {o : Option Select} (h : ∀ s ∈ o.toList, SelectInserts fs inner extra outer s) :
    optionSelect fs (inner ++ extra :: outer) o = inserted outer (optionSelect fs (inner ++ outer) o) := by
  cases o with
  | none => rfl
  | some s => exact bind_insert (h s (by simp)) fun _ _ => rfl

theorem expr_insert {info : NodeInfo} {kind : Kind Expr Select}
    (hname : ∀ name, kind = .ident name → Expr.truthName? (.node info (.ident name)) = none →
      (∃ scope ∈ inner, found name scope ≠ []) ∨ found name extra = [])
    (hparts : ∀ e ∈ kind.entered, ExprInserts fs inner extra outer e)
    (hselects : ∀ s ∈ kind.selects, SelectInserts fs inner extra outer s) :
    ExprInserts fs inner extra outer (.node info kind) := by
  unfold ExprInserts
  cases kind with
  | ident name =>
    simp only [expr]
    cases htruth : Expr.truthName? (.node info (.ident name)) with
    | some b => rfl
    | none =>
      rw [lookup_insert (hname name rfl htruth)]
      cases lookup name (inner ++ outer) <;> rfl
  | call name args window =>
    simp only [expr]
    cases callFlags fs name args.length with
    | error => rfl
    | ok flags => exact bind_insert (items_insert hparts) fun _ _ => rfl
  | column ref => exact bind_insert (option_insert hparts) fun _ _ => rfl
  | aggCall index name args | vector list => exact bind_insert (items_insert hparts) fun _ _ => rfl
  | register reg operand | unary op operand | collate operand name | cast operand type | ifNullRow cursor operand =>
    exact bind_insert (hparts operand (.head _)) fun _ _ => rfl
  | binary op left right =>
    refine bind_insert (hparts left (.head _)) fun left a => ?_
    refine bind_insert (hparts right (.tail _ (.head _))) fun right b => ?_
    exact pure_insert Reach.insert_join.symm
  | caseOf base arms otherwise =>
    simp only [Kind.entered, Kind.children, List.forall_mem_append] at hparts
    refine bind_insert (option_insert hparts.1.1) fun base a => ?_
    refine bind_insert (armsOf_insert hparts.1.2) fun arms b => ?_
    refine bind_insert (option_insert hparts.2) fun otherwise c => ?_
    exact pure_insert (by rw [Reach.insert_join, Reach.insert_join])
  | between operand low high =>
    refine bind_insert (hparts operand (.head _)) fun operand a => ?_
    refine bind_insert (hparts low (.tail _ (.head _))) fun low b => ?_
    refine bind_insert (hparts high (.tail _ (.tail _ (.head _)))) fun high c => ?_
    exact pure_insert (by rw [Reach.insert_join, Reach.insert_join])
  | inList id operand list =>
    simp only [Kind.entered, Kind.children, List.forall_mem_cons] at hparts
    refine bind_insert hparts.1 fun operand a => ?_
    refine bind_insert (items_insert hparts.2) fun list b => ?_
    exact pure_insert Reach.insert_join.symm
  | inSelect id operand sub =>
    refine bind_insert (hparts operand (.head _)) fun operand a => ?_
    refine bind_insert (hselects sub (.head _)) fun sub b => ?_
    simp only [markCorrelated_insert]
    exact pure_insert Reach.insert_join.symm
  | hasRows id sub | subquery id sub =>
    refine bind_insert (hselects sub (.head _)) fun sub b => ?_
    simp only [markCorrelated_insert]
    rfl
  | _ => rfl

theorem select_insert {parts : SelectParts Expr Select}
    (hparts : ∀ e ∈ parts.clauses, ExprInserts fs (parts.sources :: inner) extra outer e)
    (hprior : ∀ s ∈ parts.prior.toList, SelectInserts fs (parts.sources :: inner) extra outer s) :
    SelectInserts fs inner extra outer (.mk parts) := by
  simp only [SelectParts.clauses, List.forall_mem_append] at hparts
  obtain ⟨⟨⟨⟨⟨hcolumns, hfilter⟩, hhaving⟩, hlimit⟩, hgroupBy⟩, horderBy⟩ := hparts
  refine bind_insert (items_insert hcolumns) fun columns a => ?_
  refine bind_insert (option_insert hfilter) fun filter b => ?_
  refine bind_insert (option_insert hhaving) fun having c => ?_
  refine bind_insert (option_insert hlimit) fun limit d => ?_
  refine bind_insert (optionItems_insert hgroupBy) fun groupBy e => ?_
  refine bind_insert (optionItems_insert horderBy) fun orderBy f => ?_
  refine bind_insert (optionSelect_insert hprior) fun prior g => ?_
  exact pure_insert (by simp only [List.foldl, Reach.insert_join])

/-! ## Trees -/

/-- A tree is resolved in the clauses with the new one as without it, if each name that is looked for outside of
the tree is in a clause inside of the new one or not in the new one. -/
theorem tree_insert (fs : Functions) (extra : List Source) (outer : Scopes) (t : Tree) :
    ∀ inner, (∀ name, t.Free name → (∃ scope ∈ inner, found name scope ≠ []) ∨ found name extra = []) →
      (∀ e, t = .expr e → ExprInserts fs inner extra outer e) ∧
        ∀ s, t = .select s → SelectInserts fs inner extra outer s := by
  induction t using Tree.induction with
  | step t ih =>
    intro inner hfree
    constructor
    · rintro ⟨info, kind⟩ rfl
      have hbelow (u : Tree) (hu : u ∈ (Tree.expr (.node info kind)).entered) :=
        ih u (Tree.entered_subset _ hu) inner fun name h => hfree name (.expr hu h)
      refine expr_insert (fun name hkind htruth => ?_) (fun e he => ?_) fun s hs => ?_
      · subst hkind
        exact hfree name (.ident htruth)
      · exact (hbelow (.expr e) (List.mem_append_left _ (List.mem_map_of_mem he))).1 e rfl
      · exact (hbelow (.select s) (List.mem_append_right _ (List.mem_map_of_mem hs))).2 s rfl
    · rintro ⟨parts⟩ rfl
      have hbelow (u : Tree) (hu : u ∈ (Tree.select (.mk parts)).entered) :=
        ih u hu (parts.sources :: inner) fun name h => by
          by_cases hmiss : found name parts.sources = []
          · refine (hfree name (.select hmiss hu h)).imp_left ?_
            rintro ⟨scope, hscope, hne⟩
            exact ⟨scope, List.mem_cons_of_mem _ hscope, hne⟩
          · exact .inl ⟨parts.sources, List.mem_cons_self, hmiss⟩
      refine select_insert (fun e he => ?_) fun s hs => ?_
      · exact (hbelow (.expr e) (List.mem_append_left _ (List.mem_map_of_mem he))).1 e rfl
      · exact (hbelow (.select s) (List.mem_append_right _ (List.mem_map_of_mem hs))).2 s rfl

/-- A step that is shared by one run and by the first of two may be taken first. -/
theorem bind_eq_bind_bind {α β γ : Type} {x : Except CompileError α} {f : α → Except CompileError β}
    {g : β → Except CompileError γ} {k : α → Except CompileError γ} (h : ∀ a, k a = (f a >>= g)) :
    (x >>= k) = ((x >>= f) >>= g) := by
  cases x with
  | error e => rfl
  | ok a => exact h a

/-- A compound whose last arm has none of the names that the arms before it look for outside of themselves is
resolved arm by arm: the last arm and the ones before it are each resolved alone in the scopes around the compound,
with the same outcome or error. In the reach the clauses of the first arms count as inside that of the last one. -/
theorem compound_resolved_by_arms {scopes : Scopes} {parts : SelectParts Expr Select} {prior : Select}
    (hprior : parts.prior = some prior)
    (hfree : ∀ name, (Tree.select prior).Free name → found name parts.sources = []) :
    select fs scopes (.mk parts) = do
      let last ← select fs scopes (.mk { parts with prior := none })
      let first ← select fs scopes prior
      return (.mk { last.1.parts with prior := some first.1 }, last.2.join (first.2.insert scopes.length)) := by
  have hfirst : select fs (parts.sources :: scopes) prior = inserted scopes (select fs scopes prior) :=
    (tree_insert fs parts.sources scopes (.select prior) [] fun name h => .inr (hfree name h)).2 prior rfl
  obtain ⟨id, columns, sources, filter, groupBy, having, orderBy, limit, flags, _⟩ := parts
  subst hprior
  -- The clauses of the last arm are resolved first on both sides.
  refine bind_eq_bind_bind fun columns => ?_
  refine bind_eq_bind_bind fun filter => ?_
  refine bind_eq_bind_bind fun having => ?_
  refine bind_eq_bind_bind fun limit => ?_
  refine bind_eq_bind_bind fun groupBy => ?_
  refine bind_eq_bind_bind fun orderBy => ?_
  simp only [optionSelect, hfirst]
  cases select fs scopes prior with
  | error e => rfl
  | ok first => exact congrArg (fun r : Reach => Except.ok (_, r.join _)) (Reach.join_none _).symm

end Resolve

namespace Example

/-- The cursors that the result columns of a sub-select read. -/
def columnCursors (s : Select) : List Int :=
  s.columns.filterMap fun item =>
    match item.expr.kind with
    | .column ref => some ref.cursor
    | _ => none

end Example

namespace Resolve

open Example in
/-- The first arm reads a column from around the compound: the last arm does not have its name. -/
theorem compound_resolved_by_arms_outer :
    (∀ name, (Tree.select (selecting "c" (source "v" "b" 2) none)).Free name → found name [source "t" "a" 1] = []) ∧
      ((select ⟨[]⟩ [[source "u" "c" 0]]
          (selecting "a" (source "t" "a" 1) (some (selecting "c" (source "v" "b" 2) none)))).map
        fun r => (columnCursors r.1, r.1.parts.prior.map columnCursors)).toOption = some ([1], some [0]) := by
  have hfree (name : String) (h : (Tree.select (selecting "c" (source "v" "b" 2) none)).Free name) :
      found name [source "t" "a" 1] = [] := by
    cases h with
    | select hmiss hu h =>
      obtain rfl := List.mem_singleton.1 hu
      cases h with
      | ident h => rfl
      | expr hu h => cases hu
  refine ⟨hfree, ?_⟩
  rw [selecting, compound_resolved_by_arms rfl hfree]
  decide +kernel

open Example in
/-- The name of the first arm is bound to the table of the last one. Alone the arm reads the table around it. -/
theorem prior_arm_bound_to_last :
    ((select ⟨[]⟩ [[source "u" "a" 0]]
        (selecting "a" (source "t" "a" 1) (some (selecting "a" (source "v" "b" 2) none)))).map
      fun r => r.1.parts.prior.map columnCursors).toOption = some (some [1]) ∧
      ((select ⟨[]⟩ [[source "u" "a" 0]] (selecting "a" (source "v" "b" 2) none)).map
        fun r => columnCursors r.1).toOption = some [0] := by
  decide +kernel

end Resolve

end ScalarSql
