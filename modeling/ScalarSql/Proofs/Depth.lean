import ScalarSql.Proofs.CachedFacts
import ScalarSql.Proofs.Jumps

/-!
# The depth limit

The height of a node is checked where it is coded: what is above the limit is refused before anything is written.
BETWEEN and CASE are coded as comparisons with a register that stands for their operand, and these are checked as
well. They are higher than the node itself, so that a BETWEEN at the limit is always refused, also one level below the
limit if none of its bounds is higher than its operand (`Gen.limit_refused`).

Nothing else within the limit is refused (`Gen.height_limit`). The code of an expression follows the rules of
`Gen.Follows` on terms with the limit; a step on such terms refuses nothing as too deep and sets nothing aside that is
above the limit (`Gen.Rule.not_deep`, `Gen.Rule.advances`), and so does what follows the rules (`Gen.Follows.within`),
up to a whole program (`Gen.program_obeys`).
-/

namespace ScalarSql

namespace Gen

variable {α β : Type} {g : Gen α} {f : α → Gen β} {a : α} {c c₁ c₂ : Compiler} {e : Expr}

/-- The step refuses an expression that is higher than the limit and ends in state `c'`. -/
def Refuses (g : Gen α) (c c' : Compiler) : Prop := g.run c = (.error (.tooDeep c'.config.maxDepth), c')

theorem Refuses.bind (h : g.Refuses c c₁) : (g >>= f).Refuses c c₁ := Fails.bind h

theorem Makes.refuses (hg : g.Makes c a c₁) (hf : (f a).Refuses c₁ c₂) : (g >>= f).Refuses c c₂ := hg.fails hf

theorem checkHeight_refuses (h : c.config.maxDepth < e.height) : (checkHeight e).Refuses c c :=
  (run_checkHeight e c).trans (by rw [if_pos h])

end Gen

/-- The code is refused as a value and as a branch, in state `c'`. -/
def Coded.Refused (code : Coded) (c c' : Compiler) : Prop := (∀ reg, (code.target reg).Refuses c c') ∧
  ∀ wanted l jumpIfNull, (code.branch wanted l jumpIfNull).Refuses c c'

namespace Expr

variable {e operand low high condition base result : Expr} {info : NodeInfo} {rest : List (Expr × Expr)}
  {otherwise : Option Expr} {c c₁ : Compiler} {reg : Int} {x : Int × Option Int}

open Gen

/-- The height of an expression is checked before it is computed or branched on. -/
theorem refused (h : c.config.maxDepth < e.height) : e.coded.Refused c c := by
  have hcheck := checkHeight_refuses h
  obtain ⟨info, kind⟩ := e
  show (Kind.coded (.node info kind) kind).Refused c c
  cases kind with
  | integer literal => cases literal <;> exact ⟨fun _ => hcheck.bind, fun _ _ _ => hcheck.bind⟩
  | ident name =>
    unfold Kind.coded
    split <;> exact ⟨fun _ => hcheck.bind, fun _ _ _ => hcheck.bind⟩
  | _ => exact ⟨fun _ => hcheck.bind, fun _ _ _ => hcheck.bind⟩

/-- BETWEEN is refused after its operand was computed, if the two comparisons are above the limit. -/
theorem between_refused (hinfo : info.height ≤ c.config.maxDepth) (hrow : operand.coded.row.Makes c x c₁)
    (h : c₁.config.maxDepth < max (operand.height + 1) (max low.height high.height) + 2) :
    (node info (.between operand low high)).coded.Refused c c₁ := by
  have hcheck : (checkHeight (node info (.between operand low high))).Makes c () c := checkHeight_makes hinfo
  have hboth : (Coded.asConjunction operand.coded low.coded high.coded).Makes c _ c₁ := makes_bind.2 ⟨x, c₁, hrow, rfl⟩
  have hhigh := checkHeight_refuses (c := c₁) (e := ofKind (.binary .and
    (ofKind (.binary .ge (ofKind (.register x.1 operand.coded.expr)) low.coded.expr))
    (ofKind (.binary .le (ofKind (.register x.1 operand.coded.expr)) high.coded.expr)))) (by
      simp only [height_binary, height_register, coded_expr]
      omega)
  refine ⟨fun _ => ?_, fun _ _ _ => ?_⟩
  · exact hcheck.refuses (hboth.refuses hhigh.bind.bind.bind)
  · exact hcheck.refuses (hboth.refuses hhigh.bind.bind)

/-- CASE with a base is refused after the base was computed, if its first comparison is above the limit. -/
theorem caseOf_refused (hinfo : info.height ≤ c.config.maxDepth)
    (hrow : base.coded.row.Makes { c with builder := c.builder.label.2 } x c₁)
    (h : c₁.config.maxDepth < max (base.height + 1) condition.height + 1) :
    ((node info (.caseOf (some base) ((condition, result) :: rest) otherwise)).coded.target reg).Refuses c
      { c₁ with builder := c₁.builder.label.2 } := by
  have hlabel (c : Compiler) : label.Makes c c.builder.label.1 { c with builder := c.builder.label.2 } := rfl
  have hhigh := checkHeight_refuses (c := { c₁ with builder := c₁.builder.label.2 })
    (e := ofKind (.binary .eq (ofKind (.register x.1 base.coded.expr)) condition.coded.expr)) (by
      simp only [height_binary, height_register, coded_expr]
      exact h)
  -- The node, the label of the end, the base, the label of the next arm, and the comparison.
  refine (checkHeight_makes (e := node info _) hinfo).refuses (Refuses.bind ?_)
  refine (hlabel c).refuses (hrow.refuses (Refuses.bind ?_))
  exact (hlabel c₁).refuses hhigh.bind.bind

end Expr

open ScalarSql.Expr

/-! ## Expressions within the limit -/

/-- The comparisons in the tree that BETWEEN and CASE are coded as are within the limit, and so are the expressions that
do not count towards the height of the node above them. -/
inductive Tree.Clear (n : Nat) : Tree → Prop
  | intro {t : Tree} (compared : ∀ e, t = .expr e → ∀ height ∈ e.kind.comparedHeights, height ≤ n)
      (counted : ∀ e, t = .expr e → ∀ x ∈ e.kind.subexpressions, x ∈ e.kind.children ∨ x.height ≤ n)
      (below : ∀ u ∈ t.below, Clear n u) : Clear n t

/-- The expression and what is made of it are within the limit. -/
structure Expr.Allowed (n : Nat) (e : Expr) : Prop where
  current : (Tree.expr e).Current
  height : e.height ≤ n
  clear : (Tree.expr e).Clear n

/-- Terms on which registers are of no concern, but heights are. -/
def Terms.limited (n : Nat) : Terms := { Terms.lax with limit := some n }

theorem Terms.limited_admits {n height : Nat} (h : height ≤ n) : (Terms.limited n).Admits height := by
  rintro _ ⟨⟩
  exact h

theorem NodeInfo.above_height_le {own : ExprFlags} {parts : List NodeInfo} {n : Nat} :
    (NodeInfo.above own parts).height ≤ n + 1 ↔ ∀ i ∈ parts, i.height ≤ n := by
  have hfold (h : Nat) : parts.foldl (fun h i => max h i.height) h ≤ n ↔ h ≤ n ∧ ∀ i ∈ parts, i.height ≤ n := by
    induction parts generalizing h with
    | nil => simp
    | cons i parts ih => simp [ih, and_assoc]
  simp [NodeInfo.above, hfold]

/-- A node with current facts is higher than the parts that count. -/
theorem Tree.Current.summary_lt {e : Expr} (h : (Tree.expr e).Current) :
    ∀ u ∈ e.kind.children.map Tree.expr ++ e.kind.selects.map Tree.select, u.summary.height < e.height := by
  have hsummary := congrArg NodeInfo.height h.here
  have hheight : e.height = (infoOf e.kind).height := hsummary
  rw [infoOf_eq] at hheight
  obtain ⟨n, hn⟩ : ∃ n, e.height = n + 1 := ⟨_, hheight⟩
  have hparts := NodeInfo.above_height_le.1 (Nat.le_of_eq (hheight.symm.trans hn))
  intro u hu
  exact hn ▸ Nat.lt_succ_of_le (hparts _ (List.mem_map_of_mem hu))

/-- The height of the root bounds those of all parts that count; the others are within the limit themselves. -/
theorem Tree.Clear.covered {n : Nat} {t : Tree} (hcurrent : t.Current) (hclear : t.Clear n)
    (hheight : t.summary.height ≤ n) : t.Covered (.limited n) := by
  induction t using Tree.induction with
  | step t ih =>
    obtain ⟨compared, counted, below⟩ := hclear
    refine .intro ?_ fun u hu => ih u hu (hcurrent.parts u hu) (below u hu) ?_
    · rintro e rfl
      have hpos : 1 ≤ e.height := Nat.succ_le_of_lt (Nat.lt_of_lt_of_eq (Nat.succ_pos _)
        (congrArg NodeInfo.height hcurrent.here).symm)
      exact ⟨⟨.inl trivial, False.elim⟩, Terms.limited_admits (Nat.le_trans hpos hheight), Terms.limited_admits hheight,
        fun height hmem => Terms.limited_admits (compared e rfl height hmem)⟩
    · cases t with
      | expr e =>
        have hlt := hcurrent.summary_lt
        rcases List.mem_append.1 hu with hu | hu
        · obtain ⟨x, hx, rfl⟩ := List.mem_map.1 hu
          rcases counted e rfl x hx with hchild | hx
          · have := hlt _ (List.mem_append_left _ (List.mem_map_of_mem hchild))
            exact Nat.le_trans (Nat.le_of_lt this) hheight
          · exact hx
        · exact Nat.le_trans (Nat.le_of_lt (hlt _ (List.mem_append_right _ hu))) hheight
      | select s => exact Select.height_le.1 hheight _ (List.mem_map_of_mem hu)

theorem Expr.Allowed.covers {n : Nat} {e : Expr} (h : e.Allowed n) : (Terms.limited n).Covers e :=
  h.clear.covered h.current h.height

/-- A node is within the limit if its parts are. -/
theorem Expr.Allowed.of_parts {n : Nat} {kind : Kind Expr Select} (hparts : ∀ x ∈ kind.subexpressions, x.Allowed n)
    (hselects : kind.selects = []) (hheight : (ofKind kind).height ≤ n)
    (hcompared : ∀ height ∈ kind.comparedHeights, height ≤ n) : (ofKind kind).Allowed n := by
  have hbelow {P : Tree → Prop} (h : ∀ x ∈ kind.subexpressions, P (.expr x)) :
      ∀ u ∈ (Tree.expr (ofKind kind)).below, P u := by
    refine List.forall_mem_append.2 ⟨List.forall_mem_map.2 h, ?_⟩
    show ∀ u ∈ kind.selects.map Tree.select, P u
    rw [hselects]
    exact List.forall_mem_nil _
  refine ⟨.intro ?_ (hbelow fun x hx => (hparts x hx).current), hheight,
    .intro ?_ ?_ (hbelow fun x hx => (hparts x hx).clear)⟩
  · rintro _ ⟨⟩
    rfl
  · rintro _ ⟨⟩
    exact hcompared
  · rintro _ ⟨⟩ x hx
    exact .inr (hparts x hx).height

theorem Terms.Covers.limited {T : Terms} {n : Nat} {e : Expr} (h : T.Covers e) (hT : T.limit = some n) :
    (Terms.limited n).Covers e := by
  have htree (t : Tree) (ht : t.Covered T) : t.Covered (.limited n) := by
    induction ht with
    | intro here _ ih =>
      refine .intro (fun x hx => ⟨⟨.inl trivial, False.elim⟩, ?_⟩) ih
      have hadmits {height : Nat} (hheight : T.Admits height) : (Terms.limited n).Admits height :=
        Terms.limited_admits (hheight n hT)
      obtain ⟨hliteral, hnode, hcompared⟩ := (here x hx).2
      exact ⟨hadmits hliteral, hadmits hnode, fun height hmem => hadmits (hcompared height hmem)⟩
  exact htree _ h

/-! ## Nothing within the limit is refused -/

/-- The limit stays what it is, and the constants that are set aside meanwhile are within the given one. -/
structure Compiler.Advances (n : Nat) (c c' : Compiler) : Prop where
  config : c'.config = c.config
  hoisted : ∀ k ∈ c'.hoisted.toList, k ∈ c.hoisted.toList ∨ (Terms.limited n).Covers k.expr

namespace Compiler.Advances

variable {n : Nat} {c c₁ c₂ : Compiler}

theorem of_eq (hconfig : c₁.config = c.config) (hhoisted : c₁.hoisted = c.hoisted) : c.Advances n c₁ :=
  ⟨hconfig, fun _ hk => .inl (hhoisted ▸ hk)⟩

theorem trans (h : c.Advances n c₁) (h' : c₁.Advances n c₂) : c.Advances n c₂ :=
  ⟨h'.config.trans h.config, fun k hk => (h'.hoisted k hk).elim (h.hoisted k) .inr⟩

theorem push {e : Expr} (he : (Terms.limited n).Covers e) (highest reg : Int) (shared : Bool) :
    c.Advances n { c with highest, hoisted := c.hoisted.push { expr := e, reg, shared } } := by
  refine ⟨rfl, ?_⟩
  rw [Array.toList_push]
  exact List.forall_mem_append.2 ⟨fun _ => .inl, List.forall_mem_singleton.2 (.inr he)⟩

end Compiler.Advances

/-- The limit is the given one, and all constants that are set aside are within it. -/
structure Compiler.Limited (n : Nat) (c : Compiler) : Prop where
  limit : c.config.maxDepth = n
  hoisted : ∀ k ∈ c.hoisted.toList, (Terms.limited n).Covers k.expr

/-- What is known apart from the compilation is true. -/
def Facts.Hold (K : Facts) : Prop := ∀ p, .given p ∈ K → p

theorem Facts.Hold.and {K S : Facts} (hK : K.Hold) (hS : S.Hold) : (K.and S).Hold := fun p hp => hp.elim (hK p) (hS p)

namespace Gen

section

variable {α β : Type} {n : Nat} {L : List Label} {T : Terms} {K : Facts} {E : Ends} {E' : α → Ends} {Q : α → Facts}
  {g : Gen α} {f : α → Gen β} {c c' : Compiler} {a : α}

theorem getTemp_shallow : Shallow getTemp := by
  refine .bind Idle.get.shallow fun c => ?_
  split
  · exact .of_makes fun _ => ⟨_, _, rfl⟩
  · exact .of_makes fun _ => ⟨_, _, rfl⟩

theorem getTempRange_shallow (n : Int) : Shallow (getTempRange n) := by
  rw [getTempRange_eq]
  split
  · exact getTemp_shallow
  · refine .bind Idle.get.shallow fun c => ?_
    split
    · exact .of_makes fun _ => ⟨_, _, rfl⟩
    · exact .of_makes fun _ => ⟨_, _, rfl⟩

theorem releaseTempRange_shallow (first n : Int) : Shallow (releaseTempRange first n) := by
  unfold releaseTempRange
  split
  · exact .of_makes fun _ => ⟨_, _, rfl⟩
  · exact .of_makes fun _ => ⟨_, _, rfl⟩

theorem listCopy_shallow (m : ListMode) (source target : Int) : Shallow (listCopy m source target) := by
  refine .bind Idle.get.shallow fun c => ?_
  split
  · split
    · exact .of_makes fun _ => ⟨_, _, rfl⟩
    · exact .of_makes fun _ => ⟨_, _, rfl⟩
  · exact .of_makes fun _ => ⟨_, _, rfl⟩

theorem hoist_shallow (e : Expr) : Shallow (hoist e none) := by
  refine .bind Idle.get.shallow fun c => ?_
  split
  · exact .of_makes fun _ => ⟨_, _, rfl⟩
  · exact .of_makes fun _ => ⟨_, _, rfl⟩

/-! ## Steps -/

theorem Rule.not_deep (h : Rule L T K E g E' Q) (hT : T.limit = some n) (hc : c.config.maxDepth = n) : ¬ g.Deep c := by
  cases h with
  | idle h => exact h.shallow c
  | checkHeight h => exact (checkHeight_makes (hc ▸ h.node n hT)).not_deep
  | listCopy m => exact listCopy_shallow m _ _ c
  | getTemp => exact getTemp_shallow c
  | getTempRange => exact getTempRange_shallow _ c
  | releaseTempRange => exact releaseTempRange_shallow _ _ c
  | hoist => exact hoist_shallow _ c
  | _ => exact Makes.not_deep rfl

theorem Rule.advances (h : Rule L T K E g E' Q) (hT : T.limit = some n) (hmake : g.Makes c a c') :
    c.Advances n c' := by
  have hsame {b : Builder} (hbuild : c' = { c with builder := b }) : c.Advances n c' := hbuild ▸ .of_eq rfl rfl
  have hdraw {back : Int → Prop} (hdraws : c.Draws back c') : c.Advances n c' := hdraws.same ▸ .of_eq rfl rfl
  cases h with
  | idle h =>
    obtain ⟨_, _, _, rfl⟩ := h.still c a c' hmake
    exact .of_eq rfl rfl
  | checkHeight => exact hsame (makes_checkHeight hmake)
  | emit | emitBack | emitNull => exact hsame (makes_emit.1 hmake)
  | emitAt | emitLoose => exact hsame (makes_emitAt.1 hmake).2
  | emitJump => exact hsame (makes_emitJump.1 hmake)
  | here => exact hsame (makes_here.1 hmake).2.symm
  | label => exact hsame (makes_label.1 hmake).2
  | resolve => exact hsame (makes_resolve.1 hmake)
  | jumpHere => exact hsame (makes_jumpHere.1 hmake)
  | cancel | setRegister | setNumber => exact hsame (makes_modifyAt.1 hmake)
  | listCopy m =>
    rcases listCopy_cases hmake with hemit | ⟨-, _, -, -, -, -, hwidened⟩
    · exact hsame (makes_emit.1 hemit)
    · exact hsame hwidened
  | keepRoutine | keepShared =>
    obtain rfl := makes_modify.1 hmake
    exact .of_eq rfl rfl
  | allocRegs => exact hdraw (allocRegs_draws hmake).1
  | getTemp => exact hdraw (getTemp_draws hmake).1
  | releaseTemp => exact hdraw (releaseTemp_draws hmake)
  | getTempRange => exact hdraw (getTempRange_draws hmake).1
  | releaseTempRange => exact hdraw (releaseTempRange_draws hmake)
  | clearTemps => exact hdraw (clearTemps_draws hmake)
  | hoist he =>
    rcases hoist_makes hmake with ⟨rfl, -⟩ | ⟨-, -, rfl⟩
    · exact .of_eq rfl rfl
    · exact .push (he.limited hT) _ _ _
  | hoistAt he =>
    obtain rfl := hoistAt_makes hmake
    exact .push (he.limited hT) c.highest _ _

theorem Rule.hold (h : Rule L T K E g E' Q) (a : α) : (Q a).Hold := by
  intro p hp
  cases h with
  | allocRegs | getTempRange =>
    obtain ⟨_, _, hp⟩ := hp
    cases hp
  | emitAt | emitLoose => simp at hp
  | _ => cases hp

/-- What follows the rules within the limit refuses nothing as too deep. -/
theorem Follows.within (h : Follows L T K E g E' Q) (hfree : T.free) (hT : T.limit = some n) (hK : K.Hold)
    (hc : c.config.maxDepth = n) : ¬ g.Deep c ∧ ∀ a c', g.Makes c a c' → c.Advances n c' ∧ (Q a).Hold := by
  induction h generalizing c with
  | rule h => exact ⟨h.not_deep hT hc, fun a c' hmake => ⟨h.advances hT hmake, h.hold a⟩⟩
  | bindMade hg hf ihg ihf =>
    obtain ⟨hnot, hmade⟩ := ihg hfree hT hK hc
    have hrest x c₁ (hx : Makes _ c x c₁) := ihf c x c₁ hx hfree hT (hK.and (hmade x c₁ hx).2)
      ((congrArg Config.maxDepth (hmade x c₁ hx).1.config).trans hc)
    refine ⟨not_deep_bind hnot fun x c₁ hx => (hrest x c₁ hx).1, fun b c' hmake => ?_⟩
    obtain ⟨x, c₁, hx, hmake⟩ := makes_bind.1 hmake
    obtain ⟨hadvances, hQ⟩ := (hrest x c₁ hx).2 b c' hmake
    exact ⟨(hmade x c₁ hx).1.trans hadvances, hQ⟩
  | pure hE h =>
    refine ⟨Makes.not_deep rfl, fun b c' hmake => ?_⟩
    obtain ⟨rfl, rfl⟩ := makes_pure.1 hmake
    exact ⟨.of_eq rfl rfl, fun p hp => (h _ hp).elim (hK p) id⟩
  | throw he => exact ⟨Shallow.throw he c, fun _ _ hmake => (makes_throw.1 hmake).elim⟩
  | image hmade hdeep h ih =>
    obtain ⟨hnot, hmakes⟩ := ih hfree hT hK hc
    refine ⟨fun h => hnot (hdeep c h), fun b c' hmake => ?_⟩
    obtain ⟨x, hx, rfl⟩ := hmade c b c' hmake
    exact hmakes x c' hx
  | weaken h hlabels hjumps hQ ih =>
    obtain ⟨hnot, hmakes⟩ := ih hfree hT hK hc
    refine ⟨hnot, fun a c' hmake => ?_⟩
    obtain ⟨hadvances, hQa⟩ := hmakes a c' hmake
    exact ⟨hadvances, fun p hp => (hQ a _ hp).elim (hK.and hQa p) id⟩
  | @withState _ T _ _ _ _ _ h ih =>
    have htells : Facts.Hold {f | c.Tells T.allotment f} := fun p hp => by cases hp
    exact ih c (.inl hfree) hfree hT (hK.and htells) hc
  | @hereJump _ _ _ _ i l _ _ _ hl hj hi h ih =>
    have hmark : Facts.Hold {.mark (c.builder.here + 1)} := fun p hp => by cases hp
    obtain ⟨hnot, hmakes⟩ := ih c.builder.here hfree hT (hK.and hmark)
      (c := { c with builder := c.builder.emitJump i l }) hc
    refine ⟨hnot, fun a c' hmake => ?_⟩
    obtain ⟨hadvances, hQ⟩ := hmakes a c' hmake
    exact ⟨⟨hadvances.config, hadvances.hoisted⟩, hQ⟩
  | use hp h ih => exact ih (hK _ hp) hfree hT hK hc
  | grant hrow h ih => exact ih hfree hT hK hc

theorem Follows.not_deep (h : Follows L (.limited n) ∅ E g E' Q) (hc : c.config.maxDepth = n) : ¬ g.Deep c :=
  (h.within trivial rfl (fun _ hp => hp.elim) hc).1

/-! ## Programs -/

/-- From a state within the limit, the step refuses nothing as too deep and leads to such a state. -/
def Obeys (n : Nat) (g : Gen α) : Prop := ∀ c, c.Limited n → ¬ g.Deep c ∧ ∀ a c', g.Makes c a c' → c'.Limited n

theorem Follows.obeys (h : Follows L (.limited n) ∅ E g E' Q) : Obeys n g := by
  intro c hc
  obtain ⟨hnot, hmakes⟩ := h.within trivial rfl (fun _ hp => hp.elim) hc.limit
  refine ⟨hnot, fun a c' hmake => ?_⟩
  obtain ⟨hconfig, hhoisted⟩ := (hmakes a c' hmake).1
  exact ⟨hconfig ▸ hc.limit, fun k hk => (hhoisted k hk).elim (hc.hoisted k) id⟩

namespace Obeys

theorem bind (hg : Obeys n g) (hf : ∀ a, Obeys n (f a)) : Obeys n (g >>= f) := by
  intro c hc
  obtain ⟨hnot, hmakes⟩ := hg c hc
  refine ⟨not_deep_bind hnot fun a c₁ ha => (hf a c₁ (hmakes a c₁ ha)).1, fun b c' hmake => ?_⟩
  obtain ⟨a, c₁, ha, hb⟩ := makes_bind.1 hmake
  exact (hf a c₁ (hmakes a c₁ ha)).2 b c' hb

/-- A step that always succeeds and touches neither the limit nor the constants. -/
theorem of_makes (h : ∀ c, ∃ a c', g.Makes c a c' ∧ c'.config = c.config ∧ c'.hoisted = c.hoisted) : Obeys n g := by
  intro c hc
  obtain ⟨b, c₁, hmake, hconfig, hhoisted⟩ := h c
  refine ⟨hmake.not_deep, fun a c' hmake' => ?_⟩
  obtain rfl : c' = c₁ := congrArg Prod.snd (hmake'.symm.trans hmake)
  exact ⟨hconfig ▸ hc.limit, hhoisted ▸ hc.hoisted⟩

theorem pure (a : α) : Obeys n (pure a : Gen α) := of_makes fun _ => ⟨_, _, rfl, rfl, rfl⟩

theorem throw {e : CompileError} (he : ∀ limit, e ≠ .tooDeep limit) : Obeys n (throw e : Gen α) :=
  fun c _ => ⟨Shallow.throw he c, fun _ _ hmake => (makes_throw.1 hmake).elim⟩

theorem withState {k : Compiler → Gen α} (h : ∀ c, c.Limited n → Obeys n (k c)) : Obeys n (get >>= k) :=
  fun c hc => h c hc c hc

theorem set (hc : c.Limited n) : Obeys n (set c : Gen PUnit) := by
  refine fun _ _ => ⟨Makes.not_deep rfl, fun _ c' hmake => ?_⟩
  obtain rfl := makes_set.1 hmake
  exact hc

end Obeys

end

/-- The expressions that are to be coded. -/
def Request.expressions : Request → List Expr
  | .value e _ | .branch e .. | .member e .. => [e]
  | .list _ items .. => items.map (·.expr)
  | _ => []

theorem Request.serve_obeys {n : Nat} {request : Request} (h : ∀ e ∈ request.expressions, (Terms.limited n).Covers e)
    (labels : List Label) : Obeys n (request.serve labels) := by
  have hserved (hsuits : request.Suits (.limited n) ∅) : Obeys n (request.serve labels) := hsuits.works.obeys
  cases request with
  | label => exact .of_makes fun _ => ⟨_, _, rfl, rfl, rfl⟩
  | resolve k =>
    refine .bind (Follows.obeys (L := []) (E := {}) (.rule (.idle (labelOf_idle labels k)))) fun l => ?_
    exact .of_makes fun _ => ⟨_, _, rfl, rfl, rfl⟩
  | registers k => exact .of_makes fun _ => ⟨_, _, rfl, rfl, rfl⟩
  | write i hi => exact hserved (.of_free trivial)
  | value e reg => exact hserved ⟨h e List.mem_cons_self, .of_free trivial⟩
  | list mode items reg results =>
    exact hserved ⟨.of_free trivial, False.elim, fun item hitem =>
      ⟨h item.expr (List.mem_map_of_mem hitem), fun _ _ => .of_free trivial⟩⟩
  | branch e | member e => exact hserved (h e List.mem_cons_self)

theorem serveAll_obeys {n : Nat} {requests : List Request}
    (h : ∀ request ∈ requests, ∀ e ∈ request.expressions, (Terms.limited n).Covers e) (labels : List Label) :
    Obeys n (serveAll labels requests) := by
  induction requests generalizing labels with
  | nil => exact .pure _
  | cons request rest ih =>
    obtain ⟨hrequest, hrest⟩ := List.forall_mem_cons.1 h
    exact .bind (Request.serve_obeys hrequest labels) fun labels' => ih hrest labels'

theorem finish_obeys (n : Nat) : Obeys n finish := by
  refine .bind (.of_makes fun _ => ⟨_, _, rfl, rfl, rfl⟩) fun _ => .withState fun c hc => ?_
  extract_lets last
  have hlast (u : PUnit) : Obeys n (last u) := by
    refine .withState fun c _ => ?_
    unfold Builder.build
    split
    · exact .pure _
    · rename_i hbuilt
      split at hbuilt
      · cases hbuilt
        exact .throw (by simp)
      · cases hbuilt
  -- The constants are computed in a state where none is set aside.
  split
  · refine .bind (.of_makes fun _ => ⟨_, _, rfl, rfl, rfl⟩) fun _ => .withState fun c₁ hc₁ => ?_
    refine .bind (.set ⟨hc₁.limit, List.forall_mem_nil _⟩) fun _ => ?_
    have hworks : Works [] (.limited n) ∅ {} (computeHoisted c.hoisted.toList) :=
      computeHoisted_works fun k hk => ⟨hc.hoisted k hk, .of_free trivial⟩
    exact .bind hworks.obeys fun _ => .bind (.of_makes fun _ => ⟨_, _, rfl, rfl, rfl⟩) hlast
  · split
    · exact .bind (.throw (by simp)) hlast
    · exact hlast ⟨⟩

theorem program_obeys {n : Nat} {requests : List Request}
    (h : ∀ request ∈ requests, ∀ e ∈ request.expressions, (Terms.limited n).Covers e) :
    Obeys n (program requests) :=
  .bind (.of_makes fun _ => ⟨_, _, rfl, rfl, rfl⟩) fun _ => .bind (serveAll_obeys h []) fun _ => finish_obeys n

end Gen

/-- An expression above the limit is refused at once, as a value and as a branch. A BETWEEN and a CASE with a base that
are within the limit are refused once their operand is computed, if the comparisons that they are coded as are not. If
there is no such BETWEEN or CASE in an expression, and all that is coded of it counts towards its height, then it is not
refused within the limit, and neither is a program of such expressions, with the constants that are set aside. -/
theorem Gen.height_limit (c : Compiler) : (∀ e : Expr, c.config.maxDepth < e.height → e.coded.Refused c c) ∧
    (∀ info (operand low high : Expr) x c₁, info.height ≤ c.config.maxDepth → operand.coded.row.Makes c x c₁ →
      c₁.config.maxDepth < max (operand.height + 1) (max low.height high.height) + 2 →
      (node info (.between operand low high)).coded.Refused c c₁) ∧
    (∀ info (base condition result : Expr) rest otherwise x c₁ reg, info.height ≤ c.config.maxDepth →
      base.coded.row.Makes { c with builder := c.builder.label.2 } x c₁ →
      c₁.config.maxDepth < max (base.height + 1) condition.height + 1 →
      ((node info (.caseOf (some base) ((condition, result) :: rest) otherwise)).coded.target reg).Refuses c
        { c₁ with builder := c₁.builder.label.2 }) ∧
    (∀ e : Expr, e.Allowed c.config.maxDepth → (∀ reg, ¬ (e.coded.target reg).Deep c ∧ ¬ (e.coded.exact reg).Deep c) ∧
      ∀ wanted l jumpIfNull, ¬ (e.coded.branch wanted l jumpIfNull).Deep c) ∧
    ∀ requests : List Request, (∀ request ∈ requests, ∀ e ∈ request.expressions, e.Allowed c.config.maxDepth) →
      c.hoisted = #[] → ¬ (program requests).Deep c := by
  refine ⟨fun _ => refused, fun _ _ _ _ _ _ => between_refused, fun _ _ _ _ _ _ _ _ _ => caseOf_refused,
    fun e he => ?_, fun requests h hnew => ?_⟩
  · have hfits := coded_fits he.covers
    refine ⟨fun reg => ⟨?_, ?_⟩, fun wanted l jumpIfNull => ?_⟩
    · exact (hfits.target (L := []) (E := {}) (.of_free trivial)).not_deep rfl
    · exact (hfits.exact (L := []) (E := {}) (.of_free trivial)).not_deep rfl
    · exact (hfits.branch (L := [l]) (E := {}) wanted l jumpIfNull (.inl (.head _))).not_deep rfl
  · have hobeys := program_obeys fun request hrequest e he => (h request hrequest e he).covers
    exact (hobeys c ⟨rfl, hnew ▸ List.forall_mem_nil _⟩).1

def Compiler.limited (maxDepth : Nat) : Compiler := .new .empty { maxDepth }

namespace Expr

def number (v : Int32) : Expr := .ofKind (.integer (.inline v))

/-- Tests if 1 is from 0 to 2. -/
def ranged : Expr := .ofKind (.between (number 1) (number 0) (number 2))

def chosen : Expr := .ofKind (.caseOf (some (number 1)) [(number 1, number 5)] none)

theorem number_allowed (v : Int32) {n : Nat} (h : 1 ≤ n) : (number v).Allowed n :=
  .of_parts (List.forall_mem_nil _) rfl h (List.forall_mem_nil _)

theorem ranged_allowed : ranged.Allowed 4 := by
  refine .of_parts (fun x hx => ?_) rfl (by decide) (by decide)
  simp only [Kind.subexpressions, Kind.children, List.mem_cons, List.not_mem_nil, or_false] at hx
  rcases hx with rfl | rfl | rfl <;> exact number_allowed _ (by decide)

end Expr

open Compiler in
theorem Gen.height_limit_met : ranged.coded.Refused (limited 1) (limited 1) ∧
    (∃ c, ranged.coded.Refused (limited 3) c) ∧ (∃ c, (chosen.coded.target 1).Refuses (limited 2) c) ∧
    ¬ (ranged.coded.target 1).Deep (limited 4) ∧ ¬ (program [.registers 1, .value ranged 1]).Deep (limited 4) := by
  have hranged := (height_limit (limited 3)).2.1 ranged.info (number 1) (number 0) (number 2) (1, none) _ (by decide)
    rfl
    (by decide)
  have hchosen := (height_limit (limited 2)).2.2.1 chosen.info (number 1) (number 1) (number 5) [] none (1, none) _ 1
    (by decide) rfl (by decide)
  obtain ⟨-, -, -, hcoded, hprogram⟩ := height_limit (limited 4)
  refine ⟨(height_limit (limited 1)).1 ranged (by decide), ⟨_, hranged⟩, ⟨_, hchosen⟩,
    ((hcoded ranged ranged_allowed).1 1).1, hprogram _ ?_ rfl⟩
  simp only [List.forall_mem_cons, Request.expressions]
  exact ⟨List.forall_mem_nil _, ⟨ranged_allowed, List.forall_mem_nil _⟩, List.forall_mem_nil _⟩

open Compiler in
/-- A BETWEEN and a CASE of height two, the limit, are refused. -/
theorem Gen.limit_refused :
    (ranged.height = 2 ∧ ((ranged.coded.target 1).run (limited 2)).1 = .error (.tooDeep 2)) ∧
      chosen.height = 2 ∧ ((chosen.coded.target 1).run (limited 2)).1 = .error (.tooDeep 2) := by
  decide +kernel

end ScalarSql
