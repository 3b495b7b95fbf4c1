import ScalarSql.Code.Compile
import ScalarSql.Proofs.Code.Probes
import ScalarSql.Proofs.Value.Conversions

/-!
# Values that are as their affinity wants them

The look-up of IN converts its left side in place. That may not change a constant that was set aside,
and it does not: the affinity of an expression comes from CAST or from a column. CAST and a column that
equals a constant give values that are as the affinity wants them; a column of a row is read into a
register of its own each time.
-/

namespace ScalarSql

open Compiler ScalarSql.Expr Gen Meaning

/-! ## The code of parts -/

@[simp]
theorem Expr.coded_expr (e : Expr) : e.coded.expr = e := by
  obtain ⟨info, kind⟩ := e
  cases kind with
  | integer literal => cases literal <;> rfl
  | ident name =>
    rw [coded, Kind.coded]
    split <;> rfl
  | unary op operand | binary op left right => cases op <;> rfl
  | _ => rfl

theorem itemsCoded_eq_map (items : List (Item Expr)) :
    itemsCoded items = items.map fun item => { item with expr := item.expr.coded } := by
  induction items with
  | nil => rfl
  | cons item rest ih =>
    rw [itemsCoded, ih]
    rfl

theorem armsCoded_eq_map (arms : List (Expr × Expr)) :
    armsCoded arms = arms.map fun arm => (arm.1.coded, arm.2.coded) := by
  induction arms with
  | nil => rfl
  | cons arm rest ih =>
    rw [armsCoded, ih]
    rfl

/-! ## Values in the wanted register -/

/-- Whatever the step does, it returns the register. -/
def Gen.Returns (g : Gen Int) (reg : Int) : Prop := ∀ ⦃c r c'⦄, g.Makes c r c' → r = reg

namespace Gen.Returns

variable {α : Type} {g g' : Gen Int} {reg : Int}

theorem pure : Returns (Pure.pure reg) reg := fun _ _ _ h => (makes_pure.1 h).1.symm

theorem throw {error : CompileError} : Returns (throw error) reg := fun _ _ _ h => (makes_throw.1 h).elim

theorem bind {step : Gen α} {g : α → Gen Int} (h : ∀ a, (g a).Returns reg) : Returns (step >>= g) reg := by
  intro c r c' hmakes
  obtain ⟨a, c1, -, hmakes⟩ := makes_bind.1 hmakes
  exact h a hmakes

theorem ite {p : Prop} [Decidable p] (h : g.Returns reg) (h' : g'.Returns reg) : Returns (if p then g else g') reg := by
  split
  · exact h
  · exact h'

end Gen.Returns

/-! ## Expressions -/

namespace Expr

/-- The value is as the affinity of the expression wants it. -/
def Settles (σ : Scope) (e : Expr) : Prop :=
  ∀ env : Env, env.functions = σ.functions → ∀ v, e.meaning.value env = some v → v.applyAffinity e.affinity = v

/-- The value is computed each time, into the register that is wanted. -/
structure ComputesAnew (σ : Scope) (e : Expr) : Prop where
  constant : e.isConstant .notJoin = false
  target : ∀ ⦃c c' reg r⦄, (e.coded.target reg).Makes c r c' → c.Good σ → r = reg
  temp : ∀ ⦃c c' p⦄, e.coded.temp.Makes c p c' → c.Good σ → p.2 ≠ none

variable {σ : Scope} {e : Expr} {info : NodeInfo} {cursor column : Int} {table : Option Table}

theorem settles_of_none (h : e.affinity = .none) : e.Settles σ := by
  intro env _ v _
  rw [h]
  rfl

/-- What is computed into the wanted register is computed into a register that is to be released. -/
theorem tempOf_ne_none {target : Int → Gen Int} (hconst : e.isConstant .notJoin = false)
    (htarget : ∀ ⦃c c' reg r⦄, (target reg).Makes c r c' → c.Good σ → r = reg) {c c' : Compiler}
    {p : Int × Option Int} (h : (tempOf e target).Makes c p c') (hc : c.Good σ) : p.2 ≠ none := by
  simp only [tempOf, makes_bind, makes_hoists, hconst, Bool.and_false] at h
  obtain ⟨_, _, ⟨rfl, rfl⟩, h⟩ := h
  simp only [Bool.and_false, Bool.false_eq_true, if_false, makes_bind] at h
  obtain ⟨temp, c1, htemp, r, c2, hr, h⟩ := h
  obtain ⟨s1, -⟩ := getTemp_spec htemp hc
  rw [if_pos (htarget hr s1.good), makes_pure] at h
  obtain ⟨rfl, -⟩ := h
  exact Option.some_ne_none _

theorem ComputesAnew.of {body : Int → Gen Int} (hconst : e.isConstant .notJoin = false)
    (hcoded : e.coded.toCode = Code.of e body)
    (hbody : ∀ ⦃c c' reg r⦄, (body reg).Makes c r c' → c.Good σ → r = reg) : e.ComputesAnew σ := by
  have htarget ⦃c c' reg r⦄ (h : (e.coded.target reg).Makes c r c') (hc : c.Good σ) : r = reg := by
    rw [hcoded] at h
    simp only [Code.of, makes_bind] at h
    obtain ⟨⟨⟩, c1, hcheck, h⟩ := h
    cases makes_checkHeight hcheck
    exact hbody h hc
  have htemp : e.coded.temp = tempOf e e.coded.target := by rw [hcoded]; rfl
  exact ⟨hconst, htarget, fun c c' p h hc => tempOf_ne_none hconst htarget (htemp ▸ h) hc⟩

theorem column_computesAnew : (Expr.node info (.column ⟨cursor, column, table, none⟩)).ComputesAnew σ := by
  refine .of ?_ rfl fun c c' reg r h hc => ?_
  · simp [isConstant]
  · rw [show Option.map Coded.toCode (optionCoded none) = none from rfl] at h
    simp only [Gen.column] at h
    split at h
    · simp only [Gen.makes_bind, Gen.makes_pure] at h
      obtain ⟨⟨⟩, c1, -, rfl, -⟩ := h
      rfl
    · rw [Gen.makes_get_bind] at h
      split at h
      · rename_i base hrow
        obtain ⟨n, hn, -⟩ := hc.ownRow _ hrow
        cases hn
      · simp only [Gen.makes_bind, Gen.makes_pure] at h
        obtain ⟨⟨⟩, c1, -, rfl, -⟩ := h
        rfl
      · exact (Gen.makes_throw.1 h).elim

/-- A column that equals a constant has a value that is as its affinity wants it. -/
theorem column_settles {f : Expr} : (node info (.column ⟨cursor, column, table, some f⟩)).Settles σ := by
  intro env _ v hv
  obtain ⟨u, -, rfl⟩ := Option.map_eq_some_iff.1 hv
  show (fixedValue _ u).applyAffinity (ColumnRef.affinity _) = fixedValue _ u
  unfold fixedValue ColumnRef.affinity
  cases table with
  | none => rfl
  | some t =>
    dsimp only [Option.map, Option.getD]
    split
    · rename_i hnone
      rcases Bool.or_eq_true_iff.1 hnone with hblob | hnone
      · rw [of_decide_eq_true hblob]
        rfl
      · rw [of_decide_eq_true hnone]
        rfl
    · exact Value.applyAffinity_idem _ u

theorem PlainCall.hint {fs : Functions} {flags : ExprFlags} {name : String} {args : List (Item Expr)}
    (h : PlainCall fs flags name args) (hflag : flags.unlikely) :
    ∃ f, fs.find? name args.length = some f ∧ f.flags.unlikely ∧ f.flags.coalesce = false := by
  have hany := h.2.2 (.inr hflag)
  rw [hflag] at hany
  cases hfind : fs.find? name args.length with
  | none =>
    rw [hfind] at hany
    cases hany
  | some f =>
    rw [hfind] at hany
    exact ⟨f, rfl, hany.symm, (h.2.1 f hfind).2 hany.symm⟩

section

variable {info : NodeInfo} {name : String} {first : Item Expr} {rest : List (Item Expr)}
  (hflag : info.flags.unlikely = true) (hcall : PlainCall σ.functions info.flags name (first :: rest))
include hflag hcall

theorem hint_settles {window : Option (Window Expr)} (h : first.expr.Settles σ) :
    (node info (.call name (first :: rest) window)).Settles σ := by
  obtain ⟨f, hfind, hunlikely, hcoalesce⟩ := hcall.hint hflag
  intro env hfunctions v hv
  have hvalue : callValue name (itemsMeaning (first :: rest)) env = some v := hv
  rw [itemsMeaning_eq_map, callValue, List.length_map, hfunctions, hfind] at hvalue
  simp only [Option.bind_eq_bind, Option.bind_some, hcoalesce, hunlikely, Bool.false_eq_true, if_false,
    List.map_cons] at hvalue
  have haffinity : (node info (.call name (first :: rest) window)).affinity = first.expr.affinity := by
    rw [affinity, if_pos hflag]
    rfl
  rw [haffinity]
  exact h env hfunctions v hvalue

theorem hint_computesAnew (h : first.expr.ComputesAnew σ) :
    (node info (.call name (first :: rest) none)).ComputesAnew σ := by
  obtain ⟨f, hfind, hunlikely, hcoalesce⟩ := hcall.hint hflag
  have hconst : (node info (.call name (first :: rest) none)).isConstant .notJoin = false := by
    rw [isConstant_notJoin]
    simp [h.constant]
  refine .of hconst rfl fun c c' reg r hmakes hc => ?_
  have hlength : ((itemsCoded (first :: rest)).map Item.toCode).length = (first :: rest).length := by
    rw [itemsCoded_eq_map, List.length_map, List.length_map]
  rcases makes_call hmakes hc with ⟨-, hconstant, -⟩ | ⟨g, hg, hmakes⟩
  · rw [hconst] at hconstant
    cases hconstant
  · rw [hlength, hfind] at hg
    cases hg
    simp only [callFound, hcoalesce, hunlikely, Bool.false_eq_true, if_false, itemsCoded_eq_map,
      List.map_cons] at hmakes
    exact h.target hmakes hc

end

theorem callFound_returns {f : Function} {name : String} {args : List (Item Code)} {reg : Int}
    (hhint : f.flags.unlikely = false) : (callFound f name args reg).Returns reg := by
  unfold callFound
  rw [hhint]
  refine .ite ?_ (.bind fun _ => .pure)
  split
  · exact .bind fun _ => .bind fun _ => .bind fun _ => .bind fun _ => .pure
  · exact .throw

theorem passed_not_constant {operand : Expr} (hkind : e.kind.children = [operand]) (hnode : e.constantNode = true)
    (hjoin : e.flags.fromJoin = true → operand.flags.fromJoin = true) (h : e.isConstant .notJoin = false) :
    operand.isConstant .notJoin = false := by
  rw [isConstant_notJoin, hkind, hnode] at h
  cases hflag : e.flags.fromJoin with
  | false => simpa [hflag] using h
  | true => rw [isConstant_notJoin, hjoin hflag]; rfl

/-- Where every node is computed directly, a value that is no constant is computed into the wanted register. -/
theorem Plain.target_eq (h : e.Plain σ) (hdirect : ∀ x, σ.part x → x.Direct σ.functions)
    (hconst : e.isConstant .notJoin = false) {c c' : Compiler} {reg r : Int}
    (hmakes : (e.coded.target reg).Makes c r c') (hc : c.Good σ) : r = reg := by
  induction e using children_induction generalizing c reg with
  | step info kind ih =>
    have hhere := h.here.scalar.2
    have hnode := hdirect _ h.here.part
    have hpassed {operand : Expr} (hkind : kind.children = [operand])
        (hconst : operand.isConstant .notJoin = false)
        (hmakes : (do checkHeight (node info kind); operand.coded.target reg).Makes c r c') : r = reg := by
      obtain ⟨⟨⟩, c1, hcheck, hmakes⟩ := makes_bind.1 hmakes
      cases makes_checkHeight hcheck
      have hmem : operand ∈ kind.children := hkind ▸ List.mem_singleton_self _
      exact ih operand hmem (h.children operand hmem) hconst hmakes hc
    cases kind with
    | column ref =>
      obtain ⟨cursor, column, table, fixed⟩ := ref
      cases show fixed = none from hnode
      exact column_computesAnew.target hmakes hc
    | collate operand name => exact hpassed rfl (passed_not_constant rfl rfl hnode hconst) hmakes
    | call name args window =>
      cases Option.isNone_iff_eq_none.1 hhere.1
      obtain ⟨⟨⟩, c1, hcheck, hmakes⟩ := makes_bind.1 hmakes
      cases makes_checkHeight hcheck
      rcases makes_call hmakes hc with ⟨-, hconstant, -⟩ | ⟨f, hf, hmakes⟩
      · rw [hconst] at hconstant
        cases hconstant
      · rw [itemsCoded_eq_map, List.length_map, List.length_map] at hf
        have hhint : f.flags.unlikely = false := by simpa [Expr.Direct, hf] using hnode
        exact callFound_returns hhint hmakes
    | vector items => exact Returns.bind (fun _ => .throw) hmakes
    | ident name =>
      rw [coded, Kind.coded] at hmakes
      split at hmakes
      · exact Returns.bind (fun _ => .bind fun _ => .pure) hmakes
      · exact Returns.bind (fun _ => .throw) hmakes
    | unary op operand =>
      cases op with
      | positive => exact hpassed rfl (passed_not_constant rfl rfl hnode hconst) hmakes
      | _ => exact Returns.bind (fun _ => .bind fun _ => .pure) hmakes
    | binary op left right =>
      exact Returns.bind (fun _ => .ite (.bind fun _ => .pure) (.ite (.bind fun _ => .pure) (.bind fun _ => .pure)))
        hmakes
    | integer literal => cases literal <;> exact Returns.bind (fun _ => .bind fun _ => .pure) hmakes
    | between operand low high =>
      exact Returns.bind (fun _ => .bind fun _ => .bind fun _ => .bind fun _ => .pure) hmakes
    | inList id operand items =>
      exact Returns.bind (fun _ => .bind fun _ => .bind fun _ => .bind fun _ => .bind fun _ => .bind fun _ =>
        .bind fun _ => .bind fun _ => .bind fun _ => .pure) hmakes
    | aggColumn | aggCall | register | inSelect | hasRows | subquery | selectColumn | ifNullRow | raise =>
      exact hhere.elim
    | _ => exact Returns.bind (fun _ => .bind fun _ => .pure) hmakes

/-- A value is as its affinity wants it, or it is computed anew each time. -/
theorem Plain.settles_or_computesAnew (h : e.Plain σ) : e.Settles σ ∨ e.ComputesAnew σ := by
  induction e using children_induction with
  | step info kind ih =>
    have hhere := h.here.scalar.2
    have hchildren := h.children
    cases kind with
    | column ref =>
      obtain ⟨cursor, column, table, fixed⟩ := ref
      cases fixed with
      | none => exact .inr column_computesAnew
      | some f => exact .inl column_settles
    | collate operand name =>
      rcases ih operand (by simp) (hchildren operand (by simp)) with
        hsettles | hanew
      · exact .inl hsettles
      · refine .inr ⟨?_, fun c c' reg r hmakes hc => ?_, hanew.temp⟩
        · rw [isConstant_notJoin]
          simp [hanew.constant]
        · obtain ⟨⟨⟩, c1, hcheck, hmakes⟩ := makes_bind.1 hmakes
          cases makes_checkHeight hcheck
          exact hanew.target hmakes hc
    | cast operand type =>
      refine .inl fun env _ v hv => ?_
      obtain ⟨u, -, rfl⟩ := Option.map_eq_some_iff.1 hv
      exact Value.applyAffinity_cast _ u
    | call name args window =>
      obtain ⟨hwindow, hcall⟩ := hhere
      cases hflag : info.flags.unlikely with
      | false => exact .inl (settles_of_none (by rw [affinity, hflag]; rfl))
      | true =>
        cases args with
        | nil => exact .inl (settles_of_none (by rw [affinity, hflag]; rfl))
        | cons first rest =>
          cases Option.isNone_iff_eq_none.1 hwindow
          rcases ih first.expr (by simp) (hchildren _ (by simp)) with
            hsettles | hanew
          · exact .inl (hint_settles hflag hcall hsettles)
          · exact .inr (hint_computesAnew hflag hcall hanew)
    | vector items => exact .inl fun _ _ _ hv => by cases hv
    | register | aggColumn | subquery | selectColumn => exact hhere.elim
    | _ => exact .inl (settles_of_none rfl)

end Expr

end ScalarSql
