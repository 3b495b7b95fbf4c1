import ScalarSql.Proofs.Code.Registers
import Mathlib.Data.Option.Basic

/-!
# Looking things up in the catalog

A look-up of a collating sequence may ask the factory and so change the catalog, but it finds the sequence
of the scope: the answer does not depend on the look-ups before it.
-/

namespace ScalarSql

namespace Gen

open Compiler

variable {σ : Scope} {c c1 : Compiler} {found : Collation} {e : Expr}

theorem lookup_eq {α : Type} (l : Lookup α) : lookup l = (do
        let c ← get
        set { c with catalog := (l.run c.catalog).2 }
        match (l.run c.catalog).1 with
        | .ok a => return a
        | .error e => throw e) :=
  rfl

theorem makes_lookup {α : Type} {l : Lookup α} {a : α} : (lookup l).Makes c a c1 ↔
      ∃ catalog, l.run c.catalog = (.ok a, catalog) ∧ c1 = { c with catalog } := by
  simp only [lookup_eq, makes_bind, makes_get, makes_set]
  constructor
  · rintro ⟨_, _, ⟨rfl, rfl⟩, _, _, rfl, h⟩
    split at h
    · rename_i x hx
      obtain ⟨rfl, rfl⟩ := h
      exact ⟨_, Prod.ext hx rfl, rfl⟩
    · simp at h
  · rintro ⟨catalog, hl, rfl⟩
    refine ⟨c, c, ⟨rfl, rfl⟩, ⟨⟩, _, rfl, ?_⟩
    simp [hl]

theorem run_lookup {α : Type} (l : Lookup α) (c : Compiler) :
    (lookup l).run c = ((l.run c.catalog).1, { c with catalog := (l.run c.catalog).2 }) := by
  show (match (l.run c.catalog).1 with
    | .ok a => (return a : Gen α)
    | .error e => throw e).run { c with catalog := (l.run c.catalog).2 } = _
  cases (l.run c.catalog).1 <;> rfl

/-- A change of the catalog that does not change the answers to look-ups is a step. -/
theorem catalog_step (hc : c.Good σ) {collations : Collations} (htame : collations.Tame)
    (hsame : ∀ name, collations.answer name = c.catalog.collations.answer name) :
    Step σ [] c { c with catalog := { c.catalog with collations } } :=
  { Step.refl hc with
    good := { hc with tame := htame, collations := fun name => (hsame name).trans (hc.collations name) }
    grows := { (Step.refl hc).grows with } }

theorem run_collation (name : String) (catalog : Catalog) : (Lookup.collation name).run catalog =
      match Collations.resolve name .utf8 catalog.collations with
      | (some found, collations) => (.ok found, { catalog with collations })
      | (none, collations) => (.error (.noSuchCollation name), { catalog with collations }) := by
  have hcatalog : Catalog.collation name catalog = ((Collations.resolve name .utf8 catalog.collations).1,
        { catalog with collations := (Collations.resolve name .utf8 catalog.collations).2 }) := rfl
  unfold Lookup.collation
  simp only [bind, ExceptT.bind, ExceptT.mk, ExceptT.run, StateT.bind, liftM, monadLift,
    MonadLift.monadLift, ExceptT.lift, Functor.map, StateT.map, hcatalog]
  rcases Collations.resolve name .utf8 catalog.collations with ⟨_ | _, _⟩ <;> rfl

theorem lookup_collation_spec {name : String} (hc : c.Good σ) (h : (lookup (Lookup.collation name)).Makes c found c1) :
    Step σ [] c c1 ∧ c1.builder = c.builder ∧ σ.collation name = some found := by
  obtain ⟨catalog, hrun, rfl⟩ := makes_lookup.1 h
  rw [run_collation] at hrun
  rcases hres : Collations.resolve name .utf8 c.catalog.collations with ⟨result, collations⟩
  obtain ⟨htame, hfound, hsame⟩ := Collations.resolve_spec hc.tame hres
  rw [hres] at hrun
  cases result with
  | none => cases hrun
  | some col =>
    cases hrun
    exact ⟨catalog_step hc htame hsame, rfl, (hc.collations name).symm.trans hfound⟩

theorem run_collation? (name : String) (catalog : Catalog) : (Lookup.collation? (some name)).run catalog =
      match (Lookup.collation name).run catalog with
      | (.ok found, catalog) => (.ok (some found), catalog)
      | (.error e, catalog) => (.error e, catalog) := by
  unfold Lookup.collation?
  simp only [bind, ExceptT.bind, ExceptT.mk, ExceptT.run, StateT.bind]
  rcases Lookup.collation name catalog with ⟨_ | _, _⟩ <;> rfl

/-- The sequence is that of the name, if there is a name. -/
def Finds (σ : Scope) : Option String → Option Collation → Prop :=
  Option.Rel fun name found => σ.collation name = some found

theorem lookup_collation?_spec {name : Option String} {found : Option Collation} (hc : c.Good σ)
    (h : (lookup (Lookup.collation? name)).Makes c found c1) :
    Step σ [] c c1 ∧ c1.builder = c.builder ∧ Finds σ name found := by
  cases name with
  | none =>
    obtain ⟨catalog, hrun, rfl⟩ := makes_lookup.1 h
    cases hrun
    exact ⟨.refl hc, rfl, .none⟩
  | some n =>
    obtain ⟨catalog, hrun, rfl⟩ := makes_lookup.1 h
    rw [run_collation?] at hrun
    split at hrun
    · rename_i col _ hcol
      cases hrun
      obtain ⟨hstep, hb, hget⟩ := lookup_collation_spec hc (makes_lookup.2 ⟨catalog, hcol, rfl⟩)
      exact ⟨hstep, hb, .some hget⟩
    · cases hrun

theorem orBinary_spec {given : Option Collation} (hc : c.Good σ) (h : (orBinary given).Makes c found c1) :
    Step σ [] c c1 ∧ c1.builder = c.builder ∧
      (given = some found ∨ given = none ∧ σ.collation "BINARY" = some found) := by
  cases given with
  | some col =>
    obtain ⟨rfl, rfl⟩ := h
    exact ⟨.refl hc, rfl, .inl rfl⟩
  | none =>
    obtain ⟨hstep, hb, hget⟩ := lookup_collation_spec hc h
    exact ⟨hstep, hb, .inr ⟨rfl, hget⟩⟩

theorem run_checkHeight (e : Expr) (c : Compiler) : (checkHeight e).run c =
    (if c.config.maxDepth < e.height then .error (.tooDeep c.config.maxDepth) else .ok (), c) := by
  show ((if c.config.maxDepth < e.height then throw (.tooDeep c.config.maxDepth) else pure () : Gen Unit)).run c = _
  split <;> rfl

theorem checkHeight_makes (h : e.height ≤ c.config.maxDepth) : (checkHeight e).Makes c () c :=
  (run_checkHeight e c).trans (by rw [if_neg (Nat.not_lt.2 h)])

theorem makes_checkHeight {u : Unit} (h : (checkHeight e).Makes c u c1) : c1 = c := by
  simp only [checkHeight, makes_get_bind] at h
  split at h
  · simp at h
  · simp only [makes_pure] at h
    exact h.2.symm

theorem makes_hoists {b : Bool} : (hoists e).Makes c b c1 ↔ b = (c.hoisting && e.isConstant .notJoin) ∧ c = c1 :=
  makes_gets

end Gen

end ScalarSql
