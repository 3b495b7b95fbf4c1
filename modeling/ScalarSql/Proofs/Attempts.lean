import ScalarSql.Store

/-!
# Steps that may refuse

A call that changes a state and may refuse leaves a state behind either way. `Responds` says what it answers and
which state it leaves; the lemmas below take a call apart into the steps that it is built from.
-/

namespace ScalarSql

variable {ε σ α β : Type} {s s' : σ} {r : Except ε α} {x : ExceptT ε (StateM σ) α} {t : σ}
  {f : α → ExceptT ε (StateM σ) β}

/-- The call on the state `s` answers `r` and leaves the state `s'`. -/
def Responds (x : ExceptT ε (StateM σ) α) (s : σ) (r : Except ε α) (s' : σ) : Prop := x.run s = (r, s')

theorem responds_iff {q : Except ε α} (h : x.run s = (q, t)) : Responds x s r s' ↔ r = q ∧ s' = t := by
  rw [Responds, h, Prod.mk.injEq, eq_comm, @eq_comm _ t]

theorem responds_pure {a : α} : Responds (pure a : ExceptT ε (StateM σ) α) s r s' ↔ r = .ok a ∧ s' = s :=
  responds_iff rfl

theorem responds_throw {e : ε} : Responds (throw e : ExceptT ε (StateM σ) α) s r s' ↔ r = .error e ∧ s' = s :=
  responds_iff rfl

theorem responds_modify {f : σ → σ} {r : Except ε PUnit} :
    Responds (modify f : ExceptT ε (StateM σ) PUnit) s r s' ↔ r = .ok ⟨⟩ ∧ s' = f s := responds_iff rfl

theorem responds_except {x : Except ε α} : Responds (liftM x : ExceptT ε (StateM σ) α) s r s' ↔ r = x ∧ s' = s :=
  responds_iff rfl

theorem responds_lift {x : StateM σ α} :
    Responds (liftM x : ExceptT ε (StateM σ) α) s r s' ↔ r = .ok (x.run s).1 ∧ s' = (x.run s).2 := responds_iff rfl

/-- Two steps in a row: the first one refuses, or the second one is called on the state that it leaves. -/
theorem responds_bind {r : Except ε β} : Responds (x >>= f) s r s' ↔
      (∃ e, Responds x s (.error e) s' ∧ r = .error e) ∨ ∃ a s1, Responds x s (.ok a) s1 ∧ Responds (f a) s1 r s' := by
  obtain ⟨q, t, hx⟩ : ∃ q t, x.run s = (q, t) := ⟨_, _, rfl⟩
  have hrun : (x >>= f).run s = ExceptT.bindCont f q t :=
    congrArg (fun p : Except ε α × σ => ExceptT.bindCont f p.1 p.2) hx
  simp only [responds_iff hx]
  rw [Responds, hrun]
  cases q with
  | ok a =>
    constructor
    · exact fun h => .inr ⟨a, t, ⟨rfl, rfl⟩, h⟩
    · rintro (⟨_, ⟨⟨⟩, -⟩, -⟩ | ⟨_, _, ⟨⟨⟩, rfl⟩, h⟩)
      exact h
  | error e =>
    constructor
    · rintro ⟨⟩
      exact .inl ⟨e, ⟨rfl, rfl⟩, rfl⟩
    · rintro (⟨_, ⟨⟨⟩, rfl⟩, rfl⟩ | ⟨_, _, ⟨⟨⟩, -⟩, -⟩)
      rfl

theorem responds_except_bind {x : Except ε α} {r : Except ε β} : Responds (liftM x >>= f) s r s' ↔
      (∃ e, x = .error e ∧ r = .error e ∧ s' = s) ∨ ∃ a, x = .ok a ∧ Responds (f a) s r s' := by
  rw [responds_bind]
  simp only [responds_except]
  constructor
  · rintro (⟨e, ⟨hx, hs⟩, hr⟩ | ⟨a, s1, ⟨hx, rfl⟩, h⟩)
    · exact .inl ⟨e, hx.symm, hr, hs⟩
    · exact .inr ⟨a, hx.symm, h⟩
  · rintro (⟨e, hx, hr, hs⟩ | ⟨a, hx, h⟩)
    · exact .inl ⟨e, ⟨hx.symm, hs⟩, hr⟩
    · exact .inr ⟨a, s, ⟨hx.symm, rfl⟩, h⟩

theorem responds_get_bind {f : σ → ExceptT ε (StateM σ) α} : Responds (get >>= f) s r s' ↔ Responds (f s) s r s' := .rfl

end ScalarSql
