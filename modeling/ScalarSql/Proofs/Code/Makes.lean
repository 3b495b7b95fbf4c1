import ScalarSql.Code.Coded

/-!
# Successful steps of a compilation

A step of a compilation is a function of the compiler's state that may refuse. Every statement about
generated code starts from a step that succeeded, so that a proof first takes such a step apart.
`Gen.Makes` says that a step succeeds with a result and a new state; the lemmas below say what that
means for each way of building a step, and the primitive steps that write instructions or take
registers each come down to one equation about the new state.
-/

namespace ScalarSql

namespace Gen

variable {α β : Type} {c c' : Compiler} {g : Gen α} {a : Int} {u : Unit} {i : Instr} {l : Label} {b : β}

/-- The step succeeds with result `a` and takes the state `c` to `c'`. -/
def Makes (g : Gen α) (c : Compiler) (a : α) (c' : Compiler) : Prop := g.run c = (.ok a, c')

theorem exists_makes (test : α → Compiler → Bool) (h : (g.run c).1.toOption.any (fun a => test a (g.run c).2)) :
    ∃ a c', g.Makes c a c' ∧ test a c' := by
  rcases hrun : g.run c with ⟨e | a, c'⟩
  · rw [hrun] at h
    cases h
  · rw [hrun] at h
    exact ⟨a, c', hrun, h⟩

/-! ## Ways of building a step -/

@[simp]
theorem makes_pure {a b : α} : (pure a : Gen α).Makes c b c' ↔ a = b ∧ c = c' := by
  constructor
  · intro h
    cases h
    exact ⟨rfl, rfl⟩
  · rintro ⟨rfl, rfl⟩
    rfl

theorem run_bind (g : Gen α) (f : α → Gen β) (c : Compiler) : (g >>= f).run c = match g.run c with
      | (.ok a, c1) => (f a).run c1
      | (.error e, c1) => (.error e, c1) := by
  simp only [ExceptT.run, ExceptT.bind, ExceptT.mk, bind, StateT.bind]
  rcases g c with ⟨_ | _, _⟩ <;> rfl

@[simp]
theorem makes_bind {f : α → Gen β} : (g >>= f).Makes c b c' ↔ ∃ a c1, g.Makes c a c1 ∧ (f a).Makes c1 b c' := by
  unfold Makes
  rw [run_bind]
  constructor
  · intro h
    split at h
    case h_1 a c1 hg => exact ⟨a, c1, hg, h⟩
    case h_2 e c1 hg => cases h
  · rintro ⟨a, c1, hg, hf⟩
    rw [hg]
    exact hf

/-- The step fails and leaves the state `c'`. -/
def Fails (g : Gen α) (c : Compiler) (err : CompileError) (c' : Compiler) : Prop := g.run c = (.error err, c')

theorem Fails.bind {err : CompileError} {f : α → Gen β} (h : g.Fails c err c') : (g >>= f).Fails c err c' := by
  unfold Fails at *
  rw [run_bind, h]

theorem Makes.fails {c1 : Compiler} {a : α} {err : CompileError} {f : α → Gen β} (hg : g.Makes c a c1)
    (hf : (f a).Fails c1 err c') : (g >>= f).Fails c err c' := by
  unfold Fails at *
  rw [run_bind, hg]
  exact hf

@[simp]
theorem makes_map {f : α → β} : (f <$> g).Makes c b c' ↔ ∃ a, g.Makes c a c' ∧ b = f a := by
  rw [map_eq_pure_bind, makes_bind]
  constructor
  · rintro ⟨a, c1, hg, hp⟩
    cases hp
    exact ⟨a, hg, rfl⟩
  · rintro ⟨a, hg, rfl⟩
    exact ⟨a, c', hg, rfl⟩

@[simp]
theorem makes_discard {u : PUnit} : (discard g).Makes c u c' ↔ ∃ a, g.Makes c a c' := by
  have discarded : (discard g : Gen PUnit) = (fun _ => PUnit.unit) <$> g := rfl
  rw [discarded, makes_map]
  simp

@[simp]
theorem makes_throw {e : CompileError} {a : α} : (throw e : Gen α).Makes c a c' ↔ False := by
  constructor
  · intro h
    cases h
  · exact False.elim

@[simp]
theorem makes_get {a : Compiler} : (get : Gen Compiler).Makes c a c' ↔ c = a ∧ c = c' := by
  constructor
  · intro h
    cases h
    exact ⟨rfl, rfl⟩
  · rintro ⟨rfl, rfl⟩
    rfl

theorem makes_get_bind {f : Compiler → Gen β} : (get >>= f).Makes c b c' ↔ (f c).Makes c b c' := .rfl

theorem makes_gets {f : Compiler → β} : (do return f (← get) : Gen β).Makes c b c' ↔ b = f c ∧ c = c' := by
  rw [makes_get_bind, makes_pure, eq_comm]

@[simp]
theorem makes_set {d : Compiler} {u : PUnit} : (set d : Gen PUnit).Makes c u c' ↔ c' = d := by
  constructor
  · intro h
    cases h
    rfl
  · rintro rfl
    rfl

@[simp]
theorem makes_modify {f : Compiler → Compiler} {u : PUnit} : (modify f : Gen PUnit).Makes c u c' ↔ c' = f c := by
  constructor
  · intro h
    cases h
    rfl
  · rintro rfl
    rfl

@[simp]
theorem makes_modifyGet {f : Compiler → α × Compiler} {a : α} :
    (modifyGet f : Gen α).Makes c a c' ↔ a = (f c).1 ∧ c' = (f c).2 := by
  constructor
  · intro h
    cases h
    exact ⟨rfl, rfl⟩
  · rintro ⟨rfl, rfl⟩
    rfl

/-! ## Writing instructions -/

@[simp]
theorem makes_here : here.Makes c a c' ↔ a = c.builder.here ∧ c = c' := makes_gets

@[simp]
theorem makes_build {f : Builder → Builder} : (build f).Makes c u c' ↔ c' = { c with builder := f c.builder } :=
  makes_modify

@[simp]
theorem makes_emit : (emit i).Makes c u c' ↔ c' = { c with builder := c.builder.emit i } := makes_build

@[simp]
theorem makes_emitAt : (emitAt i).Makes c a c' ↔ a = c.builder.here ∧ c' = { c with builder := c.builder.emit i } := by
  simp only [emitAt, makes_bind, makes_here, makes_emit, makes_pure]
  constructor
  · rintro ⟨_, _, ⟨rfl, rfl⟩, _, _, rfl, rfl, rfl⟩
    exact ⟨rfl, rfl⟩
  · rintro ⟨rfl, rfl⟩
    exact ⟨_, _, ⟨rfl, rfl⟩, ⟨⟩, _, rfl, rfl, rfl⟩

@[simp]
theorem makes_label : label.Makes c l c' ↔ l = c.builder.label.1 ∧ c' = { c with builder := c.builder.label.2 } :=
  makes_modifyGet

@[simp]
theorem makes_emitJump : (emitJump i l).Makes c u c' ↔ c' = { c with builder := c.builder.emitJump i l } := makes_build

@[simp]
theorem makes_goto : (goto l).Makes c u c' ↔ c' = { c with builder := c.builder.emitJump (.of .goto) l } :=
  makes_emitJump

@[simp]
theorem makes_resolve : (resolve l).Makes c u c' ↔ c' = { c with builder := c.builder.resolve l } := makes_build

@[simp]
theorem makes_jumpHere : (jumpHere a).Makes c u c' ↔ c' = { c with builder := c.builder.jumpHere a } := makes_build

@[simp]
theorem makes_modifyAt {f : Instr → Instr} :
    (modifyAt a f).Makes c u c' ↔ c' = { c with builder := c.builder.modifyAt a f } :=
  makes_build

end Gen

end ScalarSql
