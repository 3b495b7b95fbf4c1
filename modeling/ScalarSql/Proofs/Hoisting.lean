import ScalarSql.Proofs.Layout

/-!
# Constants that are set aside

A caller sets expressions aside between its requests for code (`Gen.session`). Two of them have the same register
exactly if they are equal, unless the caller has chosen the register: that one is given to no other expression. The
program computes each expression that was set aside once, before the body, in any run whose calls return
(`Gen.constants_shared_and_computed_once`).

Where a sub-query overwrites the register of a routine, its Return leads into the constants, and they are computed
again (`Gen.constants_computed_again`).
-/

namespace ScalarSql

open ScalarSql.Expr

namespace Gen

/-! ## Sessions -/

/-- What a caller does between the start and the end of a program. -/
inductive Task where
  | request (r : Request)
  /-- It sets an expression aside, with a register for the value if it wants a certain one. -/
  | setAside (e : Expr) (wanted : Option Int)

structure Aside where
  expr : Expr
  wanted : Option Int
  reg : Int

/-- Does tasks in turn; returns the expressions that were set aside. -/
def perform : (labels : List Label) → List Task → Gen (List Aside)
  | _, [] => return []
  | labels, .request r :: rest => do perform (← r.serve labels) rest
  | labels, .setAside e wanted :: rest => do
    let reg ← hoist e wanted
    return ⟨e, wanted, reg⟩ :: (← perform labels rest)

/-- The program of a caller's tasks, with the expressions that it has set aside and all constants that are computed
before the body. -/
def session (tasks : List Task) : Gen (List Aside × List Hoisted × Program) := do
  start
  let asides ← perform [] tasks
  let constants := (← get).hoisted.toList
  return (asides, constants, ← finish)

/-- How tasks take one state of a compilation to another: expressions are set aside, and constants are added in
between. -/
inductive Performs : Compiler → List Aside → Compiler → Prop
  | nil {c : Compiler} : Performs c [] c
  | request {c c1 c' : Compiler} {asides : List Aside} (h : c.Grows c1) (rest : Performs c1 asides c') :
      Performs c asides c'
  | setAside {c c1 c' : Compiler} {e : Expr} {wanted : Option Int} {reg : Int} {asides : List Aside}
      (h : (hoist e wanted).Makes c reg c1) (rest : Performs c1 asides c') :
      Performs c (⟨e, wanted, reg⟩ :: asides) c'

variable {labels : List Label} {tasks : List Task} {asides : List Aside} {c c' : Compiler} {e : Expr} {reg : Int}
  {ν : Naming} {k : Hoisted}

/-! ## Registers of expressions that were set aside -/

/-- The expression shares the register of a constant. -/
def Aside.Shares (hs : List Hoisted) (x : Aside) : Prop :=
  ∃ k ∈ hs, k.shared = true ∧ k.reg = x.reg ∧ (k.expr = x.expr ∨ Matches k.expr x.expr)

theorem hoist_none (h : (hoist e none).Makes c reg c') :
    (c' = c ∧ ∃ k ∈ c.hoisted.toList, k.shared ∧ k.reg = reg ∧ Matches k.expr e) ∨
      (∀ k ∈ c.hoisted.toList, k.shared → ¬Matches k.expr e) ∧ reg = c.highest + 1 ∧
        (⟨e, reg, true⟩ : Hoisted) ∈ c'.hoisted.toList := by
  rcases hoist_makes h with hfound | ⟨hnone, rfl, rfl⟩
  · exact .inl hfound
  · exact .inr ⟨by simpa [Matches] using hnone, rfl, by simp⟩

theorem hoist_some {wanted : Int} (h : (hoist e (some wanted)).Makes c reg c') :
    reg = wanted ∧ (⟨e, wanted, false⟩ : Hoisted) ∈ c'.hoisted.toList := by
  obtain ⟨_, _, rfl, rfl, rfl⟩ := h
  exact ⟨rfl, by simp⟩

/-- Constants that share registers are the same one if they have the same register or are equal. -/
theorem eq_of_sharing (h : c.Sharing) {k' : Hoisted} (hk : k ∈ c.hoisted.toList) (hk' : k' ∈ c.hoisted.toList)
    (hs : k.shared) (hs' : k'.shared) (hsame : k.reg = k'.reg ∨ Matches k.expr k'.expr) : k = k' := by
  by_contra hne
  have hsymm : Std.Symm fun h k : Hoisted => h.shared → k.shared →
      h.reg ≠ k.reg ∧ compare none h.expr k.expr ≠ .equal :=
    ⟨fun x y hxy hx hy => ⟨(hxy hy hx).1.symm, fun hm => (hxy hy hx).2 (Matches.symm hm)⟩⟩
  obtain ⟨hreg, hmatch⟩ := h.apart.forall hk hk' hne hs hs'
  exact hsame.elim hreg hmatch

theorem Serves.performs (h : Serves labels c) (hregular : ∀ r, Task.request r ∈ tasks → r.Regular)
    (hmake : (perform labels tasks).Makes c asides c') : (∃ labels', Serves labels' c') ∧ Performs c asides c' := by
  induction tasks generalizing labels c asides with
  | nil =>
    obtain ⟨rfl, rfl⟩ := makes_pure.1 hmake
    exact ⟨⟨labels, h⟩, .nil⟩
  | cons task rest ih =>
    obtain hrest : ∀ r, Task.request r ∈ rest → r.Regular := fun r hr => hregular r (List.mem_cons_of_mem _ hr)
    cases task with
    | request r =>
      obtain ⟨labels1, c1, hfirst, hmake⟩ := makes_bind.1 hmake
      obtain ⟨hserves, hgrows⟩ := h.serve hfirst
      exact (ih hserves hrest hmake).imp_right (.request (hgrows (hregular r List.mem_cons_self)))
    | setAside e wanted =>
      simp only [perform, makes_bind, makes_pure] at hmake
      obtain ⟨reg, c1, hfirst, asides, _, hmake, rfl, rfl⟩ := hmake
      obtain ⟨hserves, -⟩ := h.aims (Silent.hoist e wanted).aims (List.forall_mem_nil _) hfirst
      exact (ih hserves hrest hmake).imp_right (.setAside hfirst)

variable (h : Performs c asides c')

include h

theorem Performs.grows : c.Grows c' := by
  induction h with
  | nil => exact .refl _
  | request h _ ih => exact h.trans ih
  | setAside h _ ih => exact (Silent.hoist _ _ _ _ _ h).grows.trans ih

/-- Expressions that were set aside without a wanted register share that of a constant, and with one they have it for
themselves. -/
theorem Performs.shares : ∀ x ∈ asides, (x.wanted = none → x.Shares c'.hoisted.toList) ∧
    ∀ wanted, x.wanted = some wanted → x.reg = wanted ∧ (⟨x.expr, wanted, false⟩ : Hoisted) ∈ c'.hoisted.toList := by
  induction h with
  | nil => exact List.forall_mem_nil _
  | request _ _ ih => exact ih
  | setAside hmake rest ih =>
    have hkept {k : Hoisted} (hk : k ∈ _) := rest.grows.hoisted.subset hk
    refine List.forall_mem_cons.2 ⟨⟨?_, ?_⟩, ih⟩
    · rintro rfl
      rcases hoist_none hmake with ⟨rfl, k, hk, hshared, hreg, hmatch⟩ | ⟨-, -, hk⟩
      · exact ⟨k, hkept hk, hshared, hreg, .inr hmatch⟩
      · exact ⟨_, hkept hk, rfl, rfl, .inl rfl⟩
    · rintro wanted rfl
      exact (hoist_some hmake).imp_right hkept

theorem Performs.reg_eq_iff (hsharing : c.Sharing) (hk : k ∈ c.hoisted.toList)
    (hs : k.shared) (hnamed : ∀ k ∈ c'.hoisted.toList, k.shared → k.expr.Named ν) :
    ∀ x ∈ asides, x.wanted = none → x.expr.Named ν → (k.reg = x.reg ↔ Matches k.expr x.expr) := by
  induction h with
  | nil => exact List.forall_mem_nil _
  | request h _ ih => exact ih (h.sharing hsharing) (h.hoisted.subset hk) hnamed
  | setAside hmake rest ih =>
    have hgrows := (Silent.hoist _ _ _ _ _ hmake).grows
    refine List.forall_mem_cons.2 ⟨?_, ih (hgrows.sharing hsharing) (hgrows.hoisted.subset hk) hnamed⟩
    rintro rfl hx
    have hname {k : Hoisted} (hk : k ∈ _) := hnamed k ((hgrows.trans rest.grows).hoisted.subset hk)
    rcases hoist_none hmake with ⟨rfl, k', hk', hs', rfl, hmatch⟩ | ⟨hnone, rfl, -⟩
    · refine ⟨fun hreg => ?_, fun hm => ?_⟩
      · rw [eq_of_sharing hsharing hk hk' hs hs' (.inl hreg)]
        exact hmatch
      · rw [eq_of_sharing hsharing hk hk' hs hs' (.inr (hm.trans (hname hk hs) hx (hname hk' hs') hmatch.symm))]
    · exact iff_of_false (Int.ne_of_lt (Int.lt_add_one_of_le (hsharing.taken k hk hs))) (hnone k hk hs)

theorem Performs.pairwise (hsharing : c.Sharing) (hnamed : ∀ k ∈ c'.hoisted.toList, k.shared → k.expr.Named ν)
    (hasides : ∀ x ∈ asides, x.wanted = none → x.expr.Named ν) :
    asides.Pairwise fun x y => x.wanted = none → y.wanted = none → (x.reg = y.reg ↔ Matches x.expr y.expr) := by
  induction h with
  | nil => exact .nil
  | request h _ ih => exact ih (h.sharing hsharing) hnamed hasides
  | @setAside c c1 c' e wanted reg asides hmake rest ih =>
    have hgrows := (Silent.hoist _ _ _ _ _ hmake).grows
    have hsharing1 := hgrows.sharing hsharing
    obtain ⟨hx, hasides⟩ := List.forall_mem_cons.1 hasides
    refine .cons (fun y hy hnone hnone' => ?_) (ih hsharing1 hnamed hasides)
    have hy' := hasides y hy hnone'
    obtain rfl : wanted = none := hnone
    have hx := hx rfl
    rcases hoist_none hmake with ⟨rfl, k, hk, hs, rfl, hmatch⟩ | ⟨-, -, hk⟩
    · have hk' := hnamed k (rest.grows.hoisted.subset hk) hs
      rw [rest.reg_eq_iff hsharing1 hk hs hnamed y hy hnone' hy']
      exact ⟨hmatch.symm.trans hx hk' hy', hmatch.trans hk' hx hy'⟩
    · exact rest.reg_eq_iff hsharing1 hk rfl hnamed y hy hnone' hy'

end Gen

section

open Gen Machine

variable {tasks : List Task} {asides : List Aside} {hs : List Hoisted} {p : Program} {c c' : Compiler} {ν : Naming}

/-- Let a caller set expressions aside, in any order with requests for code, and let identities stand for one window
or shared sub-query each. Two expressions that it sets aside without a wanted register get the same register exactly
if they are equal. Such a register is that of a constant that is shared; an expression with a wanted register is a
constant that is not shared.

In the finished program, the code of the constants stands behind the body. A run that comes to the end of the body,
all of whose Returns lead back from a call, passes through the code of each constant once, in their order; until then
it is in the body only inside of calls, and from then on it is always in the body. -/
theorem Gen.constants_shared_and_computed_once (hbuilder : c.builder = {}) (hroutines : c.routines = [])
    (hhoisted : c.hoisted = #[]) (hregular : ∀ r, Task.request r ∈ tasks → r.Regular)
    (h : (session tasks).Makes c (asides, hs, p) c')
    (hasides : ∀ x ∈ asides, x.wanted = none → x.expr.Named ν)
    (hnamed : ∀ k ∈ hs, k.shared = true → k.expr.Named ν) :
    (asides.Pairwise fun x y => x.wanted = none → y.wanted = none →
        (x.reg = y.reg ↔ Expr.compare none x.expr y.expr = .equal)) ∧
      (∀ x ∈ asides, (x.wanted = none → x.Shares hs) ∧
        ∀ wanted, x.wanted = some wanted → x.reg = wanted ∧ ⟨x.expr, wanted, false⟩ ∈ hs) ∧
      ∃ halt blocks last, blocks.map Block.constant = hs ∧ Block.InRow blocks (halt + 1) last ∧
        (∀ b ∈ blocks, b.Computes p.ops) ∧ p.ops[0]? = some (.of .init 0 (halt + 1)) ∧
        p.ops[halt]? = some (.of .halt) ∧ p.ops.size = last + 1 ∧
        ∀ steps m trace, trace? p.ops halt steps (0, m) [] = some trace →
          ∃ constants body parts, trace = ⟨0, []⟩ :: (constants ++ ⟨last, []⟩ :: body) ∧
            Place.outside constants = List.flatten parts ∧ List.Forall₂ Block.Passed blocks parts ∧
            ∀ v ∈ body, 1 ≤ v.address ∧ v.address ≤ halt := by
  simp only [session, makes_bind, makes_get, makes_pure] at h
  obtain ⟨⟨⟩, c₁, hstart, _, c₂, hperform, _, _, ⟨rfl, rfl⟩, _, _, hfinish, ⟨⟩, rfl⟩ := h
  obtain ⟨⟨labels, hserves⟩, hperforms⟩ := (serves_start hbuilder hroutines hstart).performs hregular hperform
  have hsharing : c₁.Sharing := by
    simp only [Gen.start, makes_bind, makes_emitAt, makes_modify] at hstart
    obtain ⟨_, _, ⟨rfl, rfl⟩, rfl⟩ := hstart
    exact ⟨by simp [hhoisted], by simp [hhoisted]⟩
  obtain ⟨blocks, last, hblocks, hlaid⟩ := hserves.laid hfinish
  refine ⟨hperforms.pairwise hsharing hnamed hasides, hperforms.shares, c₂.builder.ops.size, blocks, last, hblocks,
    hlaid.row, hlaid.computes, hlaid.init, hlaid.halts, hlaid.size, fun steps m trace htrace => hlaid.passes htrace⟩

end

/-- The expression has no window and no column of a shared sub-query, down to the given depth, where it ends. -/
def Expr.nameless : (depth : Nat) → Expr → Bool
  | 0, _ => false
  | depth + 1, e =>
    (match e.kind with
      | .call _ _ (some _) | .selectColumn _ _ _ _ => false
      | _ => true) && e.kind.subexpressions.all (nameless depth)

theorem Expr.named_of_nameless {e : Expr} {ν : Naming} {depth : Nat} (h : e.nameless depth) : e.Named ν := by
  induction depth generalizing e with
  | zero => cases h
  | succ depth ih =>
    obtain ⟨info, kind⟩ := e
    obtain ⟨hhere, hparts⟩ := Bool.and_eq_true_iff.1 h
    refine .node ?_ fun x hx => ih (List.all_eq_true.1 hparts x hx)
    cases kind with
    | call name args window =>
      cases window with
      | none => trivial
      | some w => cases hhere
    | selectColumn => cases hhere
    | _ => trivial

namespace Example

def successor : Expr := .ofKind (.binary .add parameter (literal 1))

/-- ?1 + 1 is set aside three times, once with a wanted register, and a sub-query that the body has computed. -/
def settingAside : List Gen.Task :=
  [.request (.registers 2), .setAside successor none, .request (.value firstRow 1), .setAside successor (some 2),
    .setAside successor none, .setAside firstRow none, .request (.write (.of .resultRow 1 2) rfl)]

end Example

open Example Gen Machine in
/-- The first and the third ?1 + 1 have register 3, the second one has register 2 for itself. The three constants are
computed behind the Halt at the address 12, the last one by a call of the routine in the body. The run passes through
each of them once. -/
theorem Gen.constants_shared_and_computed_once_called :
    ∃ asides hs p c, (session settingAside).Makes (.new .empty {}) (asides, hs, p) c ∧
      asides.map (fun x => (x.wanted, x.reg)) = [(none, 3), (some 2, 2), (none, 3), (none, 6)] ∧
      hs.map (fun k => (k.reg, k.shared)) = [(3, true), (2, false), (6, true)] ∧
      (asides.Pairwise fun x y => x.wanted = none → y.wanted = none →
        (x.reg = y.reg ↔ Expr.compare none x.expr y.expr = .equal)) ∧
      (∀ x ∈ asides, x.wanted = none → x.Shares hs) ∧
      ∃ blocks trace constants body parts, blocks.map Block.constant = hs ∧ Block.InRow blocks 13 21 ∧
        trace? p.ops 12 40 (0, .start p .empty store [.integer 2]) [] = some trace ∧
        trace.map (·.address) = [0, 13, 14, 15, 16, 17, 18, 19, 2, 3, 4, 5, 6, 7, 9, 20, 21, 1, 2, 9, 10, 11, 12] ∧
        trace = ⟨0, []⟩ :: (constants ++ ⟨21, []⟩ :: body) ∧ Place.outside constants = List.flatten parts ∧
        List.Forall₂ Block.Passed blocks parts ∧ ∀ v ∈ body, 1 ≤ v.address ∧ v.address ≤ 12 := by
  obtain ⟨⟨asides, hs, p⟩, c, h, htest⟩ := Gen.exists_of_test (session settingAside) (.new .empty {})
    (fun t => t.1.map (fun x => (x.wanted, x.reg)) == [(none, 3), (some 2, 2), (none, 3), (none, 6)] &&
      t.2.1.map (fun k => (k.reg, k.shared)) == [(3, true), (2, false), (6, true)] &&
      t.1.all (fun x => x.expr.nameless 2) && t.2.1.all (fun k => k.expr.nameless 2) &&
      t.2.2.ops[0]?.map (·.p2) == some 13 && t.2.2.ops.size == 22 &&
      (trace? t.2.2.ops 12 40 (0, .start t.2.2 .empty store [.integer 2]) []).map (·.map (·.address)) ==
        some [0, 13, 14, 15, 16, 17, 18, 19, 2, 3, 4, 5, 6, 7, 9, 20, 21, 1, 2, 9, 10, 11, 12]) (by decide +kernel)
  simp only [Bool.and_eq_true, beq_iff_eq, List.all_eq_true] at htest
  obtain ⟨⟨⟨⟨⟨⟨hregs, hconstants⟩, hasides⟩, hnamed⟩, hentry⟩, hsize⟩, haddresses⟩ := htest
  obtain ⟨hpairs, hshares, halt, blocks, last, hblocks, hrow, -, hinit, -, hlast, hpasses⟩ :=
    Gen.constants_shared_and_computed_once (ν := ⟨fun _ => none, fun _ => none⟩) rfl rfl rfl
      (by simp [settingAside, Request.Regular]) h (fun x hx _ => Expr.named_of_nameless (hasides x hx))
      fun k hk _ => Expr.named_of_nameless (hnamed k hk)
  obtain rfl : halt = 12 := by
    rw [hinit] at hentry
    have hentry : (halt : Int) + 1 = 13 := Option.some.inj hentry
    omega
  obtain rfl : last = 21 := by omega
  obtain ⟨trace, htrace, haddresses⟩ := Option.map_eq_some_iff.1 haddresses
  obtain ⟨constants, body, parts, heq, hparts, hpassed, hbody⟩ := hpasses 40 _ trace htrace
  exact ⟨asides, hs, p, c, h, hregs, hconstants, hpairs, fun x hx => (hshares x hx).1, blocks, trace, constants, body,
    parts, hblocks, hrow, htrace, haddresses, heq, hparts, hpassed, hbody⟩

open Example Gen Machine in
/-- The Return at the address 21 leads to the constants, since a sub-query has overwritten its register. The code of
?1 + 1, at the addresses 26 to 28, is passed through twice. -/
theorem Gen.constants_computed_again :
    ((session (overwriting.map .request ++ [.setAside successor none])).run (.new .empty {})).1.toOption.map (fun t =>
        (t.2.1.map (·.reg), (trace? t.2.2.ops 23 40 (0, .start t.2.2 .empty .empty [.integer 0]) []).isSome,
          (visits t.2.2.ops 40 (0, .start t.2.2 .empty .empty [.integer 0])).map Prod.fst)) =
      some ([3, 9, 10], false, [0, 24, 25, 26, 27, 28, 29, 1, 14, 15, 16, 17, 18, 3, 4, 5, 6, 7, 8, 11, 19, 20, 21, 24,
        25, 26, 27, 28, 29, 1, 14, 15, 16, 21, 22, 23]) := by
  decide +kernel

end ScalarSql
