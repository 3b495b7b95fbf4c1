import ScalarSql.Proofs.Code.State

/-!
# Taking and releasing registers

Registers are taken from the pool, or are new. What the steps that take and release registers change is stated here
once; `Compiler.Draws` says that nothing but the pool and the number of registers changes.
-/

namespace ScalarSql

/-- The second state differs from the first one in its free registers and in the number of registers alone, and none but
registers of `back` become free. -/
structure Compiler.Draws (back : Int → Prop) (c c' : Compiler) : Prop where
  same : c' = { c with highest := c'.highest, pool := c'.pool, poolRange := c'.poolRange }
  highest : c.highest ≤ c'.highest
  pooled : ∀ r, c'.Pooled r → c.Pooled r ∨ back r

/-- The register was free, or is new in the second state. -/
def Compiler.Supplies (c c' : Compiler) (r : Int) : Prop := c.Pooled r ∨ c.highest < r ∧ r ≤ c'.highest

namespace Gen

variable {c c' : Compiler} {r first : Int} {n : Nat} {e : Expr}

theorem allocRegs_draws (h : (allocRegs n).Makes c first c') :
    c.Draws nowhere c' ∧ ∀ k < n, c.highest < first + (k : Nat) ∧ first + (k : Nat) ≤ c'.highest := by
  obtain ⟨rfl, rfl⟩ := makes_modifyGet.1 h
  refine ⟨⟨rfl, Int.le_add_of_nonneg_right (Int.natCast_nonneg n), fun _ => .inl⟩, fun k hk => ?_⟩
  exact ⟨by omega, by show c.highest + 1 + (k : Int) ≤ c.highest + n; omega⟩

theorem getTemp_draws (h : getTemp.Makes c r c') : c.Draws nowhere c' ∧ c.Supplies c' r := by
  simp only [getTemp, makes_get_bind] at h
  split at h
  · rename_i reg pool hpool
    obtain ⟨_, _, rfl, rfl, rfl⟩ := h
    refine ⟨⟨rfl, Int.le_refl _, fun s hs => .inl ?_⟩, .inl (.inl (hpool ▸ List.mem_cons_self))⟩
    exact hs.imp_left fun hmem => hpool ▸ List.mem_cons_of_mem _ hmem
  · obtain ⟨hdraws, hnew⟩ := allocRegs_draws (n := 1) h
    exact ⟨hdraws, .inr (by simpa using hnew 0 Nat.one_pos)⟩

theorem getTempRange_draws (h : (getTempRange n).Makes c first c') :
    c.Draws nowhere c' ∧ ∀ k < n, c.Supplies c' (first + (k : Nat)) := by
  unfold getTempRange at h
  split at h
  · rename_i hn
    obtain ⟨hdraws, hsupplies⟩ := getTemp_draws h
    refine ⟨hdraws, fun k hk => ?_⟩
    obtain rfl : k = 0 := by omega
    simpa using hsupplies
  · simp only [makes_get_bind] at h
    split at h
    · rename_i hle
      have hle : (n : Int) ≤ c.poolRange.2 := hle
      obtain ⟨_, _, rfl, rfl, rfl⟩ := h
      refine ⟨⟨rfl, Int.le_refl _, fun s hs => .inl (hs.imp_right fun hs => ?_)⟩, fun k hk => .inl (.inr ?_)⟩
      · have hge : c.poolRange.1 + n ≤ s := hs.1
        have hlt : s < c.poolRange.1 + n + (c.poolRange.2 - n) := hs.2
        exact ⟨by omega, by omega⟩
      · show c.poolRange.1 ≤ c.poolRange.1 + k ∧ c.poolRange.1 + k < _
        exact ⟨by omega, by omega⟩
    · obtain ⟨hdraws, hnew⟩ := allocRegs_draws h
      exact ⟨hdraws, fun k hk => .inr (hnew k hk)⟩

theorem releaseTemp_draws (h : (releaseTemp r).Makes c () c') : c.Draws (· = r) c' := by
  obtain rfl := makes_modify.1 h
  split
  · refine ⟨rfl, Int.le_refl _, fun s hs => ?_⟩
    rcases hs with hmem | hrange
    · exact (List.mem_cons.1 hmem).symm.imp_left .inl
    · exact .inl (.inr hrange)
  · exact ⟨rfl, Int.le_refl _, fun _ => .inl⟩

theorem releaseTempRange_draws (h : (releaseTempRange first n).Makes c () c') :
    c.Draws (fun s => ∃ k < n, s = first + (k : Nat)) c' := by
  unfold releaseTempRange at h
  split at h
  · rename_i hn
    obtain rfl : n = 1 := Int.ofNat.inj hn
    obtain ⟨hsame, hle, hpooled⟩ := releaseTemp_draws h
    exact ⟨hsame, hle, fun s hs => (hpooled s hs).imp_right fun hs => ⟨0, Nat.one_pos, by simpa using hs⟩⟩
  · obtain rfl := makes_modify.1 h
    split
    · refine ⟨rfl, Int.le_refl _, fun s hs => ?_⟩
      rcases hs with hmem | ⟨hge, hlt⟩
      · exact .inl (.inl hmem)
      · simp only at hge hlt
        exact .inr ⟨(s - first).toNat, by omega, by omega⟩
    · exact ⟨rfl, Int.le_refl _, fun _ => .inl⟩

theorem clearTemps_draws (h : clearTemps.Makes c () c') : c.Draws nowhere c' := by
  obtain rfl := makes_modify.1 h
  refine ⟨rfl, Int.le_refl _, fun r hr => ?_⟩
  rcases hr with hmem | ⟨hge, hlt⟩
  · cases hmem
  · simp only at hge hlt
    omega

theorem hoist_makes (h : (hoist e none).Makes c r c') :
    (c' = c ∧ ∃ k ∈ c.hoisted.toList, k.shared ∧ k.reg = r ∧ Expr.compare none k.expr e = .equal) ∨
      c.hoisted.find? (fun k => k.shared && Expr.compare none k.expr e == .equal) = none ∧ r = c.highest + 1 ∧
        c' = { c with
          highest := c.highest + 1
          hoisted := c.hoisted.push { expr := e, reg := c.highest + 1, shared := true } } := by
  simp only [hoist, makes_get_bind] at h
  split at h
  · rename_i k hk
    obtain ⟨rfl, rfl⟩ := makes_pure.1 h
    have hmatch := Array.find?_some hk
    simp only [Bool.and_eq_true, beq_iff_eq] at hmatch
    exact .inl ⟨rfl, k, Array.mem_toList_iff.2 (Array.mem_of_find?_eq_some hk), hmatch.1, rfl, hmatch.2⟩
  · rename_i hnone
    obtain ⟨_, _, ⟨rfl, rfl⟩, _, _, rfl, rfl, rfl⟩ := h
    exact .inr ⟨hnone, rfl, rfl⟩

theorem hoistAt_makes {reg : Int} (h : (hoist e (some reg)).Makes c r c') :
    c' = { c with hoisted := c.hoisted.push { expr := e, reg, shared := false } } := by
  obtain ⟨_, _, rfl, -, rfl⟩ := h
  rfl

end Gen

end ScalarSql
