import Mathlib.Data.List.Nodup
import Mathlib.Data.List.Perm.Basic
import ScalarSql.Proofs.Code.Pool
import ScalarSql.Proofs.Machine.Frames

/-!
# Registers that are held

Code takes registers for good or for a short time and releases some of them. `Compiler.Leased` is any such sequence,
in which only what is held is released, as it was taken, and the numbers of registers fit in 32 bits. The registers in
use are then counted at most once among those held, the free ones and the free row (`Compiler.Leased.kept`): a step
moves registers between these places, drops some or adds new ones, and `Compiler.Kept.regroup` says once that this is
all it takes.
-/

namespace ScalarSql

open Gen

/-- A step that takes `n` registers in a row and returns the first. The number is not negative. -/
inductive Gen.Grants : Gen Int → Nat → Prop
  | allocReg : Grants allocReg 1
  | allocRegs (n : Nat) : Grants (allocRegs n) n
  | getTemp : Grants getTemp 1
  | getTempRange {n : Nat} (h : 1 ≤ n) : Grants (getTempRange n) n

/-- The rows of registers that are held after some were taken and some released. -/
inductive Compiler.Leased (catalog : Catalog) (config : Config) : List (Int × Nat) → Compiler → Prop
  | new : Leased catalog config [] (.new catalog config)
  | grant {held c c' n first} {g : Gen Int} (h : Leased catalog config held c) (hg : g.Grants n)
    (hmake : g.Makes c first c') (hsmall : c'.highest < 2147483648) : Leased catalog config ((first, n) :: held) c'
  | release {held c c' reg} (h : Leased catalog config held c) (hheld : (reg, 1) ∈ held)
    (hmake : (releaseTemp reg).Makes c () c') : Leased catalog config (held.erase (reg, 1)) c'
  | releaseRow {held c c' first n} (h : Leased catalog config held c) (hheld : (first, n) ∈ held)
    (hmake : (releaseTempRange first n).Makes c () c') : Leased catalog config (held.erase (first, n)) c'
  | clear {held c c'} (h : Leased catalog config held c) (hmake : clearTemps.Makes c () c') :
    Leased catalog config held c'

/-- The registers that are held, then the free ones and the free row. -/
def Compiler.inUse (held : List (Int × Nat)) (c : Compiler) : List Int :=
  held.flatMap (fun row => registerRow row.1 row.2) ++ (c.pool ++ registerRow c.poolRange.1 c.poolRange.2.toNat)

/-- The registers in use are in one place each, and not more are free than the pool may hold. -/
structure Compiler.Kept (config : Config) (held : List (Int × Nat)) (c : Compiler) : Prop where
  nodup : (c.inUse held).Nodup
  bounds : ∀ r ∈ c.inUse held, 1 ≤ r ∧ r ≤ c.highest
  highest : 0 ≤ c.highest
  size : c.pool.length ≤ config.pooledRegisters
  config : c.config = config

namespace Compiler

variable {catalog : Catalog} {config : Config} {held held' : List (Int × Nat)} {c c' : Compiler} {g : Gen Int} {n : Nat}
  {first : Int}

theorem count_registerRow_le (first : Int) (n : Nat) (r : Int) : (registerRow first n).count r ≤ 1 := by
  refine List.nodup_iff_count_le_one.1 (List.nodup_range.map fun a b h => ?_) r
  have h : first + (a : Int) = first + b := h
  omega

theorem registerRow_append (first : Int) (n k : Nat) :
    registerRow first (n + k) = registerRow first n ++ registerRow (first + n) k := by
  simp [registerRow, List.range_add, Int.add_assoc]

/-- A step that adds `n` new registers, and drops or moves others, keeps them in one place each. -/
theorem Kept.regroup (h : Kept config held c) (n : Nat)
    (hcount : ∀ r, (c'.inUse held').count r ≤ (registerRow (c.highest + 1) n).count r + (c.inUse held).count r)
    (hhighest : c'.highest = c.highest + n) (hconfig : c'.config = c.config)
    (hsize : c'.pool.length ≤ config.pooledRegisters) : Kept config held' c' := by
  refine ⟨List.nodup_iff_count_le_one.2 fun r => Nat.le_trans (hcount r) ?_, fun r hr => ?_, ?_, hsize,
    hconfig.trans h.config⟩
  · have hold := List.nodup_iff_count_le_one.1 h.nodup r
    have hnew := count_registerRow_le (c.highest + 1) n r
    by_cases hr : r ∈ c.inUse held
    · -- a register that is in use is not new
      rw [List.count_eq_zero_of_not_mem fun hmem => ?_]
      · omega
      · obtain ⟨k, -, rfl⟩ := mem_registerRow.1 hmem
        have := (h.bounds _ hr).2
        omega
    · rw [List.count_eq_zero_of_not_mem hr]
      omega
  · have hpos := Nat.lt_of_lt_of_le (List.count_pos_iff.2 hr) (hcount r)
    have hnonneg := h.highest
    obtain hmem | hmem : r ∈ registerRow (c.highest + 1) n ∨ r ∈ c.inUse held := by
      rw [← List.count_pos_iff, ← List.count_pos_iff]
      omega
    · obtain ⟨k, hk, rfl⟩ := mem_registerRow.1 hmem
      omega
    · have := h.bounds r hmem
      omega
  · have := h.highest
    omega

theorem count_erase (hheld : (first, n) ∈ held) (r : Int) : (held.flatMap fun row => registerRow row.1 row.2).count r =
      (registerRow first n).count r + ((held.erase (first, n)).flatMap fun row => registerRow row.1 row.2).count r := by
  rw [((List.perm_cons_erase hheld).flatMap_right _).count_eq, List.flatMap_cons, List.count_append]

theorem Kept.allocRegs (h : Kept config held c) (hmake : (allocRegs n).Makes c first c') :
    Kept config ((first, n) :: held) c' := by
  obtain ⟨rfl, rfl⟩ := makes_modifyGet.1 hmake
  refine h.regroup n (fun r => ?_) rfl rfl h.size
  simp only [inUse, List.flatMap_cons, List.count_append]
  omega

@[simp] theorem registerRow_zero (first : Int) : registerRow first 0 = [] := rfl

@[simp] theorem registerRow_one (first : Int) : registerRow first 1 = [first] := by simp [registerRow]

theorem Kept.getTemp (h : Kept config held c) (hmake : getTemp.Makes c first c') :
    Kept config ((first, 1) :: held) c' := by
  simp only [Gen.getTemp, makes_get_bind] at hmake
  split at hmake
  · rename_i reg pool hpool
    simp only [makes_bind, makes_set, makes_pure] at hmake
    obtain ⟨_, _, rfl, rfl, rfl⟩ := hmake
    replace hpool : c.pool = [reg] ++ pool := hpool
    have hsize : pool.length ≤ c.pool.length := by simp [hpool]
    refine h.regroup 0 (fun r => ?_) (Int.add_zero _).symm rfl (Nat.le_trans hsize h.size)
    simp only [inUse, hpool, List.flatMap_cons, List.count_append, registerRow_one]
    omega
  · exact h.allocRegs hmake

theorem Kept.getTempRange (h : Kept config held c) (hmake : (getTempRange n).Makes c first c') :
    Kept config ((first, n) :: held) c' := by
  unfold Gen.getTempRange at hmake
  split at hmake
  · rename_i hn
    obtain rfl : n = 1 := Int.ofNat.inj hn
    exact h.getTemp hmake
  simp only [makes_get_bind] at hmake
  split at hmake
  · rename_i hle
    replace hle : (n : Int) ≤ c.poolRange.2 := hle
    simp only [makes_bind, makes_set, makes_pure] at hmake
    obtain ⟨_, _, rfl, rfl, rfl⟩ := hmake
    refine h.regroup 0 (fun r => ?_) (Int.add_zero _).symm rfl h.size
    show (inUse ((c.poolRange.1, n) :: held) { c with poolRange := (c.poolRange.1 + n, c.poolRange.2 - n) }).count r ≤ _
    -- the row that is taken is the front of the free row
    have hsplit : c.poolRange.2.toNat = n + (c.poolRange.2 - n).toNat := by omega
    simp only [inUse, hsplit, registerRow_append, List.flatMap_cons, List.count_append]
    omega
  · exact h.allocRegs hmake

theorem Kept.release (h : Kept config held c) (hheld : (first, 1) ∈ held) (hmake : (releaseTemp first).Makes c () c') :
    Kept config (held.erase (first, 1)) c' := by
  obtain rfl := makes_modify.1 hmake
  have hcount := count_erase hheld
  split
  · rename_i hroom
    refine h.regroup 0 (fun r => ?_) (Int.add_zero _).symm rfl (h.config ▸ hroom.2)
    have hcons : first :: c.pool = registerRow first 1 ++ c.pool := by simp
    simp only [inUse, hcons, List.count_append, hcount]
    omega
  · refine h.regroup 0 (fun r => ?_) (Int.add_zero _).symm rfl h.size
    simp only [inUse, List.count_append, hcount]
    omega

theorem Kept.releaseRow (h : Kept config held c) (hheld : (first, n) ∈ held)
    (hmake : (releaseTempRange first n).Makes c () c') : Kept config (held.erase (first, n)) c' := by
  unfold releaseTempRange at hmake
  split at hmake
  · rename_i hn
    obtain rfl : n = 1 := Int.ofNat.inj hn
    exact h.release hheld hmake
  obtain rfl := makes_modify.1 hmake
  have hcount := count_erase hheld
  split <;> refine h.regroup 0 (fun r => ?_) (Int.add_zero _).symm rfl h.size <;>
    simp only [inUse, List.count_append, hcount, Int.toNat_natCast] <;> omega

/-- Whatever was taken and released, the registers in use are in one place each. -/
theorem Leased.kept (h : Leased catalog config held c) : Kept config held c := by
  induction h with
  | new => exact ⟨List.nodup_nil, by simp [inUse, Compiler.new], Int.le_refl 0, Nat.zero_le _, rfl⟩
  | grant _ hg hmake _ ih =>
    cases hg with
    | allocReg => exact ih.allocRegs (n := 1) hmake
    | allocRegs => exact ih.allocRegs hmake
    | getTemp => exact ih.getTemp hmake
    | getTempRange => exact ih.getTempRange hmake
  | release _ hheld hmake ih => exact ih.release hheld hmake
  | releaseRow _ hheld hmake ih => exact ih.releaseRow hheld hmake
  | clear _ hmake ih =>
    obtain rfl := makes_modify.1 hmake
    refine ih.regroup 0 (fun r => ?_) (Int.add_zero _).symm rfl (Nat.zero_le _)
    simp [inUse]

theorem Leased.small (h : Leased catalog config held c) : c.highest < 2147483648 := by
  induction h with
  | new => exact (by decide : (0 : Int) < 2147483648)
  | grant _ _ _ hsmall _ => exact hsmall
  | release _ _ hmake ih =>
    obtain rfl := makes_modify.1 hmake
    split <;> exact ih
  | releaseRow _ _ hmake ih =>
    unfold releaseTempRange releaseTemp at hmake
    split at hmake <;> obtain rfl := makes_modify.1 hmake <;> split <;> exact ih
  | clear _ hmake ih =>
    obtain rfl := makes_modify.1 hmake
    exact ih

/-- The registers that are held, the free ones and the free row have no register in common and none twice, all are
registers of the program, whose numbers fit in 32 bits, and not more are free than allowed. What is taken next is not
held. -/
theorem leases_disjoint (h : Leased catalog config held c) :
    (c.inUse held).Nodup ∧ (∀ r ∈ c.inUse held, 1 ≤ r ∧ r ≤ c.highest) ∧ c.highest < 2147483648 ∧
      c.pool.length ≤ config.pooledRegisters ∧
      ∀ (g : Gen Int) n first c', g.Grants n → g.Makes c first c' → c'.highest < 2147483648 →
        ∀ r ∈ registerRow first n, ∀ row ∈ held, r ∉ registerRow row.1 row.2 := by
  refine ⟨h.kept.nodup, h.kept.bounds, h.small, h.kept.size, fun g n first c' hg hmake hsmall r hr row hrow hmem => ?_⟩
  have hnext := (h.grant hg hmake hsmall).kept.nodup
  rw [inUse, List.flatMap_cons, List.append_assoc, List.nodup_append] at hnext
  exact hnext.2.2 r hr r (List.mem_append_left _ (List.mem_flatMap.2 ⟨row, hrow, hmem⟩)) rfl

theorem leases_disjoint_split : ∃ c, Leased .empty {} [(5, 1), (1, 3)] c ∧
    (c.inUse [(5, 1), (1, 3)]).Nodup := by
  have hrow : Leased .empty {} [(1, 4)] _ := .grant .new (.getTempRange (n := 4) (by decide)) rfl (by decide)
  have hfree : Leased .empty {} [] _ := hrow.releaseRow (.head _) rfl
  have hpart : Leased .empty {} [(1, 3)] _ := .grant hfree (.getTempRange (n := 3) (by decide)) rfl (by decide)
  have hheld : Leased .empty {} [(5, 1), (1, 3)] _ := .grant hpart .getTemp rfl (by decide)
  exact ⟨_, hheld, (leases_disjoint hheld).1⟩

/-- After a request for a negative number of registers, one that is held is granted again. -/
theorem register_granted_twice : ∃ c₁ c₂ c₃, allocReg.Makes (.new .empty {}) 1 c₁ ∧
    (Gen.allocRegs (-1)).Makes c₁ 2 c₂ ∧ allocReg.Makes c₂ 1 c₃ := ⟨_, _, _, rfl, rfl, rfl⟩

end Compiler

end ScalarSql
