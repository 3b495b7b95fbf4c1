import ScalarSql.Proofs.Branching
import ScalarSql.Proofs.Value.Order

/-!
# The keys of an ephemeral table in order

Records are inserted into an ephemeral table at the place that halving finds, through the cursor that opened the table
or through cursors that share it (`Machine.Filled`). No key is lost, keys that can be compared are in order, and of
keys of one field the NULLs come first, whatever the collating sequence does. So the first key tells whether there is a
NULL (`Machine.table_ordered`). An integer that counts as equal to the double `2 ^ 63` spoils the order
(`Machine.table_not_sorted`). Equal keys are kept, so that a loop over the table of IN visits them more than once
(`Gen.loop_repeats_keys`).
-/

namespace ScalarSql

open Instr

namespace Key

variable {cs : List (Option Collation)} {keys : List Key} {key x y z : Key} {v : Value}

/-- The order of the values of each field is a preorder. -/
def Ordered (cs : List (Option Collation)) : Prop := ∀ c : Collation, some c ∈ cs → Std.TransCmp c.order

/-- The keys have as many fields, and the values of each field can be compared. -/
def Comparable (x y : Key) : Prop := List.Forall₂ (fun a b => Value.comparable a b) x y

theorem insert_perm (cs : List (Option Collation)) (keys : List Key) (key : Key) :
    (Key.insert cs keys key).Perm (key :: keys) := by
  refine List.perm_middle.trans (.cons key ?_)
  rw [List.take_append_drop]

theorem Ordered.headD (h : Ordered cs) : Std.TransCmp ((cs.headD none).elim Text.binary Collation.order) := by
  cases cs with
  | nil => exact Value.transCmp_builtin (by simp)
  | cons c cs =>
    cases c with
    | none => exact Value.transCmp_builtin (by simp)
    | some c => exact h c List.mem_cons_self

theorem Ordered.tail (h : Ordered cs) : Ordered cs.tail := fun c hc => h c (List.mem_of_mem_tail hc)

theorem compare_cons (cs : List (Option Collation)) (a b : Value) (x y : Key) :
    compare cs (a :: x) (b :: y) = (Value.compareBy (cs.headD none) a b).then (compare cs.tail x y) := by
  rw [compare]
  cases Value.compareBy (cs.headD none) a b <;> rfl

theorem compare_swap (h : Ordered cs) (x y : Key) : compare cs y x = (compare cs x y).swap := by
  induction x generalizing cs y with
  | nil => cases y <;> rfl
  | cons a x ih =>
    cases y with
    | nil => rfl
    | cons b y =>
      have := h.headD
      rw [compare_cons, compare_cons, Ordering.swap_then, ih h.tail]
      congr 1
      exact Value.compareWith_swap

theorem isLE_trans (h : Ordered cs) (hxy : Comparable x y) (hyz : Comparable y z) (hxz : Comparable x z)
    (hle : (compare cs x y).isLE) (hle' : (compare cs y z).isLE) : (compare cs x z).isLE := by
  induction hxy generalizing cs z with
  | nil =>
    cases hyz
    rfl
  | @cons a b x y hab hxy ih =>
    cases hyz with
    | @cons _ c _ z hbc hyz =>
      cases hxz with
      | cons hac hxz =>
        have := h.headD
        rw [compare_cons, Value.compareBy, Value.compareWith_eq_compareParts hab, Ordering.isLE_then_iff_or] at hle
        rw [compare_cons, Value.compareBy, Value.compareWith_eq_compareParts hbc, Ordering.isLE_then_iff_or] at hle'
        rw [compare_cons, Value.compareBy, Value.compareWith_eq_compareParts hac, Ordering.isLE_then_iff_or]
        obtain hlt | ⟨heq, hle⟩ := hle
        · exact .inl (hle'.elim (Std.TransCmp.lt_trans hlt) fun h => Std.TransCmp.lt_of_lt_of_eq hlt h.1)
        · exact hle'.imp (Std.TransCmp.lt_of_eq_of_lt heq)
            fun h' => ⟨Std.TransCmp.eq_trans heq h'.1, ih h.tail hyz hxz hle h'.2⟩

theorem not_lt_iff (h : Ordered cs) : compare cs x y ≠ .lt ↔ (compare cs y x).isLE := by
  rw [compare_swap h x y]
  cases compare cs x y <;> simp

/-- If the condition holds of a first part of the places only, the place behind them is found. -/
theorem bisect_spec {p : Nat → Bool} {n : Nat} (hdown : ∀ i j, i < j → p j → p i) (hend : p n = false) :
    (∀ i < bisect p (n + 1) 0 n, p i) ∧ ∀ i, bisect p (n + 1) 0 n ≤ i → p i = false := by
  have hex : ∃ j, p j = false := ⟨n, hend⟩
  have hmin (i : Nat) (hi : i < Nat.find hex) : p i := by simpa using Nat.find_min hex hi
  have hlater (i : Nat) (hi : Nat.find hex ≤ i) : p i = false := by
    obtain heq | hlt := Nat.eq_or_lt_of_le hi
    · exact heq ▸ Nat.find_spec hex
    · exact Bool.eq_false_iff.2 fun h => Bool.eq_false_iff.1 (Nat.find_spec hex) (hdown _ i hlt h)
  have hplace : bisect p (n + 1) 0 n = Nat.find hex := by
    refine Nat.le_antisymm (bisect_le hlater (Nat.zero_le _)) (le_bisect hmin ?_ (Nat.le_succ n))
    exact (Nat.find_min' hex hend).trans (Nat.le_add_left n 0)
  rw [hplace]
  exact ⟨hmin, hlater⟩

theorem insert_sorted (h : Ordered cs) (hc : ∀ x ∈ key :: keys, ∀ y ∈ key :: keys, Comparable x y)
    (hs : keys.Pairwise fun x y => (compare cs x y).isLE) :
    (insert cs keys key).Pairwise fun x y => (compare cs x y).isLE := by
  have hdown (i j : Nat) (hij : i < j) (hj : (keys[j]?).any fun k => compare cs k key == .lt) :
      (keys[i]?).any fun k => compare cs k key == .lt := by
    rw [Option.any_eq_true] at hj
    obtain ⟨y, hy, hlt⟩ := hj
    obtain ⟨hlen, rfl⟩ := List.getElem?_eq_some_iff.1 hy
    rw [List.getElem?_eq_getElem (hij.trans hlen), Option.any_some, beq_iff_eq]
    by_contra hnot
    -- the new key would be at most the one before, hence at most the one behind, which is less
    have hmem {i : Nat} (hi : i < keys.length) : keys[i] ∈ key :: keys := List.mem_cons_of_mem _ (List.getElem_mem hi)
    have hle := isLE_trans h (hc _ List.mem_cons_self _ (hmem _)) (hc _ (hmem _) _ (hmem hlen))
      (hc _ List.mem_cons_self _ (hmem hlen)) ((not_lt_iff h).1 hnot) (List.pairwise_iff_getElem.1 hs i j _ hlen hij)
    exact (not_lt_iff h).2 hle (beq_iff_eq.1 hlt)
  obtain ⟨hbefore, hbehind⟩ := bisect_spec hdown (by simp : (keys[keys.length]?).any _ = false)
  refine List.pairwise_append.2 ⟨hs.sublist (List.take_sublist ..), List.pairwise_cons.2 ⟨fun y hy => ?_,
    hs.sublist (List.drop_sublist ..)⟩, fun x hx y hy => ?_⟩
  · obtain ⟨i, hi⟩ := List.mem_iff_getElem?.1 hy
    rw [List.getElem?_drop] at hi
    have hfalse : (keys[place cs keys key + i]?).any _ = false := hbehind _ (Nat.le_add_right _ i)
    rw [hi] at hfalse
    exact (not_lt_iff h).1 (by simpa using hfalse)
  · obtain rfl | hy := List.mem_cons.1 hy
    · obtain ⟨i, hi⟩ := List.mem_iff_getElem?.1 hx
      rw [List.getElem?_take] at hi
      split at hi
      · have htrue := hbefore i ‹_›
        rw [hi] at htrue
        simp [show compare cs x y = .lt by simpa using htrue]
      · cases hi
    · exact (List.pairwise_append.1 ((List.take_append_drop _ keys).symm ▸ hs)).2.2 x hx y hy

/-- The keys of a table after the records were inserted, the last one first. -/
def table (cs : List (Option Collation)) : List Key → List Key
  | [] => []
  | key :: keys => insert cs (table cs keys) key

theorem table_perm (cs : List (Option Collation)) (keys : List Key) : (table cs keys).Perm keys := by
  induction keys with
  | nil => exact .refl _
  | cons key keys ih => exact (insert_perm cs _ key).trans (ih.cons key)

theorem table_sorted (h : Ordered cs) (hc : ∀ x ∈ keys, ∀ y ∈ keys, Comparable x y) :
    (table cs keys).Pairwise fun x y => (compare cs x y).isLE := by
  induction keys with
  | nil => exact .nil
  | cons key keys ih =>
    have hmem {x : Key} (hx : x ∈ key :: table cs keys) : x ∈ key :: keys := ((table_perm cs keys).cons key).subset hx
    exact insert_sorted h (fun x hx y hy => hc x (hmem hx) y (hmem hy))
      (ih fun x hx y hy => hc x (.tail _ hx) y (.tail _ hy))

/-- NULLs come first, and no other place holds one. -/
def NullsFirst (keys : List Key) : Prop := ∃ k rest, keys = List.replicate k [.null] ++ rest ∧ [.null] ∉ rest

theorem NullsFirst.insert (h : NullsFirst keys) (hsingle : ∀ k ∈ keys, ∃ v, k = [v]) (v : Value) :
    NullsFirst (Key.insert cs keys [v]) := by
  obtain ⟨k, rest, rfl, hrest⟩ := h
  by_cases hv : v = .null
  · exact ⟨k + 1, rest, by simp [Key.insert, hv, place_null hsingle, List.replicate_succ], hrest⟩
  · have hplace : k ≤ place cs (List.replicate k [.null] ++ rest) [v] :=
      le_place hv (by simp) fun i hi => by simp [List.getElem?_append_left, hi]
    obtain ⟨i, hi⟩ := Nat.exists_eq_add_of_le hplace
    refine ⟨k, rest.take i ++ [v] :: rest.drop i, ?_, ?_⟩
    · simp [Key.insert, hi, List.take_append, List.drop_append]
    · rw [List.mem_append, List.mem_cons]
      rintro (hmem | heq | hmem)
      · exact hrest (List.mem_of_mem_take hmem)
      · exact hv (List.cons.inj heq).1.symm
      · exact hrest (List.mem_of_mem_drop hmem)

theorem table_nullsFirst (hsingle : ∀ k ∈ keys, ∃ v, k = [v]) : NullsFirst (table cs keys) := by
  induction keys with
  | nil => exact ⟨0, [], rfl, List.not_mem_nil⟩
  | cons key keys ih =>
    obtain ⟨⟨v, rfl⟩, hrest⟩ := List.forall_mem_cons.1 hsingle
    exact (ih hrest).insert (fun k hk => hrest k ((table_perm cs keys).subset hk)) v

theorem NullsFirst.head (h : NullsFirst (key :: keys)) : key = [.null] ↔ [.null] ∈ key :: keys := by
  refine ⟨fun heq => heq ▸ List.mem_cons_self, fun hmem => ?_⟩
  obtain ⟨k, rest, heq, hrest⟩ := h
  cases k with
  | zero =>
    rw [heq] at hmem
    exact absurd hmem hrest
  | succ k => exact (List.cons.inj heq).1

end Key

namespace Machine

/-- The machine after the records were inserted into the table, the last one first, through the cursor that opened it
and others that share it. Between these instructions come others that leave the table alone. -/
inductive Filled (t : Nat) (cs : List Collation) : List Key → Machine → Prop
  | opened {m m' n w a flow} (ht : t = m.ephemeral.size) (hnew : ∀ k cs', ¬ m.On k t cs')
    (hstep : ((of .openEphemeral n w 0 (.keyInfo cs)).step a).outcome m = (.ok flow, m')) : Filled t cs [] m'
  | shared {m m' keys n k cs' a flow} (h : Filled t cs keys m) (hon : m.On n t cs')
    (hstep : ((of .openDup k n).step a).outcome m = (.ok flow, m')) : Filled t cs keys m'
  | inserted {m m' keys n r cs' key a flow} (h : Filled t cs keys m) (hon : m.On n t cs')
    (hkey : m.records.lookup r = some key)
    (hstep : ((of .idxInsert n r).step a).outcome m = (.ok flow, m')) : Filled t cs (key :: keys) m'
  | other {m m' keys} (h : Filled t cs keys m) (hkeys : m'.ephemeral[t]? = m.ephemeral[t]?)
    (hcursors : ∀ n cs', m'.On n t cs' → m.On n t cs') : Filled t cs keys m'

variable {m : Machine} {t : Nat} {cs : List Collation} {keys : List Key}

/-- The cursors on the table have its collating sequences, and the records are its keys. -/
theorem Filled.tabled (h : m.Filled t cs keys) : (∀ n cs', m.On n t cs' → cs' = cs.map some) ∧
    m.ephemeral[t]? = some (Key.table (cs.map some) keys) := by
  induction h with
  | @opened m m' n w a flow ht hnew hstep =>
    rw [step_openEphemeral] at hstep
    cases hstep
    subst ht
    refine ⟨fun k cs' hon => ?_, tabled_withTable.keys⟩
    rw [On, anchor?_withTable] at hon
    split at hon
    · cases hon
      rfl
    · exact absurd hon (hnew k cs')
  | @shared m m' keys n k cs' a flow _ hon hstep ih =>
    obtain ⟨cur, hcur, hdata, rfl, -⟩ := Tabled.cursor ⟨hon, ih.2⟩
    simp [step, openCursor, openDup, Exec.outcome_cursor hcur, hdata] at hstep
    obtain ⟨-, rfl⟩ := hstep
    refine ⟨fun k' cs' hon' => ?_, ih.2⟩
    rw [On, anchor?, cursor?_setCursor] at hon'
    split at hon'
    · cases hon'
      exact ih.1 n _ hon
    · exact ih.1 k' cs' hon'
  | @inserted m m' keys n r cs' key a flow _ hon hkey hstep ih =>
    obtain rfl := ih.1 n cs' hon
    rw [step_idxInsert hkey ⟨hon, ih.2⟩] at hstep
    cases hstep
    exact ⟨ih.1, (Tabled.setTable ⟨hon, ih.2⟩ _).keys⟩
  | other _ hkeys hcursors ih => exact ⟨fun n cs' hon => ih.1 n cs' (hcursors n cs' hon), hkeys.trans ih.2⟩

end Machine

/-- The code for the flag sets the register to the first field of the first key, or to zero if there is no key. -/
theorem Gen.loadHasNull_leads {n reg : Int} {c c' : Compiler} {ops : Array Instr} {m : Machine} {t : Nat}
    {cs : List (Option Collation)} {keys : List Key} (hmake : (loadHasNull n reg).Makes c () c')
    (hops : ∀ a, c.size ≤ a → a < c'.size → ops[a]? = c'.builder.ops[a]?) (hreg : 0 ≤ reg) (h : m.Tabled n t cs keys) :
    Leads ops (fun a m' => a = c'.size ∧ m'.register reg =
      if keys = [] then .integer 0 else ((keys.head?.bind (·.head?)).getD .null)) False 3 c.size m := by
  simp only [loadHasNull, makes_bind, makes_emit, makes_emitAt, makes_jumpHere] at hmake
  obtain ⟨⟨⟩, c1, h1, a, c2, ⟨rfl, h2⟩, ⟨⟩, c3, h3, h4⟩ := hmake
  have hall : c'.builder.ops = (((c.builder.ops.push (.of .integer 0 reg)).push (.of .rewind n)).push
      (.of .column n 0 reg)).modify (c.size + 1) fun i => { i with p2 := c.size + 3 } := by
    rw [h4, h3, h2, h1]
    simp only [Builder.jumpHere, Builder.modifyAt, Builder.emit, Builder.here, Compiler.size, Array.size_push]
    rfl
  have hsize : c'.size = c.size + 3 := by simp [Compiler.size, hall]
  have hcode (k : Nat) (hk : k < 3) : ops[c.size + k]? =
      [Instr.of .integer 0 reg, .of .rewind n (c.size + 3), .of .column n 0 reg][k]? := by
    rw [hops _ (by omega) (by omega), hall]
    have hcases : k = 0 ∨ k = 1 ∨ k = 2 := by omega
    obtain rfl | rfl | rfl := hcases <;>
      simp +arith only [Array.getElem?_modify, Array.getElem?_push, Array.size_push, Compiler.size] <;> rfl
  have hwrites : m.Writes (· = reg) (m.setRegister reg.toNat (.integer (Int64.ofInt 0))) := .setRegister m hreg _
  have htabled := h.frame (Machine.anchor?_congr hwrites.cursors n) fun _ => by rw [hwrites.ephemeral]
  obtain ⟨m2, hstep, hmoves, cur, hcur, hfirst⟩ :=
    Instr.step_rewind (a := c.size + 1) (i := .of .rewind n (c.size + 3)) rfl htabled
  refine Leads.next (hcode 0 (by decide)) (Instr.step_integer 0 hreg) (k := 2) (by decide) ?_
  refine Leads.branch (hcode 1 (by decide)) hstep (k := 1) (by decide) ?_
  cases keys with
  | nil =>
    refine .done ⟨show (c.size + 3 : Int).toNat = c'.size by omega, ?_⟩
    obtain ⟨_, rfl⟩ := hmoves.rest
    exact Machine.register_setRegister_self _ hreg _
  | cons key keys =>
    refine Leads.next (hcode 2 (by decide)) (Instr.step_column hcur hreg) (k := 0) (by decide) (.done ⟨hsize.symm, ?_⟩)
    rw [Machine.register_setRegister_self _ hreg, hfirst]
    rfl

namespace Machine

/-- However records were inserted into an ephemeral table, its keys are these records. They are in order if the
collating sequences are orders and the records can be compared. If the records have one field each, the NULLs come
first, and the code for the flag leaves a NULL in the register exactly if there is one, else the first key or zero. -/
theorem table_ordered (h : m.Filled t cs keys) : ∃ entries, m.ephemeral[t]? = some entries ∧ entries.Perm keys ∧
    ((∀ c ∈ cs, Std.TransCmp c.order) → (∀ x ∈ keys, ∀ y ∈ keys, Key.Comparable x y) →
      entries.Pairwise fun x y => (Key.compare (cs.map some) x y).isLE) ∧
    ((∀ key ∈ keys, ∃ v, key = [v]) → Key.NullsFirst entries ∧
      ∀ n cs' reg c c' ops, m.On n t cs' → 0 ≤ reg → (Gen.loadHasNull n reg).Makes c () c' →
        (∀ a, c.size ≤ a → a < c'.size → ops[a]? = c'.builder.ops[a]?) →
        Leads ops (fun a m' => a = c'.size ∧ (m'.register reg = .null ↔ [.null] ∈ keys) ∧
          if keys = [] then m'.register reg = .integer 0 else [m'.register reg] ∈ keys) False 3 c.size m) := by
  obtain ⟨hon, hkeys⟩ := h.tabled
  have hperm := Key.table_perm (cs.map some) keys
  refine ⟨_, hkeys, hperm, fun hcs hc => Key.table_sorted (fun c hc => hcs c (by simpa using hc)) hc, fun hsingle =>
    ⟨Key.table_nullsFirst hsingle, fun n cs' reg c c' ops hn hreg hmake hops => ?_⟩⟩
  refine (Gen.loadHasNull_leads hmake hops hreg ⟨hon n cs' hn ▸ hn, hkeys⟩).weaken (fun a m' ha => ⟨ha.1, ?_⟩) id
  have hfirst := (Key.table_nullsFirst hsingle : Key.NullsFirst (Key.table (cs.map some) keys))
  generalize Key.table (cs.map some) keys = entries at hperm hfirst ha
  obtain ⟨-, ha⟩ := ha
  cases entries with
  | nil =>
    obtain rfl := hperm.nil_eq
    simp [ha]
  | cons key entries =>
    obtain ⟨v, rfl⟩ := hsingle key (hperm.subset List.mem_cons_self)
    have hmem : [v] ∈ keys := hperm.subset List.mem_cons_self
    rw [ha, ← hperm.mem_iff, ← hfirst.head, if_neg (List.ne_nil_of_mem hmem)]
    exact ⟨by simp, hmem⟩

/-- A NULL that is inserted last, through a second cursor, comes first. -/
theorem table_ordered_shared : ∃ m, Filled 0 [] [[.null], [.integer 3]] m ∧ ∃ entries,
    m.ephemeral[0]? = some entries ∧ entries.Pairwise fun x y => (Key.compare [] x y).isLE := by
  have hopened : Filled 0 [] [] _ := .opened (m :=
    { catalog := .empty, store := ⟨[]⟩, records := [(1, [.integer 3]), (2, [.null])] })
    (n := 0) (w := 1) (a := 0) rfl (by rintro _ _ ⟨⟩) rfl
  have hfilled : Filled 0 [] [[.null], [.integer 3]] _ :=
    ((hopened.shared (n := 0) (k := 1) (a := 1) rfl rfl).inserted (n := 0) (r := 1) (a := 2) rfl rfl rfl).inserted
      (n := 1) (r := 2) (a := 3) rfl rfl rfl
  obtain ⟨entries, hkeys, -, hsorted, -⟩ := table_ordered hfilled
  exact ⟨_, hfilled, entries, hkeys, hsorted (by simp) (by simp [Key.Comparable, Value.comparable, Value.isNaN])⟩

/-- Two integers count as equal to the double `2 ^ 63` that is between them, so the greater one comes first. -/
theorem table_not_sorted : ∃ r, ¬ (Key.table [none] [[.integer 9223372036854775807], [.integer 9223372036854775805],
    [.real r], [.integer 9223372036854775806]]).Pairwise fun x y => (Key.compare [none] x y).isLE :=
  ⟨Float.ofBits 0x43E0000000000000, by decide +kernel⟩

end Machine

namespace Example

def fiveInList : Expr := .ofKind (.inList 0 (literal 5) ([1, 1, 2].map fun n => ⟨literal n, false, 0⟩))

open Gen in
/-- Delivers the keys that a loop over the right side of IN visits. -/
def loopRows (e : Expr) : Gen Program := do
  start
  let out ← allocReg
  let plan ← e.coded.plan { loop := true } false
  let done ← label
  emitJump (.of .rewind plan.cursor) done
  let top ← here
  emit (.of .column plan.cursor 0 out)
  emit (.of .resultRow out 1)
  emit (.of .next plan.cursor top)
  resolve done
  finish

end Example

open Example in
/-- The key 1 is visited twice. -/
theorem Gen.loop_repeats_keys : (loopRows fiveInList).delivered? .empty {} .empty [] =
    some #[[.integer 1], [.integer 1], [.integer 2]] := by
  decide +kernel

end ScalarSql
