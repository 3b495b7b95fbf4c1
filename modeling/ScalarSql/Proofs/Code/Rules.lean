import ScalarSql.Proofs.Code.Allotment
import ScalarSql.Proofs.Code.Lookups
import ScalarSql.Proofs.Machine.Frames
import ScalarSql.Proofs.Program.Landing
import Mathlib.Data.Set.Insert

/-!
# The rules of generators

All generators are made of a few steps, each of which has conditions: a jump goes to a label that was made, an
instruction names registers that were given or taken, a register is released that was taken for a short time. `Gen.Rule`
lists these steps with their conditions, and `Gen.Follows` says of a generator that it is made of them. What is known at
a point of it and stays true is a set of facts (`Fact`), and what is still to be done there are its ends (`Ends`).

That a generator follows the rules is proved once. What this means for jumps, for registers and for the pool is then
proved for whatever follows the rules.
-/

namespace ScalarSql

variable {i : Instr}

/-- What is known at a point of a compilation and stays true from there on. -/
inductive Fact where
  | reads (r : Int)
  | writes (r : Int)
  | scratch (r : Int)
  | fixed (r : Int)
  | begun
  /-- At the address is an instruction of the opcode; one that runs once may have been removed. -/
  | stands (a : Int) (o : Opcode)
  | mark (a : Int)
  | entry (a : Int)
  /-- Something that has nothing to do with the compilation. -/
  | given (p : Prop)

abbrev Facts := Set Fact

namespace Facts

def and (K S : Facts) : Facts := K ∪ S

/-- The same is known of registers in a row. -/
def row (kind : Int → Fact) (first : Int) (n : Nat) : Facts := {f | ∃ k < n, f = kind (first + (k : Nat))}

/-- The register to release, if there is one, was taken for a short time. -/
def spare (free : Option Int) : Facts := {f | ∃ r, free = some r ∧ f = .scratch r}

/-- A value is in a register that may be read, and there may be a register to release. -/
def held (p : Int × Option Int) : Facts := {.reads p.1} ∪ spare p.2

/-- Values are in registers in a row that may be read, and there may be a register to release. -/
def heldRow (n : Nat) (p : Int × Option Int) : Facts := row .reads p.1 n ∪ spare p.2

variable {K S : Facts} {f : Fact} {n : Nat} {p : Int × Option Int}

@[simp]
theorem mem_and : f ∈ K.and S ↔ f ∈ K ∨ f ∈ S := Iff.rfl

theorem forall_and {P P' : Fact → Prop} (hK : ∀ f ∈ K, P f) (hP : ∀ f, P f → P' f) (hS : ∀ f ∈ S, P' f) :
    ∀ f ∈ K.and S, P' f := by
  rintro f (hf | hf)
  · exact hP f (hK f hf)
  · exact hS f hf

@[simp]
theorem and_empty : K.and ∅ = K := Set.union_empty K

@[simp]
theorem mem_row {kind : Int → Fact} {first : Int} : f ∈ row kind first n ↔ ∃ k < n, f = kind (first + (k : Nat)) :=
  Iff.rfl

attribute [simp] Int.natCast_inj

@[simp]
theorem mem_spare {free : Option Int} : f ∈ spare free ↔ ∃ r, free = some r ∧ f = .scratch r := Iff.rfl

@[simp]
theorem mem_held : f ∈ held p ↔ f = .reads p.1 ∨ f ∈ spare p.2 := by simp [held]

@[simp]
theorem mem_heldRow : f ∈ heldRow n p ↔ f ∈ row .reads p.1 n ∨ f ∈ spare p.2 := by simp [heldRow]

end Facts

theorem mem_of_lookup {β : Type} {node : Identity} {b : β} {found : List (Identity × β)}
    (h : found.lookup node = some b) : (node, b) ∈ found := by
  obtain ⟨_, _, rfl, -⟩ := List.lookup_eq_some_iff.1 h
  exact List.mem_append_right _ List.mem_cons_self

/-- What the state of a compilation tells: routines can be called, and results that it holds can be read. -/
inductive Compiler.Tells (ν : Allotment) (c : Compiler) : Fact → Prop
  | entry {q : Identity × Routine} (h : q ∈ c.routines) : Tells ν c (.entry q.2.entry)
  | ret {q : Identity × Routine} (h : q ∈ c.routines) : Tells ν c (.reads q.2.ret)
  | result {q : Identity × Routine} (h : q ∈ c.routines) {k : Nat} (hk : k < ν.width q.1) :
    Tells ν c (.reads (q.2.result + (k : Nat)))
  | shared {q : Identity × Int} (h : q ∈ c.sharedResults) {k : Nat} (hk : k < ν.shared q.1) :
    Tells ν c (.reads (q.2 + (k : Nat)))
  | window {q : Identity × Int} (h : q ∈ c.windowResults) : Tells ν c (.reads q.2)
  | aggColumn {r : Int} (h : r ∈ c.aggColumns) : Tells ν c (.reads r)
  | aggCall {r : Int} (h : r ∈ c.aggCalls) : Tells ν c (.reads r)

theorem Instr.canJump_eq_false (h : i.opcode.jumps = false) : i.canJump = false := by
  simp [Instr.canJump, h]

theorem ListMode.copyOpcode_jumps (m : ListMode) : m.copyOpcode.jumps = false := by
  unfold ListMode.copyOpcode
  split <;> rfl

/-! ## Terms -/

/-- Whether an instruction may change a register that holds an operand: Affinity converts it where it is, IfNullRow
makes it NULL, and Gosub leaves a return address in the register of a routine. -/
def Opcode.inPlace : Opcode → Bool
  | .affinity | .ifNullRow | .gosub => true
  | _ => false

/-- The instruction reads registers of the first kind and writes registers of the second. -/
structure Instr.Within (R W : Int → Prop) (i : Instr) : Prop where
  read : ∀ r ∈ i.read, R r
  written : ∀ r ∈ i.written, if i.opcode.inPlace then R r else W r

theorem Instr.Within.mono {R R' W W' : Int → Prop} (h : i.Within R W) (hR : ∀ r, R r → R' r) (hW : ∀ r, W r → W' r) :
    i.Within R' W' := by
  refine ⟨fun r hr => hR r (h.read r hr), fun r hr => ?_⟩
  have hwritten := h.written r hr
  split
  · rename_i hplace
    rw [if_pos hplace] at hwritten
    exact hR r hwritten
  · rename_i hplace
    rw [if_neg hplace] at hwritten
    exact hW r hwritten

/-- The terms on which an expression is coded. -/
structure Terms where
  /-- What identities and the own row stand for. -/
  allotment : Allotment
  /-- The registers that were given to be read. -/
  reads : Int → Prop
  /-- Registers are of no concern. -/
  free : Prop
  /-- Constants are set aside in registers that were taken for good. -/
  pins : Prop
  /-- The limit that no tree is to exceed whose height is checked, if that is of concern. -/
  limit : Option Nat := none

/-- A call has no more arguments than the mask of its constant ones has bits. -/
def Kind.Narrow : Kind Expr Select → Prop
  | .call _ args _ => args.length ≤ 32
  | _ => True

theorem Expr.height_register (reg : Int) (e : Expr) : (Expr.ofKind (.register reg e)).height = e.height + 1 := by
  simp [height, Expr.info, ofKind, infoOf, maxHeight, Kind.selects]

theorem Expr.height_binary (op : BinaryOp) (left right : Expr) :
    (Expr.ofKind (.binary op left right)).height = max left.height right.height + 1 := by
  simp [height, Expr.info, ofKind, infoOf, maxHeight, Kind.selects]

/-- The heights of the comparisons that BETWEEN and CASE with a base are coded as. -/
def Kind.comparedHeights : Kind Expr Select → List Nat
  | .between operand low high => [max (operand.height + 1) (max low.height high.height) + 2]
  | .caseOf (some base) arms _ => arms.map fun arm => max (base.height + 1) arm.1.height + 1
  | _ => []

namespace Terms

variable {T : Terms} {K S : Facts} {r s t first : Int} {n : Nat} {i : Instr} {f : Fact}

def Writes (T : Terms) (K : Facts) (r : Int) : Prop := T.free ∨ .writes r ∈ K ∨ .scratch r ∈ K ∨ .fixed r ∈ K

/-- The register may be read. Register zero may be named by an instruction whose register is not known yet. -/
def Reads (T : Terms) (K : Facts) (r : Int) : Prop := r = 0 ∨ T.reads r ∨ .reads r ∈ K ∨ T.Writes K r

def ReadsRow (T : Terms) (K : Facts) (first : Int) (n : Nat) : Prop := ∀ k < n, T.Reads K (first + (k : Nat))

def WritesRow (T : Terms) (K : Facts) (first : Int) (n : Nat) : Prop := ∀ k < n, T.Writes K (first + (k : Nat))

/-- The fact is known, or is of no concern. -/
def Knows (T : Terms) (K : Facts) : Fact → Prop
  | .reads r => T.Reads K r
  | .writes r => T.Writes K r
  | .given p => .given p ∈ K ∨ p
  | f => f ∈ K

def Allows (T : Terms) (K : Facts) (i : Instr) : Prop := i.Within (T.Reads K) (T.Writes K)

/-- The state has the own row that the terms speak of. -/
def Agrees (T : Terms) (c : Compiler) : Prop := T.free ∨ c.ownRow = T.allotment.ownRow

/-- The node can be coded on these terms. -/
def Node (T : Terms) (kind : Kind Expr Select) : Prop :=
  (T.free ∨ T.allotment.Node T.reads kind) ∧ (T.pins → kind.Narrow)

/-- A tree of the height is within the limit. -/
def Admits (T : Terms) (height : Nat) : Prop := ∀ n ∈ T.limit, height ≤ n

theorem Admits.mono {height height' : Nat} (h : T.Admits height) (hle : height' ≤ height) : T.Admits height' :=
  fun n hn => Nat.le_trans hle (h n hn)

/-- The trees that are checked where the node is coded are within the limit. -/
structure Clears (T : Terms) (e : Expr) : Prop where
  literal : T.Admits 1
  node : T.Admits e.height
  compared : ∀ height ∈ e.kind.comparedHeights, T.Admits height

theorem Clears.of_unlimited {e : Expr} (h : T.limit = none) : T.Clears e := by
  have hall (height : Nat) : T.Admits height := fun n hn => by
    rw [h] at hn
    cases hn
  exact ⟨hall _, hall _, fun _ _ => hall _⟩

/-- Registers in a row are given besides. -/
def grant (T : Terms) (first : Int) (n : Nat) : Terms :=
  { T with reads := fun r => T.reads r ∨ r ∈ registerRow first n }

def lax : Terms where
  allotment := ⟨fun _ => 0, fun _ => 0, none⟩
  reads _ := True
  free := True
  pins := False

@[simp]
theorem grant_zero : T.grant first 0 = T := by simp [grant, registerRow]

@[simp]
theorem writes_grant : (T.grant first n).Writes K r ↔ T.Writes K r := Iff.rfl

/-! ## What may be done with registers -/

@[simp]
theorem Writes.of_free (h : T.free) : T.Writes K r := .inl h

@[simp]
theorem Writes.reads (h : T.Writes K r) : T.Reads K r := .inr (.inr (.inr h))

theorem Reads.of_free (h : T.free) : T.Reads K r := Writes.reads (.of_free h)

@[simp]
theorem reads_zero : T.Reads K 0 := .inl rfl

@[simp]
theorem Reads.of_given (h : T.reads r) : T.Reads K r := .inr (.inl h)

@[simp]
theorem writes_and : T.Writes (K.and S) r ↔ T.Writes K r ∨ .writes r ∈ S ∨ .scratch r ∈ S ∨ .fixed r ∈ S := by
  simp only [Writes, Facts.mem_and]
  grind

@[simp]
theorem reads_and :
    T.Reads (K.and S) r ↔ T.Reads K r ∨ .reads r ∈ S ∨ .writes r ∈ S ∨ .scratch r ∈ S ∨ .fixed r ∈ S := by
  simp only [Reads, writes_and, Facts.mem_and]
  grind

theorem Reads.new (h : .reads r ∈ S) : T.Reads (K.and S) r := reads_and.2 (.inr (.inl h))

theorem knows_of_mem (h : f ∈ K) : T.Knows K f := by
  cases f with
  | reads r => exact .inr (.inr (.inl h))
  | writes r => exact .inr (.inl h)
  | given p => exact .inl h
  | _ => exact h

theorem ReadsRow.head (h : T.ReadsRow K first n) (hn : T.free ∨ 0 < n) : T.Reads K first := by
  rcases hn with hfree | hn
  · exact .of_free hfree
  · simpa using h 0 hn

theorem ReadsRow.mem (h : T.ReadsRow K first n) (r : Int) (hr : r ∈ registerRow first n) : T.Reads K r := by
  obtain ⟨k, hk, rfl⟩ := mem_registerRow.1 hr
  exact h k hk

theorem WritesRow.head (h : T.WritesRow K first n) (hn : T.free ∨ 0 < n) : T.Writes K first := by
  rcases hn with hfree | hn
  · exact .of_free hfree
  · simpa using h 0 hn

theorem WritesRow.tail (h : T.WritesRow K first (n + 1)) : T.WritesRow K (first + 1) n := by
  intro k hk
  have := h (k + 1) (Nat.succ_lt_succ hk)
  rwa [Int.natCast_succ, Int.add_comm (k : Int), ← Int.add_assoc] at this

theorem WritesRow.take {k : Nat} (h : T.WritesRow K first n) (hk : k ≤ n) : T.WritesRow K first k :=
  fun j hj => h j (Nat.lt_of_lt_of_le hj hk)

theorem WritesRow.reads (h : T.WritesRow K first n) : T.ReadsRow K first n := fun k hk => (h k hk).reads

theorem WritesRow.of_free (h : T.free) : T.WritesRow K first n := fun _ _ => .of_free h

theorem ReadsRow.of_free (h : T.free) : T.ReadsRow K first n := fun _ _ => .of_free h

theorem ReadsRow.more (h : T.ReadsRow K first n) : T.ReadsRow (K.and S) first n :=
  fun k hk => reads_and.2 (.inl (h k hk))

theorem WritesRow.more (h : T.WritesRow K first n) : T.WritesRow (K.and S) first n :=
  fun k hk => writes_and.2 (.inl (h k hk))

namespace Allows

theorem of_eq {rs ws : List Int} (hread : i.read = rs) (hwritten : i.written = ws) (hrs : ∀ r ∈ rs, T.Reads K r)
    (hws : ∀ r ∈ ws, T.Writes K r) : T.Allows K i := by
  refine ⟨hread ▸ hrs, hwritten ▸ fun r hr => ?_⟩
  split
  · exact (hws r hr).reads
  · exact hws r hr

theorem of_free (h : T.free) : T.Allows K i :=
  of_eq rfl rfl (fun _ _ => .of_free h) fun _ _ => .of_free h

theorem none (hread : i.read = []) (hwritten : i.written = []) : T.Allows K i :=
  of_eq hread hwritten (List.forall_mem_nil _) (List.forall_mem_nil _)

theorem load (hread : i.read = []) (hwritten : i.written = [r]) (hr : T.Writes K r) : T.Allows K i :=
  of_eq hread hwritten (List.forall_mem_nil _) (List.forall_mem_singleton.2 hr)

theorem test (hread : i.read = [r]) (hwritten : i.written = []) (hr : T.Reads K r) : T.Allows K i :=
  of_eq hread hwritten (List.forall_mem_singleton.2 hr) (List.forall_mem_nil _)

theorem move (hread : i.read = [r]) (hwritten : i.written = [s]) (hr : T.Reads K r) (hs : T.Writes K s) :
    T.Allows K i :=
  of_eq hread hwritten (List.forall_mem_singleton.2 hr) (List.forall_mem_singleton.2 hs)

theorem two (hread : i.read = [r, s]) (hwritten : i.written = [t]) (hr : T.Reads K r) (hs : T.Reads K s)
    (ht : T.Writes K t) : T.Allows K i :=
  of_eq hread hwritten (by simp [hr, hs]) (List.forall_mem_singleton.2 ht)

theorem row (hread : i.read = registerRow first n) (hwritten : i.written = []) (h : T.ReadsRow K first n) :
    T.Allows K i :=
  of_eq hread hwritten h.mem (List.forall_mem_nil _)

theorem rowTo (hread : i.read = registerRow first n) (hwritten : i.written = [s]) (h : T.ReadsRow K first n)
    (hs : T.Writes K s) : T.Allows K i :=
  of_eq hread hwritten h.mem (List.forall_mem_singleton.2 hs)

theorem copy (hr : T.Reads K r) (hs : T.Writes K s) : T.Allows K (.of .copy r s) :=
  move (by simp [Instr.read, registerRow]) (by simp [Instr.written, registerRow]) hr hs

theorem affinity (h : T.ReadsRow K first n) (p4 : Operand) : T.Allows K (.of .affinity first n 0 p4) :=
  ⟨h.mem, h.mem⟩

theorem comparison (hopcode : i.opcode.isComparison) (h1 : T.Reads K i.p1) (h3 : T.Reads K i.p3)
    (h2 : i.mode.store → T.Writes K i.p2) : T.Allows K i := by
  obtain ⟨hread, hwritten⟩ : i.read = [i.p1, i.p3] ∧ i.written = if i.mode.store then [i.p2] else [] := by
    obtain ⟨opcode, p1, p2, p3, p4, p5⟩ := i
    cases opcode <;> first | exact ⟨rfl, rfl⟩ | cases hopcode
  refine of_eq hread hwritten (by simp [h1, h3]) fun r hr => ?_
  split at hr
  · rename_i hstore
    obtain rfl := List.mem_singleton.1 hr
    exact h2 hstore
  · cases hr

end Allows

end Terms

/-- All nodes of the tree can be coded on the terms. -/
inductive Tree.Covered (T : Terms) : Tree → Prop
  | intro {t : Tree} (here : ∀ e, t = .expr e → T.Node e.kind ∧ T.Clears e) (below : ∀ u ∈ t.below, Covered T u) :
    Covered T t

/-- All nodes of the expression can be coded on the terms. -/
def Terms.Covers (T : Terms) (e : Expr) : Prop := Tree.Covered T (.expr e)

namespace Terms

variable {T : Terms} {e : Expr} {first : Int} {n : Nat}

theorem Node.grant {kind : Kind Expr Select} (h : T.Node kind) : (T.grant first n).Node kind :=
  ⟨h.1.imp_right fun h => h.mono fun _ => .inl, h.2⟩

theorem Clears.grant (h : T.Clears e) : (T.grant first n).Clears e := ⟨h.literal, h.node, h.compared⟩

namespace Covers

theorem node (h : T.Covers e) : T.Node e.kind := by
  cases h with
  | intro here _ => exact (here e rfl).1

theorem clears (h : T.Covers e) : T.Clears e := by
  cases h with
  | intro here _ => exact (here e rfl).2

theorem part (h : T.Covers e) : ∀ x ∈ e.kind.subexpressions, T.Covers x := by
  cases h with
  | intro _ below => exact fun x hx => below _ (List.mem_append_left _ (List.mem_map_of_mem hx))

theorem of_parts {info : NodeInfo} {kind : Kind Expr Select} (hnode : T.Node kind)
    (hparts : ∀ x ∈ kind.subexpressions, T.Covers x) (hselects : kind.selects = [])
    (hclears : T.Clears (.node info kind)) : T.Covers (.node info kind) := by
  refine .intro ?_ (List.forall_mem_append.2 ⟨List.forall_mem_map.2 hparts, ?_⟩)
  · rintro x ⟨⟩
    exact ⟨hnode, hclears⟩
  · show ∀ u ∈ kind.selects.map Tree.select, _
    rw [hselects]
    exact List.forall_mem_nil _

theorem vectorSize_pos (h : T.Covers e) : T.free ∨ 0 < e.vectorSize := by
  induction e using Expr.subexpressions_induction with
  | step info kind ih =>
    cases kind with
    | vector items => exact h.node.1
    | subquery id select => exact h.node.1.imp_right fun hnode => hnode.2.1
    | register reg source => exact ih source List.mem_cons_self (h.part source List.mem_cons_self)
    | _ => exact .inr Nat.one_pos

theorem readsRow_register {K : Facts} {reg : Int} {source : Expr} (h : T.Covers e)
    (hkind : e.kind = .register reg source) : T.ReadsRow K reg e.vectorSize := by
  have hnode := h.node.1
  obtain ⟨info, kind⟩ := e
  obtain rfl : kind = .register reg source := hkind
  rcases hnode with hfree | hnode
  · exact fun _ _ => .of_free hfree
  · exact fun k hk => .of_given (hnode k hk)

end Covers

end Terms

theorem Tree.Covered.grant {T : Terms} {t : Tree} (h : t.Covered T) (first : Int) (n : Nat) :
    t.Covered (T.grant first n) := by
  induction h with
  | intro here _ ih => exact .intro (fun x hx => ⟨(here x hx).1.grant, (here x hx).2.grant⟩) ih

/-! ## Steps that leave code and registers -/

namespace Gen

variable {α β : Type} {g : Gen α} {f : α → Gen β} {c c' : Compiler} {a : α}

/-- The step refuses an expression as too deep. -/
def Deep (g : Gen α) (c : Compiler) : Prop := ∃ limit, (g.run c).1 = .error (.tooDeep limit)

theorem Makes.not_deep (h : g.Makes c a c') : ¬ g.Deep c := by
  rintro ⟨limit, hdeep⟩
  rw [show g.run c = _ from h] at hdeep
  cases hdeep

theorem Deep.bind (h : g.Deep c) : (g >>= f).Deep c := by
  obtain ⟨limit, h⟩ := h
  refine ⟨limit, ?_⟩
  rw [run_bind]
  rcases hg : g.run c with ⟨e | a, c1⟩
  · rw [hg] at h
    cases h
    rfl
  · rw [hg] at h
    cases h

theorem Makes.deep (hg : g.Makes c a c1) (h : (f a).Deep c1) : (g >>= f).Deep c := by
  obtain ⟨limit, h⟩ := h
  refine ⟨limit, ?_⟩
  rw [run_bind, show g.run c = _ from hg]
  exact h

theorem Deep.of_bind (h : (g >>= f).Deep c) : g.Deep c ∨ ∃ a c1, g.Makes c a c1 ∧ (f a).Deep c1 := by
  obtain ⟨limit, h⟩ := h
  rw [run_bind] at h
  rcases hg : g.run c with ⟨e | a, c1⟩
  · rw [hg] at h
    cases h
    exact .inl ⟨limit, by rw [hg]⟩
  · rw [hg] at h
    exact .inr ⟨a, c1, hg, limit, h⟩

theorem not_deep_bind (hg : ¬ g.Deep c) (hf : ∀ a c1, g.Makes c a c1 → ¬ (f a).Deep c1) : ¬ (g >>= f).Deep c := by
  intro h
  rcases h.of_bind with h | ⟨a, c1, hmake, h⟩
  · exact hg h
  · exact hf a c1 hmake h

theorem Deep.of_map {k : α → β} (h : (k <$> g).Deep c) : g.Deep c := by
  rw [map_eq_pure_bind] at h
  rcases h.of_bind with h | ⟨a, c1, -, h⟩
  · exact h
  · exact absurd h (Makes.not_deep rfl)

/-- The step refuses no expression as too deep. -/
def Shallow (g : Gen α) : Prop := ∀ c, ¬ g.Deep c

namespace Shallow

theorem bind (hg : Shallow g) (hf : ∀ a, Shallow (f a)) : Shallow (g >>= f) :=
  fun c => not_deep_bind (hg c) fun a c1 _ => hf a c1

theorem of_makes (h : ∀ c, ∃ a c', g.Makes c a c') : Shallow g := by
  intro c
  obtain ⟨_, _, hmake⟩ := h c
  exact hmake.not_deep

theorem throw {e : CompileError} (he : ∀ limit, e ≠ .tooDeep limit) : Shallow (throw e : Gen α) := by
  rintro c ⟨limit, h⟩
  exact he limit (Except.error.inj h)

end Shallow

/-- The step changes nothing but the catalog, the cursors and whether constants are set aside. -/
def Still (g : Gen α) : Prop :=
  ∀ c a c', g.Makes c a c' → ∃ catalog cursors hoisting, c' = { c with catalog, cursors, hoisting }

theorem Still.checkHeight (e : Expr) : Still (Gen.checkHeight e) := by
  intro c u c' hmake
  rw [makes_checkHeight hmake]
  exact ⟨_, _, _, rfl⟩

/-- A still step that refuses nothing as too deep. -/
structure Idle (g : Gen α) : Prop where
  still : Still g
  shallow : Shallow g

namespace Idle

theorem bind (hg : Idle g) (hf : ∀ a, Idle (f a)) : Idle (g >>= f) where
  still c b c' hmake := by
    obtain ⟨a, c1, hfirst, hsecond⟩ := makes_bind.1 hmake
    obtain ⟨_, _, _, rfl⟩ := hg.still c a c1 hfirst
    obtain ⟨catalog, cursors, hoisting, rfl⟩ := (hf a).still _ b c' hsecond
    exact ⟨catalog, cursors, hoisting, rfl⟩
  shallow := hg.shallow.bind fun a => (hf a).shallow

/-- A step that always succeeds. -/
theorem of_makes (h : ∀ c, ∃ a catalog cursors hoisting, g.Makes c a { c with catalog, cursors, hoisting }) :
    Idle g where
  still c a c' hmake := by
    obtain ⟨b, catalog, cursors, hoisting, hb⟩ := h c
    exact ⟨catalog, cursors, hoisting, congrArg Prod.snd (hmake.symm.trans hb)⟩
  shallow := .of_makes fun c => by
    obtain ⟨_, _, _, _, hb⟩ := h c
    exact ⟨_, _, hb⟩

theorem pure (a : α) : Idle (pure a : Gen α) := of_makes fun _ => ⟨_, _, _, _, rfl⟩

theorem throw {e : CompileError} (he : ∀ limit, e ≠ .tooDeep limit) : Idle (throw e : Gen α) where
  still _ _ _ hmake := (makes_throw.1 hmake).elim
  shallow := .throw he

theorem get : Idle (get : Gen Compiler) := of_makes fun _ => ⟨_, _, _, _, rfl⟩

theorem collation (name : String) : Idle (Gen.lookup (Lookup.collation name)) where
  still c a c' hmake := by
    obtain ⟨catalog, -, rfl⟩ := makes_lookup.1 hmake
    exact ⟨catalog, _, _, rfl⟩
  shallow c h := by
    obtain ⟨limit, h⟩ := h
    rw [run_lookup, run_collation] at h
    split at h
    · cases h
    · cases h

theorem lookup (name : Option String) : Idle (Gen.lookup (Lookup.collation? name)) where
  still c a c' hmake := by
    obtain ⟨catalog, -, rfl⟩ := makes_lookup.1 hmake
    exact ⟨catalog, _, _, rfl⟩
  shallow c h := by
    obtain ⟨limit, h⟩ := h
    rw [run_lookup] at h
    cases name with
    | none => cases h
    | some name =>
      replace h : Except.map some ((Lookup.collation name).run c.catalog).1 = .error (.tooDeep limit) := by
        simp only [Lookup.collation?, bind_pure_comp, ExceptT.run_map] at h
        exact h
      refine (collation name).shallow c ⟨limit, ?_⟩
      rw [run_lookup]
      rcases hfound : ((Lookup.collation name).run c.catalog).1 with e | a
      · rw [hfound] at h
        cases h
        rfl
      · rw [hfound] at h
        cases h

theorem orBinary (o : Option Collation) : Idle (orBinary o) := by
  unfold Gen.orBinary
  split
  · exact pure _
  · exact collation _

theorem hoists (e : Expr) : Idle (hoists e) := bind get fun _ => pure _

theorem noteCursor (cursor : Int) : Idle (noteCursor cursor) := of_makes fun _ => ⟨_, _, _, _, rfl⟩

theorem allocCursor : Idle allocCursor := of_makes fun _ => ⟨_, _, _, _, rfl⟩

theorem setHoisting (b : Bool) : Idle (modify fun c => { c with hoisting := b } : Gen PUnit) :=
  of_makes fun _ => ⟨_, _, _, _, rfl⟩

end Idle

theorem makes_of_tryCatch {k : CompileError → Gen α} (hk : ∀ e c a c', ¬(k e).Makes c a c')
    (h : (tryCatch g k).Makes c a c') : g.Makes c a c' := by
  change ExceptT.run (ExceptT.tryCatch g k) c = _ at h
  change g c = _
  -- The handler runs in the state in which the step failed.
  simp only [ExceptT.run, ExceptT.tryCatch, ExceptT.mk, bind, StateT.bind] at h
  rcases hg : g c with ⟨e | x, c1⟩
  · rw [hg] at h
    exact absurd h (hk e c1 a c')
  · rw [hg] at h
    exact h

theorem Deep.of_tryCatch {k : CompileError → Gen α} (hk : ∀ e c, (k e).Deep c → ∃ limit, e = .tooDeep limit)
    (h : (tryCatch g k).Deep c) : g.Deep c := by
  obtain ⟨limit, h⟩ := h
  change (ExceptT.run (ExceptT.tryCatch g k) c).1 = _ at h
  simp only [ExceptT.run, ExceptT.tryCatch, ExceptT.mk, Bind.bind, StateT.bind] at h
  rcases hg : g c with ⟨e | x, c1⟩
  · rw [hg] at h
    obtain ⟨limit', rfl⟩ := hk e c1 ⟨limit, h⟩
    exact ⟨limit', congrArg Prod.fst hg⟩
  · rw [hg] at h
    cases h

theorem makes_of_withoutHoisting (h : (withoutHoisting g).Makes c a c') :
    ∃ c1, g.Makes { c with hoisting := false } a c1 ∧ c' = { c1 with hoisting := c.hoisting } := by
  simp only [withoutHoisting, makes_bind, makes_get, makes_modify] at h
  obtain ⟨_, _, ⟨rfl, rfl⟩, _, _, rfl, e, c2, htry, h⟩ := h
  have htry := makes_of_tryCatch (by simp) htry
  simp only [makes_bind, makes_modify] at htry
  obtain ⟨b, c1, hg, _, _, rfl, rfl, rfl⟩ := htry
  obtain ⟨rfl, rfl⟩ := makes_pure.1 h
  exact ⟨c1, hg, rfl⟩

theorem Deep.of_withoutHoisting (h : (withoutHoisting g).Deep c) : g.Deep { c with hoisting := false } := by
  unfold withoutHoisting at h
  rcases h.of_bind with h | ⟨_, _, hget, h⟩
  · exact absurd h (Idle.get.shallow c)
  obtain ⟨rfl, rfl⟩ := makes_get.1 hget
  rcases h.of_bind with h | ⟨_, _, hset, h⟩
  · exact absurd h ((Idle.setHoisting _).shallow c)
  obtain rfl := makes_modify.1 hset
  rcases h.of_bind with h | ⟨r, c2, -, h⟩
  · refine (h.of_tryCatch fun e c1 he => ?_).of_bind.resolve_right ?_
    · rcases he.of_bind with he | ⟨_, _, -, limit, he⟩
      · exact absurd he ((Idle.setHoisting _).shallow c1)
      · exact ⟨limit, Except.error.inj he⟩
    · rintro ⟨a, c1, -, h⟩
      exact (Idle.bind (.setHoisting _) fun _ => .pure _).shallow c1 h
  · cases r with
    | error => exact absurd h (Makes.not_deep rfl)
    | ok => exact absurd h (Makes.not_deep rfl)

/-! ## Rules -/

/-- The steps that generators are made of. From a point with the facts `K` and the ends `E`, a step leads to one with
other ends, and adds facts about what it returns. -/
inductive Rule (L : List Label) (T : Terms) (K : Facts) (E : Ends) :
    {α : Type} → Gen α → (α → Ends) → (α → Facts) → Prop
  | idle {α : Type} {g : Gen α} (h : Idle g) : Rule L T K E g (fun _ => E) fun _ => ∅
  | checkHeight {e : Expr} (h : T.Clears e) : Rule L T K E (checkHeight e) (fun _ => E) fun _ => ∅
  | emit {i : Instr} (hj : i.canJump = false) (hi : T.Allows K i) : Rule L T K E (emit i) (fun _ => E) fun _ => ∅
  | emitBack {i : Instr} (hj : .mark i.p2 ∈ K ∨ i.opcode = .gosub ∧ .entry i.p2 ∈ K) (hi : T.Allows K i) :
    Rule L T K E (Gen.emit i) (fun _ => E) fun _ => ∅
  | emitNull {reg : Int} (h : T.Writes K reg) : Rule L T K E (Gen.emit (.of .null 0 reg)) (fun _ => E) fun _ => ∅
  | emitAt {i : Instr} (hj : i.canJump = false) (hi : T.Allows K i) :
    Rule L T K E (emitAt i) (fun _ => E) fun a => {.stands a i.opcode, .begun}
  /-- A jump whose target is given later. If it is not the first instruction, jumps may lead to it. -/
  | emitLoose {i : Instr} (hi : T.Allows K i) :
    Rule L T K E (Gen.emitAt i) (fun a => { E with jumps := a :: E.jumps }) fun a =>
      {f | f = .stands a i.opcode ∨ f = .begun ∨ f = .mark a ∧ .begun ∈ K}
  | emitJump {i : Instr} {l : Label} (hl : E.Offers L l) (hj : i.canJump = true) (hi : T.Allows K i) :
    Rule L T K E (emitJump i l) (fun _ => E) fun _ => {.begun}
  /-- The address of the next instruction, which is not the first one. -/
  | here (h : .begun ∈ K) : Rule L T K E here (fun _ => E) fun a => {.mark a}
  | label : Rule L T K E label (fun l => { E with labels := l :: E.labels }) fun _ => ∅
  | resolve {l : Label} {rest : List Label} (hl : E.labels.Perm (l :: rest)) :
    Rule L T K E (resolve l) (fun _ => { E with labels := rest }) fun _ => ∅
  | jumpHere {a : Int} {o : Opcode} {rest : List Int} (ha : .stands a o ∈ K) (ho : o.jumps = true)
      (hc : o.isComparison = false) (hrest : ∀ x ∈ E.jumps, x = a ∨ x ∈ rest) :
    Rule L T K E (jumpHere a) (fun _ => { E with jumps := rest }) fun _ => ∅
  | cancel {a : Int} {rest : List Int} (ha : .stands a .once ∈ K) (hrest : ∀ x ∈ E.jumps, x = a ∨ x ∈ rest) :
    Rule L T K E (modifyAt a fun _ => .of .noop) (fun _ => { E with jumps := rest }) fun _ => ∅
  | setRegister {a r : Int} (ha : .stands a .ifNullRow ∈ K) (hr : T.Reads K r) :
    Rule L T K E (modifyAt a fun i => { i with p3 := r }) (fun _ => E) fun _ => ∅
  | setNumber {a x : Int} (ha : .stands a .integer ∈ K) :
    Rule L T K E (modifyAt a fun i => { i with p1 := x }) (fun _ => E) fun _ => ∅
  /-- A full copy, which may become part of the last one. -/
  | listCopy (m : ListMode) {source target : Int} (hs : T.Reads K source) (ht : T.Writes K target) :
    Rule L T K E (listCopy m source target) (fun _ => E) fun _ => ∅
  | keepRoutine {node : Identity} {r : Routine} (hentry : .mark r.entry ∈ K) (hret : T.Reads K r.ret)
      (hresult : T.ReadsRow K r.result (T.allotment.width node)) :
    Rule L T K E (modify fun c => { c with routines := (node, r) :: c.routines }) (fun _ => E) fun _ => ∅
  | keepShared {node : Identity} {base : Int} (hbase : T.ReadsRow K base (T.allotment.shared node)) :
    Rule L T K E (modify fun c => { c with sharedResults := (node, base) :: c.sharedResults }) (fun _ => E) fun _ => ∅
  | allocRegs (n : Nat) : Rule L T K E (allocRegs n) (fun _ => E) fun first => Facts.row .fixed first n
  | getTemp : Rule L T K E getTemp (fun _ => E) fun r => {.scratch r}
  | releaseTemp {r : Int} (h : .scratch r ∈ K) : Rule L T K E (releaseTemp r) (fun _ => E) fun _ => ∅
  | getTempRange (n : Nat) : Rule L T K E (getTempRange n) (fun _ => E) fun first => Facts.row .scratch first n
  | releaseTempRange {first : Int} {n : Nat} (h : ∀ k < n, .scratch (first + (k : Nat)) ∈ K) :
    Rule L T K E (releaseTempRange first n) (fun _ => E) fun _ => ∅
  | clearTemps : Rule L T K E clearTemps (fun _ => E) fun _ => ∅
  | hoist {e : Expr} (he : T.Covers e) : Rule L T K E (hoist e none) (fun _ => E) fun r => {.reads r}
  | hoistAt {e : Expr} {r : Int} (he : T.Covers e) (hr : T.Reads K r) (hpins : T.pins → .fixed r ∈ K) :
    Rule L T K E (hoist e (some r)) (fun _ => E) fun _ => ∅

/-- From a point with the facts `K` and the ends `E`, the generator follows the rules on the given terms, with jumps to
the labels `L` and to its own. It leads to a point with the ends `E'`, where `Q` is known besides. -/
inductive Follows (L : List Label) :
    {α : Type} → Terms → Facts → Ends → Gen α → (α → Ends) → (α → Facts) → Prop
  | rule {α : Type} {T K E} {g : Gen α} {E' Q} (h : Rule L T K E g E' Q) : Follows L T K E g E' Q
  /-- Two generators in a row; the second one may rely on what the first one makes. -/
  | bindMade {α β : Type} {T K E} {g : Gen α} {f : α → Gen β} {E' E'' Q Q'} (hg : Follows L T K E g E' Q)
      (hf : ∀ c a c', g.Makes c a c' → Follows L T (K.and (Q a)) (E' a) (f a) E'' Q') : Follows L T K E (g >>= f) E'' Q'
  /-- A result of which no more is said than is known. -/
  | pure {α : Type} {T : Terms} {K E} {E' : α → Ends} {Q : α → Facts} {a} (hE : E' a = E)
      (h : ∀ f ∈ Q a, T.Knows K f) : Follows L T K E (pure a) E' Q
  | throw {α : Type} {T K E} {E' : α → Ends} {Q} {e : CompileError} (he : ∀ limit, e ≠ .tooDeep limit) :
    Follows L T K E (throw e) E' Q
  /-- A generator that makes what another one makes, up to the result. -/
  | image {α β : Type} {T K E} {g : Gen α} {g' : Gen β} {E' Q} {k : α → β}
      (hmake : ∀ c b c', g'.Makes c b c' → ∃ a, g.Makes c a c' ∧ b = k a) (hdeep : ∀ c, g'.Deep c → g.Deep c)
      (h : Follows L T K E g (fun a => E' (k a)) fun a => Q (k a)) : Follows L T K E g' E' Q
  /-- Less is said, and more jumps may count as open. -/
  | weaken {α : Type} {T : Terms} {K : Facts} {E} {g : Gen α} {E' E'' : α → Ends} {Q Q' : α → Facts}
      (h : Follows L T K E g E' Q) (hlabels : ∀ a, (E'' a).labels = (E' a).labels)
      (hjumps : ∀ a, ∀ x ∈ (E' a).jumps, x ∈ (E'' a).jumps) (hQ : ∀ a, ∀ f ∈ Q' a, T.Knows (K.and (Q a)) f) :
    Follows L T K E g E'' Q'
  | withState {α : Type} {T : Terms} {K : Facts} {E} {k : Compiler → Gen α} {E' Q}
      (h : ∀ c, T.Agrees c → Follows L T (K.and {f | c.Tells T.allotment f}) E (k c) E' Q) :
    Follows L T K E (get >>= k) E' Q
  /-- A jump to a label, whose own address is read before. Jumps may lead behind it. -/
  | hereJump {α : Type} {T : Terms} {K : Facts} {E : Ends} {i l} {k : Int → Gen α} {E' Q} (hl : E.Offers L l)
      (hj : i.canJump = true) (hi : T.Allows K i)
      (h : ∀ top, Follows L T (K.and {.mark (top + 1)}) E (k top) E' Q) :
    Follows L T K E (here >>= fun top => Gen.emitJump i l >>= fun _ => k top) E' Q
  | use {α : Type} {T} {K : Facts} {E} {g : Gen α} {E' Q} {p : Prop} (hp : .given p ∈ K)
      (h : p → Follows L T K E g E' Q) : Follows L T K E g E' Q
  /-- Registers that may be read are given to a part. -/
  | grant {α : Type} {T : Terms} {K E} {g : Gen α} {E' Q first n} (hrow : T.ReadsRow K first n)
      (h : Follows L (T.grant first n) K E g E' Q) : Follows L T K E g E' Q

/-- The generator follows the rules and has no ends of its own. -/
abbrev Gives (L : List Label) (T : Terms) (K : Facts) (E : Ends) (g : Gen α) (Q : α → Facts) : Prop :=
  Follows L T K E g (fun _ => E) Q

/-- It returns a register that may be read. -/
abbrev Locates (L : List Label) (T : Terms) (K : Facts) (E : Ends) (g : Gen Int) : Prop :=
  Gives L T K E g fun r => {.reads r}

/-- Nothing is said of what it returns. -/
abbrev Works (L : List Label) (T : Terms) (K : Facts) (E : Ends) (g : Gen α) : Prop := Gives L T K E g fun _ => ∅

namespace Follows

variable {L : List Label} {T : Terms} {K : Facts} {E : Ends} {E' : α → Ends} {E'' : β → Ends} {Q : α → Facts}
  {Q' : β → Facts} {p : Int × Option Int}

theorem bind (hg : Follows L T K E g E' Q) (hf : ∀ a, Follows L T (K.and (Q a)) (E' a) (f a) E'' Q') :
    Follows L T K E (g >>= f) E'' Q' :=
  .bindMade hg fun _ a _ _ => hf a

theorem step (hg : Rule L T K E g E' Q) (hf : ∀ a, Follows L T (K.and (Q a)) (E' a) (f a) E'' Q') :
    Follows L T K E (g >>= f) E'' Q' :=
  bind (.rule hg) hf

/-- A generator that leaves code and registers, of which it is known what it makes. -/
theorem idleMade (hg : Idle g) (hf : ∀ c a c', g.Makes c a c' → Follows L T K E (f a) E'' Q') :
    Follows L T K E (g >>= f) E'' Q' := by
  refine .bindMade (.rule (.idle hg)) fun c a c' h => ?_
  rw [Facts.and_empty]
  exact hf c a c' h

theorem idle (hg : Idle g) (hf : ∀ a, Follows L T K E (f a) E'' Q') : Follows L T K E (g >>= f) E'' Q' :=
  idleMade hg fun _ a _ _ => hf a

/-- A generator of which nothing is said, before another one. -/
theorem next (hg : Follows L T K E g E' fun _ => ∅) (hf : ∀ a, Follows L T K (E' a) (f a) E'' Q') :
    Follows L T K E (g >>= f) E'' Q' := by
  refine bind hg fun a => ?_
  rw [Facts.and_empty]
  exact hf a

theorem pass (hg : Rule L T K E g E' fun _ => ∅) (hf : ∀ a, Follows L T K (E' a) (f a) E'' Q') :
    Follows L T K E (g >>= f) E'' Q' :=
  next (.rule hg) hf

theorem done (a : α) : Works L T K E (Pure.pure a : Gen α) := .pure rfl (by simp)

theorem ret {r : Int} (h : T.Reads K r) : Locates L T K E (Pure.pure r) := by
  refine .pure rfl fun f hf => ?_
  obtain rfl := Set.mem_singleton_iff.1 hf
  exact h

theorem hold (h : T.Reads K p.1) (hfree : ∀ r, p.2 = some r → .scratch r ∈ K) :
    Gives L T K E (Pure.pure p : Gen (Int × Option Int)) Facts.held := by
  refine .pure rfl fun f hf => ?_
  rcases Facts.mem_held.1 hf with rfl | ⟨r, hr, rfl⟩
  · exact h
  · exact hfree r hr

theorem holdRow {n : Nat} (h : T.ReadsRow K p.1 n) (hfree : ∀ r, p.2 = some r → .scratch r ∈ K) :
    Gives L T K E (Pure.pure p : Gen (Int × Option Int)) (Facts.heldRow n) := by
  refine .pure rfl fun f hf => ?_
  rcases Facts.mem_heldRow.1 hf with ⟨k, hk, rfl⟩ | ⟨r, hr, rfl⟩
  · exact h k hk
  · exact hfree r hr

theorem map {k : α → β} (h : Follows L T K E g (fun a => E'' (k a)) fun a => Q' (k a)) :
    Follows L T K E (k <$> g) E'' Q' :=
  .image (fun _ _ _ => makes_map.1) (fun _ => Deep.of_map) h

theorem discard (h : Gives L T K E g Q) : Works L T K E (discard g) :=
  .image (k := fun _ => ()) (fun _ _ _ hmake => (makes_discard.1 hmake).imp fun _ h => ⟨h, rfl⟩) (fun _ => Deep.of_map)
    (.weaken h (fun _ => rfl) (fun _ _ => id) (by simp))

theorem imp {S : α → Facts} (h : Follows L T K E g E' Q) (hQ : ∀ a, ∀ f ∈ S a, T.Knows (K.and (Q a)) f) :
    Follows L T K E g E' S :=
  .weaken h (fun _ => rfl) (fun _ _ => id) hQ

end Follows

end Gen

end ScalarSql
