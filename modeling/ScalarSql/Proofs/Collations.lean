import ScalarSql.Schema.Catalog

/-!
# What look-ups of collating sequences find

A look-up may ask the factory and so change what is registered. If the factory supplies sequences of the
name it is asked for, and does not tell upper from lower case, then the answer to a look-up does not
depend on the look-ups before it.
-/

namespace ScalarSql

open Text

namespace Collations

/-- A factory supplies sequences of the name it is asked for, the same for every spelling. -/
structure Tame (cs : Collations) : Prop where
  named : ∀ factory, cs.factory = some factory →
    ∀ name encoding c, c ∈ factory name encoding → sameName c.name name = true
  blind : ∀ factory, cs.factory = some factory →
    ∀ a b encoding, sameName a b = true → factory a encoding = factory b encoding

/-- What a look-up of a sequence for UTF-8 text finds. -/
def answer (cs : Collations) (name : String) : Option Collation := (resolve name .utf8 cs).1

def ofName (cs : Collations) (name : String) : List Collation :=
  cs.sequences.filter fun c => sameName c.name name

variable {cs cs' : Collations} {name other : String} {c : Collation} {supplied : List Collation} {a b : String}
  {factory : String → TextEncoding → List Collation}

theorem tame_of_no_factory (h : cs.factory = none) : cs.Tame := by
  constructor <;> rintro factory hfactory <;> rw [h] at hfactory <;> cases hfactory

/-! ## Registered sequences -/

theorem sameName_congr (h : sameName a b) (x : String) : sameName x a = sameName x b := by
  rw [Bool.eq_iff_iff]
  constructor
  · exact fun hx => sameName_trans hx h
  · exact fun hx => sameName_trans hx (sameName_comm a b ▸ h)

theorem get?_congr (h : sameName a b) (encoding : TextEncoding) : cs.get? a encoding = cs.get? b encoding := by
  simp only [get?, sameName_congr h]

theorem find?_ofName (cs : Collations) (name : String) (e : TextEncoding) :
    cs.sequences.find? (fun c => sameName c.name name && c.encoding == e) =
      (cs.ofName name).find? (·.encoding == e) := by
  simp only [ofName, List.find?_filter, Bool.decide_and, Bool.decide_eq_true]

theorem get?_of_ofName (h : cs.ofName name = cs'.ofName name) (encoding : TextEncoding) :
    cs.get? name encoding = cs'.get? name encoding := by
  simp only [get?, find?_ofName, h]

theorem ofName_eq_nil (h : cs.get? name .utf8 = none) : cs.ofName name = [] := by
  rw [List.eq_nil_iff_forall_not_mem]
  intro c hc
  simp only [get?, find?_ofName, List.findSome?_eq_none_iff, List.find?_eq_none] at h
  cases he : c.encoding <;> exact h c.encoding (by rw [he]; decide) c hc (by simp)

theorem ofName_register (cs : Collations) (c : Collation) (name : String) : (cs.register c).ofName name =
      if sameName c.name name then c :: (cs.ofName name).filter fun d => !c.same d else cs.ofName name := by
  simp only [ofName, register, List.filter_cons, List.filter_filter]
  split
  · congr 1
    exact List.filter_congr fun d _ => Bool.and_comm _ _
  · rename_i hname
    refine List.filter_congr fun d _ => ?_
    cases hd : sameName d.name name with
    | false => rfl
    | true =>
      -- a sequence of the other name does not have the name of the new one
      have hcd : sameName c.name d.name = false := by
        rw [Bool.eq_false_iff]
        exact fun hcd => hname (sameName_trans hcd hd)
      simp [Collation.same, hcd]

theorem ofName_foldl (h : cs.ofName name = cs'.ofName name) :
    (supplied.foldl register cs).ofName name = (supplied.foldl register cs').ofName name := by
  induction supplied generalizing cs cs' with
  | nil => exact h
  | cons c supplied ih =>
    refine ih ?_
    rw [ofName_register, ofName_register, h]

theorem ofName_foldl_of_other (h : ∀ c ∈ supplied, sameName c.name name = false) :
    (supplied.foldl register cs).ofName name = cs.ofName name := by
  induction supplied generalizing cs with
  | nil => rfl
  | cons c supplied ih =>
    rw [List.foldl_cons, ih fun d hd => h d (List.mem_cons_of_mem _ hd), ofName_register, h c List.mem_cons_self]
    rfl

theorem ofName_foldl_ne_nil (h : ∀ c ∈ supplied, sameName c.name name)
    (hne : supplied ≠ []) : (supplied.foldl register cs).ofName name ≠ [] := by
  induction supplied generalizing cs with
  | nil => exact absurd rfl hne
  | cons c supplied ih =>
    by_cases hrest : supplied = []
    · subst hrest
      rw [List.foldl_cons, List.foldl_nil, ofName_register, h c List.mem_cons_self]
      exact List.cons_ne_nil _ _
    · exact ih (fun d hd => h d (List.mem_cons_of_mem _ hd)) hrest

theorem factory_foldl (supplied : List Collation) : (supplied.foldl register cs).factory = cs.factory := by
  induction supplied generalizing cs with
  | nil => rfl
  | cons c supplied ih =>
    rw [List.foldl_cons, ih]
    rfl

/-! ## Look-ups -/

def ask (cs : Collations) (factory : String → TextEncoding → List Collation) (name : String) : Collations :=
  (factory name .utf8).foldl register { cs with requests := cs.requests + 1 }

theorem resolve_eq (cs : Collations) (name : String) : resolve name .utf8 cs =
      match cs.get? name .utf8, cs.factory with
      | some c, _ => (some c, cs)
      | none, none => (none, cs)
      | none, some factory => ((cs.ask factory name).get? name .utf8, cs.ask factory name) := by
  unfold resolve
  simp only [bind, StateT.bind, get, getThe, MonadStateOf.get, StateT.get, pure, ask]
  cases cs.get? name .utf8 <;> cases cs.factory <;> rfl

theorem answer_of_get? (h : cs.get? name .utf8 = some c) : cs.answer name = some c := by
  rw [answer, resolve_eq, h]

theorem answer_of_ask (h : cs.get? name .utf8 = none) (hfactory : cs.factory = some factory) :
    cs.answer name = (cs.ask factory name).get? name .utf8 := by
  rw [answer, resolve_eq, h, hfactory]

theorem answer_of_none (h : cs.get? name .utf8 = none) (hfactory : cs.factory = none) : cs.answer name = none := by
  rw [answer, resolve_eq, h, hfactory]

/-- Asking for a name does not change the answer to any look-up. -/
theorem answer_ask (hcs : cs.Tame) (hfactory : cs.factory = some factory) (hnone : cs.get? name .utf8 = none)
    (other : String) : (cs.ask factory name).answer other = cs.answer other := by
  have hfactory' : (cs.ask factory name).factory = some factory := (factory_foldl _).trans hfactory
  have hnamed := hcs.named factory hfactory name .utf8
  cases hsame : sameName name other with
  | true =>
    have hblind : factory other .utf8 = factory name .utf8 := (hcs.blind factory hfactory _ _ _ hsame).symm
    have hasked : cs.ask factory other = cs.ask factory name := by rw [ask, ask, hblind]
    rw [answer_of_ask ((get?_congr hsame .utf8).symm.trans hnone) hfactory, hasked]
    cases hget : (cs.ask factory name).get? other .utf8 with
    | some c => exact answer_of_get? hget
    | none =>
      -- nothing of the name was supplied, so nothing is when the factory is asked again
      have hempty : factory name .utf8 = [] := by
        refine Decidable.by_contra fun hne => ?_
        refine ofName_foldl_ne_nil (fun c hc => ?_) hne (ofName_eq_nil hget)
        exact sameName_trans (hnamed c hc) hsame
      rw [answer_of_ask hget hfactory', ask, hblind, hempty]
      exact hget
  | false =>
    have hothers : (cs.ask factory name).ofName other = cs.ofName other := by
      refine (ofName_foldl_of_other fun c hc => ?_).trans rfl
      rw [Bool.eq_false_iff]
      intro hc'
      rw [sameName_trans (sameName_comm _ _ ▸ hnamed c hc) hc'] at hsame
      cases hsame
    have hget := get?_of_ofName hothers .utf8
    cases hold : cs.get? other .utf8 with
    | some c => rw [answer_of_get? hold, answer_of_get? (hget.trans hold)]
    | none =>
      rw [answer_of_ask hold hfactory, answer_of_ask (hget.trans hold) hfactory']
      have hasked : ({ cs.ask factory name with requests := (cs.ask factory name).requests + 1 } :
          Collations).ofName other = ({ cs with requests := cs.requests + 1 } : Collations).ofName other :=
        hothers
      exact get?_of_ofName (ofName_foldl hasked) .utf8

theorem resolve_spec {found : Option Collation} (hcs : cs.Tame) (h : resolve name .utf8 cs = (found, cs')) :
    cs'.Tame ∧ cs.answer name = found ∧ ∀ other, cs'.answer other = cs.answer other := by
  have hfound : cs.answer name = found := by rw [answer, h]
  rw [resolve_eq] at h
  cases hget : cs.get? name .utf8 with
  | some c =>
    rw [hget] at h
    cases h
    exact ⟨hcs, hfound, fun _ => rfl⟩
  | none =>
    cases hfactory : cs.factory with
    | none =>
      rw [hget, hfactory] at h
      cases h
      exact ⟨hcs, hfound, fun _ => rfl⟩
    | some factory =>
      rw [hget, hfactory] at h
      cases h
      have hsame : (cs.ask factory name).factory = cs.factory := factory_foldl _
      exact ⟨⟨fun f hf => hcs.named f (hsame ▸ hf), fun f hf => hcs.blind f (hsame ▸ hf)⟩, hfound,
        answer_ask hcs hfactory hget⟩

theorem answer_congr (hcs : cs.Tame) (h : sameName a b) : cs.answer a = cs.answer b := by
  have hget : cs.get? a .utf8 = cs.get? b .utf8 := get?_congr h .utf8
  cases hb : cs.get? b .utf8 with
  | some c => rw [answer_of_get? hb, answer_of_get? (hget.trans hb)]
  | none =>
    cases hfactory : cs.factory with
    | none => rw [answer_of_none hb hfactory, answer_of_none (hget.trans hb) hfactory]
    | some factory =>
      rw [answer_of_ask hb hfactory, answer_of_ask (hget.trans hb) hfactory, ask, ask,
        hcs.blind factory hfactory a b .utf8 h]
      exact get?_congr h .utf8

end Collations

end ScalarSql
