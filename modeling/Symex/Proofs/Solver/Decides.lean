import Mathlib.Algebra.Order.Ring.Int
import Symex.Proofs.Solver.Congruence

/-!
# References are decided

Where every class holds a constant or a reference nothing is left to be searched: the constants have their values, and
the other classes have addresses of their own. Different classes then have different values, so that what can be
satisfied at all is satisfied by them.
-/

namespace Symex

namespace Solver

open Problem

/-- Values for terms that make the atoms true and read equal values at equal places. -/
structure Satisfying (as : List Atom) (val : Term → Value) : Prop where
  const : ∀ v, val (.const v) = v
  holds : ∀ a ∈ as, a.relation.holds (val a.lhs) (val a.rhs) = true
  field : ∀ {b c : Term} {f : Field}, .field b f ∈ termsOf as → .field c f ∈ termsOf as → val b = val c →
    val (.field b f) = val (.field c f)
  element : ∀ {a b i j : Term} {s t : Ty}, .element a i s ∈ termsOf as → .element b j t ∈ termsOf as →
    val a = val b → val i = val j → val (.element a i s) = val (.element b j t)
  length : ∀ {a b : Term}, .length a ∈ termsOf as → .length b ∈ termsOf as → val a = val b →
    val (.length a) = val (.length b)

namespace Satisfying

variable {as bs : List Atom} {val : Term → Value}

theorem mono (h : Satisfying bs val) (hsub : ∀ a ∈ as, a ∈ bs) : Satisfying as val := by
  have hterms : ∀ {t : Term}, t ∈ termsOf as → t ∈ termsOf bs := by
    intro t ht
    obtain ⟨a, ha, hta⟩ := mem_termsOf.mp ht
    exact mem_termsOf.mpr ⟨a, hsub a ha, hta⟩
  exact ⟨h.const, fun a ha => h.holds a (hsub a ha), fun hb hc => h.field (hterms hb) (hterms hc),
    fun ha hb => h.element (hterms ha) (hterms hb), fun ha hb => h.length (hterms ha) (hterms hb)⟩

theorem congruence (h : Satisfying as val) : Congruence as fun s t => val s = val t := by
  refine ⟨⟨fun _ => rfl, Eq.symm, Eq.trans⟩, ?_, h.field, h.element, h.length⟩
  intro a ha he
  have hholds := h.holds a ha
  rw [he] at hholds
  exact beq_iff_eq.mp hholds

end Satisfying

theorem Solution.satisfying {as : List Atom} {m : Assignment} {v : Valuation} (s : Solution as m v) :
    Satisfying as fun t => (m.eval t).getD default := by
  have hval : ∀ {t : Term}, t ∈ termsOf as → m.eval t = some ((m.eval t).getD default) := by
    intro t ht
    obtain ⟨x, hx⟩ := Option.isSome_iff_exists.mp (s.eval_isSome ht)
    rw [hx, Option.getD_some]
  refine ⟨fun v => rfl, ?_, ?_, ?_, ?_⟩
  · intro a ha
    have hh := s.holds ha
    unfold Assignment.holds at hh
    rw [hval (lhs_mem_termsOf ha), hval (rhs_mem_termsOf ha)] at hh
    exact Option.some.inj hh
  · intro b c f hb hc he
    have hbp : b ∈ (Term.field b f).parts := List.mem_singleton_self b
    have hcp : c ∈ (Term.field c f).parts := List.mem_singleton_self c
    exact s.isFunctional.field (hval (part_mem_termsOf hb hbp)) (he ▸ hval (part_mem_termsOf hc hcp)) (hval hb) (hval hc)
  · intro a b i j e e' ha hb he hi
    have hap : a ∈ (Term.element a i e).parts := List.mem_cons_self
    have hbp : b ∈ (Term.element b j e').parts := List.mem_cons_self
    have hip : i ∈ (Term.element a i e).parts := List.mem_cons_of_mem _ (List.mem_singleton_self i)
    have hjp : j ∈ (Term.element b j e').parts := List.mem_cons_of_mem _ (List.mem_singleton_self j)
    exact s.isFunctional.element (hval (part_mem_termsOf ha hap)) (he ▸ hval (part_mem_termsOf hb hbp)) (hval (part_mem_termsOf ha hip))
      (hi ▸ hval (part_mem_termsOf hb hjp)) (hval ha) (hval hb)
  · intro a b ha hb he
    have hap : a ∈ (Term.length a).parts := List.mem_singleton_self a
    have hbp : b ∈ (Term.length b).parts := List.mem_singleton_self b
    exact s.isFunctional.length (hval (part_mem_termsOf ha hap)) (he ▸ hval (part_mem_termsOf hb hbp)) (hval ha) (hval hb)

/-! ### Addresses of their own -/

/-- Different classes have different values, and no address is above `top`. -/
structure OneToOne (v : Valuation) (top : Int) : Prop where
  inj : ∀ {k l : Nat} {x : Value}, valueAt v k = some x → valueAt v l = some x → k = l
  le : ∀ {l : Nat} {a : Address}, valueAt v l = some (.addr a) → a.raw ≤ top

theorem OneToOne.setNext {v : Valuation} {top : Int} (h : OneToOne v top) (l : Nat) :
    OneToOne (v.setIfInBounds l (some (.addr ⟨top + 1⟩))) (top + 1) := by
  -- A new address is above all others, so no other class has it.
  have hnew : ∀ {k : Nat}, valueAt v k ≠ some (.addr ⟨top + 1⟩) := by
    intro k hk
    have hle := h.le hk
    dsimp only at hle
    omega
  refine ⟨?_, ?_⟩
  · intro j k x hj hk
    rw [valueAt_set] at hj hk
    split at hj
    next hlj =>
      split at hk
      next hlk => exact hlj.1.symm.trans hlk.1
      next =>
        cases hj
        exact absurd hk hnew
    next =>
      split at hk
      next =>
        cases hk
        exact absurd hj hnew
      next => exact h.inj hj hk
  · intro k a hk
    rw [valueAt_set] at hk
    split at hk
    · cases hk
      exact le_refl _
    · exact (h.le hk).trans (by omega)

theorem OneToOne.settleClass {c : Classes} {s : Valuation × Int × List Nat} (h : OneToOne s.1 s.2.1) (l : Nat) :
    OneToOne (settleClass c s l).1 (settleClass c s l).2.1 := by
  unfold Solver.settleClass
  split
  · exact h
  · split
    · exact h.setNext l
    · exact h

theorem OneToOne.foldl_settleClass {c : Classes} {ls : List Nat} {s : Valuation × Int × List Nat}
    (h : OneToOne s.1 s.2.1) :
    OneToOne (ls.foldl (Solver.settleClass c) s).1 (ls.foldl (Solver.settleClass c) s).2.1 := by
  induction ls generalizing s with
  | nil => exact h
  | cons l ls ih => exact ih (h.settleClass l)

/-- The greater of a number and the address of a constant, if it is one. -/
def raise (top : Int) (e : Nat × Value) : Int :=
  match e.2 with
  | .addr a => max top a.raw
  | _ => top

theorem le_raise (top : Int) (e : Nat × Value) : top ≤ raise top e := by
  unfold raise
  split
  · exact le_max_left _ _
  · exact le_refl top

theorem le_foldl_raise (es : List (Nat × Value)) (top : Int) : top ≤ es.foldl raise top := by
  induction es generalizing top with
  | nil => exact le_refl top
  | cons e es ih => exact (le_raise top e).trans (ih _)

theorem le_topAddress {c : Classes} {l : Nat} {a : Address} (h : (l, .addr a) ∈ constants c) :
    a.raw ≤ topAddress c := by
  obtain ⟨before, after, hsplit⟩ := List.append_of_mem h
  have htop : topAddress c = (constants c).foldl raise 0 := rfl
  rw [htop, hsplit, List.foldl_append, List.foldl_cons]
  exact (le_max_right _ _).trans (le_foldl_raise _ _)

theorem oneToOne_fixedValues {c : Classes} (hn : (c.members.map (·.1)).Nodup) :
    ∃ top, OneToOne (fixedValues c).1 top := by
  rw [fixedValues_eq]
  refine ⟨_, OneToOne.foldl_settleClass ⟨?_, ?_⟩⟩
  · intro k l x hk hl
    have hconst : ∀ {j : Nat}, valueAt (giveConstants (constants c) (Array.replicate c.members.length none)) j = some x →
        c.label? (.const x) = some j := by
      intro j hj
      rcases valueAt_of_giveConstants hj with h | h
      · rw [valueAt_replicate] at h
        cases h
      · exact lookup_of_mem hn (mem_constants.mp h)
    exact Option.some.inj ((hconst hk).symm.trans (hconst hl))
  · intro l a hl
    rcases valueAt_of_giveConstants hl with h | h
    · rw [valueAt_replicate] at h
      cases h
    · exact le_topAddress h

/-! ### Nothing left to search -/

theorem exists_member_of_opened {c : Classes} {l : Nat} (h : l ∈ (fixedValues c).2) :
    (∃ t, (t, l) ∈ c.members) ∧ isReferenceClass c l = false := by
  obtain ⟨os, hos, hsub, href⟩ := exists_opened c c.labels
    (giveConstants (constants c) (Array.replicate c.members.length none), topAddress c, [])
  have hl : l ∈ os := by
    rw [fixedValues_eq, hos] at h
    exact h
  obtain ⟨m, hm, rfl⟩ := List.mem_map.mp (List.mem_eraseDups.mp (hsub.subset hl))
  exact ⟨⟨m.1, hm⟩, href _ hl⟩

/-- Every term is in one class with a constant or a reference. -/
def Pinned (as : List Atom) : Prop :=
  ∀ t ∈ termsOf as, ∃ u, (Classes.ofAtoms as).Same t u ∧ (u.isConst = true ∨ u.isReference = true)

theorem Pinned.opened_eq_nil {as : List Atom} (h : Pinned as) (hclash : clash (Classes.ofAtoms as) = false) :
    (fixedValues (Classes.ofAtoms as)).2 = [] := by
  rw [List.eq_nil_iff_forall_not_mem]
  intro l hl
  obtain ⟨⟨t, ht⟩, href⟩ := exists_member_of_opened hl
  have hlabel := Classes.label?_eq_some_iff.mpr ht
  obtain ⟨u, ⟨k, htk, huk⟩, hu⟩ := h t (Classes.mem_termsOf_of_label hlabel)
  rw [hlabel] at htk
  cases htk
  have hmem := Classes.label?_eq_some_iff.mp huk
  rcases hu with hu | hu
  · cases u with
    | const x => exact ((fixed_fixedValues (Classes.bounded_ofAtoms as) hclash).constant (mem_constants.mpr hmem)).2 hl
    | _ => cases hu
  · have htrue : isReferenceClass (Classes.ofAtoms as) l = true :=
      List.any_eq_true.mpr ⟨(u, l), hmem, by rw [hu, beq_self_eq_true]; rfl⟩
    rw [htrue] at href
    cases href

theorem search_nil {p : Problem} {limit : Nat} {v : Valuation} (hl : 1 ≤ limit) (hc : p.consistent v = true)
    (hf : p.functional v = true) : search p limit [] v 0 = (1, some v) := by
  have hn : ¬ 0 + 1 > limit := by omega
  rw [search]
  simp [hn, hc, hf]

/-! ### Reads of the same place -/

/-- A read stands for a term: its base and its index are the classes of the term's parts. -/
inductive Read.StandsFor (c : Classes) : Read → Term → Prop where
  | field {b : Term} {f : Field} {i l : Nat} (hb : c.label? b = some i) :
      StandsFor c ⟨.field f, i, none, l⟩ (.field b f)
  | element {a i : Term} {e : Ty} {j k l : Nat} (ha : c.label? a = some j) (hi : c.label? i = some k) :
      StandsFor c ⟨.element, j, some k, l⟩ (.element a i e)
  | length {a : Term} {i l : Nat} (ha : c.label? a = some i) : StandsFor c ⟨.length, i, none, l⟩ (.length a)

theorem exists_term_of_read {c : Classes} {r : Read} (h : r ∈ readsOf c) :
    ∃ t, (t, r.value) ∈ c.members ∧ r.StandsFor c t := by
  obtain ⟨⟨t, l⟩, hm, hr⟩ := List.mem_filterMap.mp h
  cases t with
  | field b f =>
    obtain ⟨k, hk, rfl⟩ := Option.map_eq_some_iff.mp hr
    exact ⟨_, hm, .field hk⟩
  | element a i e =>
    obtain ⟨k, hk, hr⟩ := Option.bind_eq_some_iff.mp hr
    obtain ⟨j, hj, rfl⟩ := Option.map_eq_some_iff.mp hr
    exact ⟨_, hm, .element hk hj⟩
  | length a =>
    obtain ⟨k, hk, rfl⟩ := Option.map_eq_some_iff.mp hr
    exact ⟨_, hm, .length hk⟩
  | _ => cases hr

namespace Read.StandsFor

variable {c : Classes} {r q : Read} {s t : Term}

theorem isSome_index (h : r.StandsFor c t) : r.index.isSome = decide (r.slot = .element) := by
  cases h <;> rfl

theorem exists_base (h : r.StandsFor c t) : ∃ u, c.label? u = some r.base := by
  cases h with
  | field hb => exact ⟨_, hb⟩
  | element ha _ => exact ⟨_, ha⟩
  | length ha => exact ⟨_, ha⟩

theorem exists_index (h : r.StandsFor c t) {i : Nat} (hi : r.index = some i) : ∃ u, c.label? u = some i := by
  cases h with
  | element _ hj => exact ⟨_, hj.trans hi⟩
  | field _ => cases hi
  | length _ => cases hi

theorem samePlace (h : r.StandsFor c s) (h' : q.StandsFor c t) (hslot : r.slot = q.slot) (hbase : r.base = q.base)
    (hindex : r.index = q.index) : SamePlace c.Same s t := by
  cases h with
  | field hb =>
    cases h' with
    | field hb' =>
      cases hslot
      cases hbase
      exact .field ⟨_, hb, hb'⟩
    | element _ _ => cases hslot
    | length _ => cases hslot
  | element ha hi =>
    cases h' with
    | field _ => cases hslot
    | element ha' hi' =>
      cases hbase
      cases hindex
      exact .element ⟨_, ha, ha'⟩ ⟨_, hi, hi'⟩
    | length _ => cases hslot
  | length ha =>
    cases h' with
    | field _ => cases hslot
    | element _ _ => cases hslot
    | length ha' =>
      cases hbase
      exact .length ⟨_, ha, ha'⟩

end Read.StandsFor

/-- Reads of the same place have the same class. -/
theorem value_eq_of_place {as : List Atom} {r q : Read} (hr : r ∈ readsOf (Classes.ofAtoms as))
    (hq : q ∈ readsOf (Classes.ofAtoms as)) (hslot : r.slot = q.slot) (hbase : r.base = q.base)
    (hindex : r.index = q.index) : r.value = q.value := by
  obtain ⟨s, hs, hrs⟩ := exists_term_of_read hr
  obtain ⟨t, ht, hqt⟩ := exists_term_of_read hq
  rw [← Classes.label?_eq_some_iff] at hs ht
  have hplace := (hrs.samePlace hqt hslot hbase hindex).mono Classes.same_iff_joined.mp
  obtain ⟨l, hsl, htl⟩ := Classes.same_iff_joined.mpr
    (Closure.joined_of_samePlace (Classes.mem_termsOf_of_label hs) (Classes.mem_termsOf_of_label ht) hplace)
  rw [hs] at hsl
  rw [ht] at htl
  exact Option.some.inj (hsl.trans htl.symm)

/-- Where all classes have values and different ones different values, reads agree. -/
theorem agree_of_oneToOne {as : List Atom} {v : Valuation} {top : Int} (hv : OneToOne v top)
    (hall : ∀ {t : Term} {l : Nat}, (t, l) ∈ (Classes.ofAtoms as).members → (valueAt v l).isSome) {r q : Read}
    (hr : r ∈ readsOf (Classes.ofAtoms as)) (hq : q ∈ readsOf (Classes.ofAtoms as)) : agree v r q = true := by
  have hinj : ∀ {t : Term} {k l : Nat}, (t, k) ∈ (Classes.ofAtoms as).members → valueAt v k = valueAt v l → k = l := by
    intro t k l hk he
    obtain ⟨x, hx⟩ := Option.isSome_iff_exists.mp (hall hk)
    exact hv.inj hx (he ▸ hx)
  obtain ⟨s, -, hrs⟩ := exists_term_of_read hr
  obtain ⟨t, -, hqt⟩ := exists_term_of_read hq
  obtain ⟨b, hb⟩ := hrs.exists_base
  by_cases hslot : r.slot = q.slot
  swap
  · simp [agree, hslot]
  by_cases hbase : valueAt v r.base = valueAt v q.base
  swap
  · simp [agree, hbase]
  have hindex : r.index.isSome = q.index.isSome := by
    rw [hrs.isSome_index, hqt.isSome_index, hslot]
  -- The same slot and the same base: the places differ in their indices or not at all.
  have hplace : r.index = q.index → agree v r q = true := by
    intro he
    have hvalue := value_eq_of_place hr hq hslot (hinj (mem_of_lookup hb) hbase) he
    simp [agree, hvalue]
  cases hri : r.index with
  | none =>
    have hqi : q.index = none := by simpa [hri] using hindex.symm
    exact hplace (hri.trans hqi.symm)
  | some i =>
    rw [hri] at hindex
    obtain ⟨j, hqj⟩ := Option.isSome_iff_exists.mp hindex.symm
    obtain ⟨u, hu⟩ := hrs.exists_index hri
    by_cases hij : valueAt v i = valueAt v j
    · exact hplace (by rw [hri, hqj, hinj (mem_of_lookup hu) hij])
    · simp [agree, hri, hqj, hij]

/-! ### Decision -/

theorem Satisfying.clash_eq_false {as : List Atom} {val : Term → Value} (h : Satisfying as val) :
    clash (Classes.ofAtoms as) = false := by
  rw [clash, List.any_eq_false]
  rintro ⟨l, x⟩ he
  obtain ⟨y, hy⟩ := exists_lookup_of_mem (List.mem_map.mpr ⟨_, he, rfl⟩ : l ∈ (constants (Classes.ofAtoms as)).map (·.1))
  have hx' := Classes.label?_eq_some_iff.mpr (mem_constants.mp he)
  have hy' := Classes.label?_eq_some_iff.mpr (mem_constants.mp (mem_of_lookup hy))
  have hxy : val (.const x) = val (.const y) := h.congruence.of_same ⟨l, hx', hy'⟩
  rw [h.const, h.const] at hxy
  simp [hy, hxy]

theorem Satisfying.consistent {as : List Atom} {val : Term → Value} (h : Satisfying as val)
    (hrel : ∀ a ∈ as, a.relation = .eq ∨ a.relation = .ne) {v : Valuation} {top : Int} (hv : OneToOne v top) :
    (problemOf as (Classes.ofAtoms as)).consistent v = true := by
  rw [Problem.consistent, List.all_eq_true]
  intro e he
  obtain ⟨a, ha, hae⟩ := List.mem_filterMap.mp he
  obtain ⟨i, hi, hae⟩ := Option.bind_eq_some_iff.mp hae
  obtain ⟨j, hj, rfl⟩ := Option.map_eq_some_iff.mp hae
  dsimp only
  split
  next x y hx hy =>
    rcases hrel a ha with hr | hr
    · obtain ⟨l, hil, hjl⟩ := Classes.same_of_eq ha hr
      rw [hi] at hil
      rw [hj] at hjl
      rw [Option.some.inj hil] at hx
      rw [Option.some.inj hjl] at hy
      rw [hr]
      exact beq_iff_eq.mpr (Option.some.inj (hx.symm.trans hy))
    · -- Equal values would come from one class, where the two sides are equal.
      rw [hr]
      refine bne_iff_ne.mpr fun hxy => ?_
      have hij := hv.inj hx (hxy ▸ hy)
      have hsame : val a.lhs = val a.rhs := h.congruence.of_same ⟨i, hi, hij ▸ hj⟩
      have hholds := h.holds a ha
      rw [hr] at hholds
      exact bne_iff_ne.mp hholds hsame
  next => rfl

theorem solve_isSome_iff {limit : Nat} (hl : 1 ≤ limit) {as : List Atom}
    (hrel : ∀ a ∈ as, a.relation = .eq ∨ a.relation = .ne) (hp : Pinned as) :
    (solve limit as).isSome ↔ ∃ val, Satisfying as val := by
  constructor
  · intro h
    obtain ⟨m, hm⟩ := Option.isSome_iff_exists.mp h
    obtain ⟨v, s⟩ := solve_some hm
    exact ⟨_, s.satisfying⟩
  · rintro ⟨val, h⟩
    have hclash := h.clash_eq_false
    have hopened := hp.opened_eq_nil hclash
    obtain ⟨top, hv⟩ := oneToOne_fixedValues (Classes.nodup_ofAtoms as)
    have hfixed := fixed_fixedValues (Classes.bounded_ofAtoms as) hclash
    have hall : ∀ {t : Term} {l : Nat}, (t, l) ∈ (Classes.ofAtoms as).members →
        (valueAt (fixedValues (Classes.ofAtoms as)).1 l).isSome := by
      intro t l hm
      refine (hfixed.covered hm).resolve_right ?_
      rw [hopened]
      exact List.not_mem_nil
    have hfun : (problemOf as (Classes.ofAtoms as)).functional (fixedValues (Classes.ofAtoms as)).1 = true := by
      rw [functional, List.all_eq_true]
      intro e he
      obtain ⟨hr, hq⟩ := mem_of_mem_pairs he
      exact agree_of_oneToOne hv hall hr hq
    have hsearch := search_nil hl (h.consistent hrel hv) hfun
    rw [← hopened] at hsearch
    rw [solve_eq_map hclash, hsearch]
    rfl

end Solver

/-- A reference that is made of references alone, but for numbers that stand as indices. -/
def Term.isReferential : Term → Bool
  | .param _ t => t.isReference
  | .localVar _ t => t.isReference
  | .const (.addr _) => true
  | .const _ => false
  | .static f => f.ty.isReference
  | .field b f => f.ty.isReference && b.isReferential
  | .element a (.const (.int _)) t => t.isReference && a.isReferential
  | .element a i t => t.isReference && a.isReferential && i.isReferential
  | .length _ => false

/-- Two such references, said to be equal or different. -/
def Atom.isReferential (a : Atom) : Bool :=
  (a.relation == .eq || a.relation == .ne) && a.lhs.isReferential && a.rhs.isReferential

theorem Term.subterm_of_isReferential {t u : Term} (ht : t.isReferential = true) (hu : u ∈ t.subterms) :
    u.isConst = true ∨ u.isReference = true := by
  fun_induction Term.isReferential t with
  | case1 x ty =>
    rw [List.mem_singleton.mp hu]
    exact Or.inr ht
  | case2 x ty =>
    rw [List.mem_singleton.mp hu]
    exact Or.inr ht
  | case3 a =>
    rw [List.mem_singleton.mp hu]
    exact Or.inl rfl
  | case4 v hv => cases ht
  | case5 f =>
    rw [List.mem_singleton.mp hu]
    exact Or.inr ht
  | case6 b f ih =>
    obtain ⟨hf, hb⟩ := Bool.and_eq_true_iff.mp ht
    rcases List.mem_cons.mp hu with rfl | hu
    · exact Or.inr hf
    · exact ih hb hu
  | case7 a n e ih =>
    obtain ⟨he, ha⟩ := Bool.and_eq_true_iff.mp ht
    rcases List.mem_cons.mp hu with rfl | hu
    · exact Or.inr he
    · rcases List.mem_append.mp hu with hu | hu
      · exact ih ha hu
      · rw [List.mem_singleton.mp hu]
        exact Or.inl rfl
  | case8 a i e hi iha ihi =>
    obtain ⟨hae, hi⟩ := Bool.and_eq_true_iff.mp ht
    obtain ⟨he, ha⟩ := Bool.and_eq_true_iff.mp hae
    rcases List.mem_cons.mp hu with rfl | hu
    · exact Or.inr he
    · rcases List.mem_append.mp hu with hu | hu
      · exact iha ha hu
      · exact ihi hi hu
  | case9 a => cases ht

namespace Solver

theorem pinned_of_isReferential {as : List Atom} (h : ∀ a ∈ as, a.isReferential = true) : Pinned as := by
  intro t ht
  obtain ⟨l, hl⟩ := Classes.exists_label ht
  refine ⟨t, ⟨l, hl, hl⟩, ?_⟩
  obtain ⟨a, ha, hta⟩ := mem_termsOf.mp ht
  obtain ⟨hsides, hr⟩ := Bool.and_eq_true_iff.mp (h a ha)
  obtain ⟨-, hleft⟩ := Bool.and_eq_true_iff.mp hsides
  rcases List.mem_append.mp hta with hta | hta
  · exact Term.subterm_of_isReferential hleft hta
  · exact Term.subterm_of_isReferential hr hta

/-- What is said about references only is decided: there is no answer exactly if no values satisfy the atoms. -/
theorem check_eq_none_iff {limit : Nat} (hl : 1 ≤ limit) {p : Path} (hp : ∀ a ∈ p.hard, a.isReferential = true)
    (respectSoft : Bool) : check limit p respectSoft = none ↔ ¬ ∃ val, Satisfying p.hard val := by
  have hrel : ∀ a ∈ p.hard, a.relation = .eq ∨ a.relation = .ne := by
    intro a ha
    obtain ⟨hsides, -⟩ := Bool.and_eq_true_iff.mp (hp a ha)
    obtain ⟨hr, -⟩ := Bool.and_eq_true_iff.mp hsides
    simpa using hr
  have hsolve := solve_isSome_iff hl hrel (pinned_of_isReferential hp)
  rw [← Option.not_isSome_iff_eq_none, not_iff_not]
  constructor
  · intro h
    -- The answer may be one that respects the soft atoms; it satisfies the hard ones too.
    obtain ⟨m, hm⟩ := Option.isSome_iff_exists.mp h
    obtain ⟨v, s⟩ := solve_some (check_eq_some hm)
    exact ⟨_, s.satisfying.mono fun a ha => List.mem_append_left _ ha⟩
  · intro h
    have hhard := hsolve.mpr h
    unfold check
    split
    · rw [p.atoms_false, Option.isSome_or, hhard, Bool.or_true]
    · rw [p.atoms_false]
      exact hhard

/-- Two arrays are the same, and their elements at one index have different values in a field. -/
def splitPath : Path :=
  let nodes : Ty := .array (.object "Node")
  let a : Term := .param "a" nodes
  let b : Term := .localVar "b" nodes
  let next : Field := ⟨"Node", "next", .object "Node"⟩
  { hard := [.eq a b, .ne (.field (.element a (.int 3) (.object "Node")) next)
      (.field (.element b (.int 3) (.object "Node")) next)]
    soft := [.ne a .null] }

theorem splitPath_unsatisfiable : (1 ≤ 1 ∧ ∀ a ∈ splitPath.hard, a.isReferential = true) ∧
    check 1 splitPath true = none ∧ ¬ ∃ val, Satisfying splitPath.hard val := by
  have hp : ∀ a ∈ splitPath.hard, a.isReferential = true := by decide
  have hnone : check 1 splitPath true = none := by decide +kernel
  exact ⟨⟨le_refl 1, hp⟩, hnone, (check_eq_none_iff (le_refl 1) hp true).mp hnone⟩

end Solver

end Symex
