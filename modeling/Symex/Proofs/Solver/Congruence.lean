import Mathlib.Data.List.Nodup
import Symex.Proofs.Solver.Soundness

/-!
# Congruence closure

Two terms of a conjunction come under one root exactly if they are related by the least equivalence that has the sides
of the equalities and the reads of related places. A union follows the equalities or the reads, so nothing else comes
under one root; and the last round, which unites nothing, has looked at every pair of reads.
-/

namespace Symex.Solver

/-- Reads of the same field on related bases, of related arrays at related indices, or lengths of related arrays. -/
inductive SamePlace (r : Term → Term → Prop) : Term → Term → Prop where
  | field {b c : Term} {f : Field} (h : r b c) : SamePlace r (.field b f) (.field c f)
  | element {a b i j : Term} {s t : Ty} (h : r a b) (h' : r i j) : SamePlace r (.element a i s) (.element b j t)
  | length {a b : Term} (h : r a b) : SamePlace r (.length a) (.length b)

theorem SamePlace.symm {r : Term → Term → Prop} (hr : ∀ {s t}, r s t → r t s) {s t : Term} (h : SamePlace r s t) :
    SamePlace r t s := by
  cases h with
  | field h => exact .field (hr h)
  | element h h' => exact .element (hr h) (hr h')
  | length h => exact .length (hr h)

theorem SamePlace.mono {r r' : Term → Term → Prop} (hr : ∀ {s t}, r s t → r' s t) {s t : Term}
    (h : SamePlace r s t) : SamePlace r' s t := by
  cases h with
  | field h => exact .field (hr h)
  | element h h' => exact .element (hr h) (hr h')
  | length h => exact .length (hr h)

/-! ### Terms under one root -/

namespace Closure

open Forest

variable {ts : List Term}

/-- Two terms that stand under one root. -/
def Joined (root : Fin ts.length → Fin ts.length) (s t : Term) : Prop :=
  ∃ i j, ts.get i = s ∧ ts.get j = t ∧ root i = root j

theorem Joined.symm {root : Fin ts.length → Fin ts.length} {s t : Term} (h : Joined root s t) : Joined root t s := by
  obtain ⟨i, j, hi, hj, hij⟩ := h
  exact ⟨j, i, hj, hi, hij.symm⟩

theorem exists_finIdxOf? {t : Term} (h : t ∈ ts) : ∃ i, ts.finIdxOf? t = some i ∧ ts.get i = t := by
  obtain ⟨i, hi⟩ := Option.ne_none_iff_exists'.mp (mt List.finIdxOf?_eq_none_iff.mp (not_not_intro h))
  exact ⟨i, hi, (List.finIdxOf?_eq_some_iff.mp hi).1⟩

theorem sameBy_iff (hn : ts.Nodup) {root : Fin ts.length → Fin ts.length} {s t : Term} :
    sameBy ts root s t = true ↔ s = t ∨ Joined root s t := by
  unfold sameBy
  split
  next i j hi hj =>
    have hi : ts.get i = s := (List.finIdxOf?_eq_some_iff.mp hi).1
    have hj : ts.get j = t := (List.finIdxOf?_eq_some_iff.mp hj).1
    rw [decide_eq_true_eq]
    constructor
    · exact fun h => Or.inr ⟨i, j, hi, hj, h⟩
    · rintro (hst | ⟨k, l, hk, hl, hkl⟩)
      · rw [hn.get_inj_iff.mp (hi.trans (hst.trans hj.symm))]
      · rw [hn.get_inj_iff.mp (hi.trans hk.symm), hn.get_inj_iff.mp (hj.trans hl.symm)]
        exact hkl
  next hnone =>
    rw [decide_eq_true_eq, or_iff_left]
    rintro ⟨k, l, rfl, rfl, -⟩
    obtain ⟨i, hi, -⟩ := exists_finIdxOf? (ts.get_mem k)
    obtain ⟨j, hj, -⟩ := exists_finIdxOf? (ts.get_mem l)
    exact hnone i j hi hj

theorem congruentBy_iff (hn : ts.Nodup) {root : Fin ts.length → Fin ts.length} {s t : Term} :
    congruentBy ts root s t = true ↔ SamePlace (fun u v => u = v ∨ Joined root u v) s t := by
  unfold congruentBy
  split
  next b f c g =>
    rw [Bool.and_eq_true, decide_eq_true_eq, sameBy_iff hn]
    constructor
    · rintro ⟨rfl, h⟩
      exact .field h
    · intro h
      cases h with
      | field h => exact ⟨rfl, h⟩
  next a i _ b j _ =>
    rw [Bool.and_eq_true, sameBy_iff hn, sameBy_iff hn]
    constructor
    · exact fun h => .element h.1 h.2
    · intro h
      cases h with
      | element h h' => exact ⟨h, h'⟩
  next a b =>
    rw [sameBy_iff hn]
    constructor
    · exact fun h => .length h
    · intro h
      cases h with
      | length h => exact h
  next hfield helement hlength =>
    refine iff_of_false Bool.false_ne_true fun h => ?_
    cases h with
    | field => exact hfield _ _ _ _ rfl rfl
    | element => exact helement _ _ _ _ _ _ rfl rfl
    | length => exact hlength _ _ rfl rfl

/-! ### What closing keeps -/

section Induction

variable {P : (Fin ts.length → Fin ts.length) → Prop}
  (hread : ∀ (f : Forest ts.length) (i j : Fin ts.length), congruentBy ts f.root (ts.get i) (ts.get j) = true →
    P f.root → P (union i j f).2.root)

include hread

theorem merge_induction (f : Forest ts.length) (i j : Fin ts.length) (h : P f.root) : P (merge ts i j f).2.root := by
  obtain ⟨g, hg, heq⟩ := merge_eq ts f i j
  rw [← hg] at h heq
  rw [heq]
  split
  next hc => exact hread g i j hc.2 h
  next => exact h

theorem mergeAll_induction (l : List (Fin ts.length × Fin ts.length)) (changed : Bool) (f : Forest ts.length)
    (h : P f.root) : P (mergeAll ts l changed f).2.root := by
  induction l generalizing f changed with
  | nil => exact h
  | cons p l ih => exact ih _ _ (merge_induction hread f p.1 p.2 h)

theorem close_induction (f : Forest ts.length) (h : P f.root) : P (close ts f).root := by
  induction f using close.induct ts with
  | case1 f r hr ih =>
    rw [close, if_pos hr]
    exact ih (mergeAll_induction hread _ _ f h)
  | case2 f r hr =>
    rw [close, if_neg hr]
    exact mergeAll_induction hread _ _ f h

end Induction

theorem exists_unite {s t : Term} (hs : s ∈ ts) (ht : t ∈ ts) (f : Forest ts.length) :
    ∃ i j, ts.get i = s ∧ ts.get j = t ∧ (unite ts s t f).2 = (union i j f).2 := by
  obtain ⟨i, hidx, hi⟩ := exists_finIdxOf? hs
  obtain ⟨j, hjdx, hj⟩ := exists_finIdxOf? ht
  refine ⟨i, j, hi, hj, ?_⟩
  rw [unite, hidx, hjdx]
  rfl

theorem uniteSides_cons (f : Forest ts.length) (a : Atom) (l : List Atom) : uniteSides ts (a :: l) f =
    uniteSides ts l (if a.relation = .eq then (unite ts a.lhs a.rhs f).2 else f) := by
  have hrun : uniteSides ts (a :: l) f = uniteSides ts l
      ((if a.relation = .eq then unite ts a.lhs a.rhs else pure () : StateM (Forest ts.length) Unit) f).2 := rfl
  rw [hrun]
  split <;> rfl

theorem uniteSides_induction {P : (Fin ts.length → Fin ts.length) → Prop} {as : List Atom}
    (hmem : ∀ a ∈ as, a.lhs ∈ ts ∧ a.rhs ∈ ts)
    (hsides : ∀ a ∈ as, a.relation = .eq → ∀ (f : Forest ts.length) (i j : Fin ts.length), ts.get i = a.lhs →
      ts.get j = a.rhs → P f.root → P (union i j f).2.root)
    (f : Forest ts.length) (h : P f.root) : P (uniteSides ts as f).2.root := by
  induction as generalizing f with
  | nil => exact h
  | cons a as ih =>
    rw [uniteSides_cons]
    apply ih (fun b hb => hmem b (List.mem_cons_of_mem _ hb)) fun b hb => hsides b (List.mem_cons_of_mem _ hb)
    split
    next heq =>
      obtain ⟨hl, hr⟩ := hmem a List.mem_cons_self
      obtain ⟨i, j, hi, hj, hunite⟩ := exists_unite hl hr f
      rw [hunite]
      exact hsides a List.mem_cons_self heq f i j hi hj h
    next => exact h

/-- What holds of the terms alone and survives the unions, of the sides of equalities and of reads of the same place,
holds in the end. -/
theorem ofAtoms_induction {as : List Atom} {P : (Fin (termsOf as).length → Fin (termsOf as).length) → Prop}
    (hstart : P id)
    (hsides : ∀ a ∈ as, a.relation = .eq → ∀ (f : Forest (termsOf as).length) (i j : Fin (termsOf as).length),
      (termsOf as).get i = a.lhs → (termsOf as).get j = a.rhs → P f.root → P (union i j f).2.root)
    (hread : ∀ (f : Forest (termsOf as).length) (i j : Fin (termsOf as).length),
      congruentBy (termsOf as) f.root ((termsOf as).get i) ((termsOf as).get j) = true → P f.root →
        P (union i j f).2.root) :
    P (ofAtoms as).root := by
  refine close_induction hread _ (uniteSides_induction ?_ hsides _ ?_)
  · exact fun a ha => ⟨lhs_mem_termsOf ha, rhs_mem_termsOf ha⟩
  · rwa [show (discrete (termsOf as).length).root = id from funext root_discrete]

theorem root_uniteSides {as : List Atom} (hmem : ∀ a ∈ as, a.lhs ∈ ts ∧ a.rhs ∈ ts) {a : Atom} (ha : a ∈ as)
    (heq : a.relation = .eq) (f : Forest ts.length) : Joined (uniteSides ts as f).2.root a.lhs a.rhs := by
  induction as generalizing f with
  | nil => cases ha
  | cons b as ih =>
    rw [uniteSides_cons]
    have hmem' : ∀ a ∈ as, a.lhs ∈ ts ∧ a.rhs ∈ ts := fun a ha => hmem a (List.mem_cons_of_mem _ ha)
    rcases List.mem_cons.mp ha with rfl | ha
    · rw [if_pos heq]
      obtain ⟨hl, hr⟩ := hmem a List.mem_cons_self
      obtain ⟨i, j, hi, hj, hunite⟩ := exists_unite hl hr f
      have hkeep := uniteSides_induction (P := fun root => root i = root j) hmem'
        (fun _ _ _ g k l _ _ h => root_union_eq h k l) (unite ts a.lhs a.rhs f).2
      refine ⟨i, j, hi, hj, hkeep ?_⟩
      rw [hunite]
      exact f.root_union_self i j
    · exact ih hmem' ha _

/-! ### Rounds -/

/-- A round that unites nothing has met no reads of the same place that are apart. -/
theorem of_mergeAll_eq_false {l : List (Fin ts.length × Fin ts.length)} {changed : Bool} {f : Forest ts.length}
    (h : (mergeAll ts l changed f).1 = false) : changed = false ∧ (mergeAll ts l changed f).2.root = f.root ∧
      ∀ p ∈ l, congruentBy ts f.root (ts.get p.1) (ts.get p.2) = true → f.root p.1 = f.root p.2 := by
  induction l generalizing f changed with
  | nil => exact ⟨h, rfl, by simp⟩
  | cons p l ih =>
    rw [mergeAll_cons] at h ⊢
    obtain ⟨hnone, hroot, hrest⟩ := ih h
    rw [Bool.or_eq_false_iff] at hnone
    obtain ⟨g, hg, hmerge⟩ := merge_eq ts f p.1 p.2
    by_cases hc : f.root p.1 ≠ f.root p.2 ∧ congruentBy ts f.root (ts.get p.1) (ts.get p.2) = true
    · rw [hmerge, if_pos hc, union_fst, hg, decide_eq_true hc.1] at hnone
      cases hnone.1
    · rw [hmerge, if_neg hc] at hroot hrest ⊢
      dsimp only at hroot hrest ⊢
      rw [hg] at hroot hrest
      refine ⟨hnone.2, hroot, ?_⟩
      intro q hq hcongr
      rcases List.mem_cons.mp hq with rfl | hq
      · by_contra hne
        exact hc ⟨hne, hcongr⟩
      · exact hrest q hq hcongr

/-- Rounds that unite something, one after the other. -/
inductive Rounds (ts : List Term) : Nat → Forest ts.length → Forest ts.length → Prop where
  | none (f : Forest ts.length) : Rounds ts 0 f f
  | more {k : Nat} {f g : Forest ts.length} (h : (round ts f).1 = true) (hrest : Rounds ts k (round ts f).2 g) :
      Rounds ts (k + 1) f g

/-- Closing is going on with rounds until one unites nothing. -/
theorem exists_rounds (ts : List Term) (f : Forest ts.length) :
    ∃ k g, Rounds ts k f g ∧ (round ts g).1 = false ∧ close ts f = (round ts g).2 := by
  induction f using close.induct ts with
  | case1 f r hr ih =>
    obtain ⟨k, g, hrounds, hlast, hclose⟩ := ih
    refine ⟨k + 1, g, .more hr hrounds, hlast, ?_⟩
    rw [close, if_pos hr]
    exact hclose
  | case2 f r hr =>
    refine ⟨0, f, .none f, Bool.eq_false_iff.mpr hr, ?_⟩
    rw [close, if_neg hr]

/-- In the end, reads of the same place are under one root. -/
theorem root_close_eq (f : Forest ts.length) (hn : ts.Nodup) {i j : Fin ts.length}
    (h : SamePlace (fun u v => u = v ∨ Joined (close ts f).root u v) (ts.get i) (ts.get j)) :
    (close ts f).root i = (close ts f).root j := by
  obtain ⟨-, g, -, hround, hclose⟩ := exists_rounds ts f
  obtain ⟨-, hroot, hpairs⟩ := of_mergeAll_eq_false hround
  have hroot' : (close ts f).root = g.root := by
    rw [hclose]
    exact hroot
  rw [hroot'] at h ⊢
  by_cases hij : i = j
  · rw [hij]
  · rcases mem_pairs (List.mem_finRange i) (List.mem_finRange j) hij with hp | hp
    · exact hpairs _ hp ((congruentBy_iff hn).mpr h)
    · exact (hpairs _ hp ((congruentBy_iff hn).mpr (h.symm fun hst => hst.imp Eq.symm Joined.symm))).symm

end Closure

/-! ### The least congruence -/

/-- An equivalence of terms that holds between the sides of the equalities, and between reads of equal places. -/
structure Congruence (as : List Atom) (r : Term → Term → Prop) : Prop where
  equivalence : Equivalence r
  sides : ∀ a ∈ as, a.relation = .eq → r a.lhs a.rhs
  field : ∀ {b c : Term} {f : Field}, .field b f ∈ termsOf as → .field c f ∈ termsOf as → r b c →
    r (.field b f) (.field c f)
  element : ∀ {a b i j : Term} {s t : Ty}, .element a i s ∈ termsOf as → .element b j t ∈ termsOf as → r a b → r i j →
    r (.element a i s) (.element b j t)
  length : ∀ {a b : Term}, .length a ∈ termsOf as → .length b ∈ termsOf as → r a b → r (.length a) (.length b)

/-- The least equivalence of the terms of a conjunction that relates the sides of each equality, and reads of related
places. -/
inductive Congruent (as : List Atom) : Term → Term → Prop where
  | refl {t : Term} (ht : t ∈ termsOf as) : Congruent as t t
  | symm {s t : Term} (h : Congruent as s t) : Congruent as t s
  | trans {r s t : Term} (h : Congruent as r s) (h' : Congruent as s t) : Congruent as r t
  | sides {a : Atom} (ha : a ∈ as) (he : a.relation = .eq) : Congruent as a.lhs a.rhs
  | field {b c : Term} {f : Field} (hb : .field b f ∈ termsOf as) (hc : .field c f ∈ termsOf as)
      (h : Congruent as b c) : Congruent as (.field b f) (.field c f)
  | element {a b i j : Term} {s t : Ty} (ha : .element a i s ∈ termsOf as) (hb : .element b j t ∈ termsOf as)
      (h : Congruent as a b) (h' : Congruent as i j) : Congruent as (.element a i s) (.element b j t)
  | length {a b : Term} (ha : .length a ∈ termsOf as) (hb : .length b ∈ termsOf as) (h : Congruent as a b) :
      Congruent as (.length a) (.length b)

theorem nodup_termsOf (as : List Atom) : (termsOf as).Nodup := nodup_eraseDups _

namespace Congruence

variable {as : List Atom} {r : Term → Term → Prop} (hr : Congruence as r)

include hr

theorem of_samePlace {s t : Term} (hs : s ∈ termsOf as) (ht : t ∈ termsOf as) (h : SamePlace r s t) : r s t := by
  cases h with
  | field h => exact hr.field hs ht h
  | element h h' => exact hr.element hs ht h h'
  | length h => exact hr.length hs ht h

theorem of_root_eq {i j : Fin (termsOf as).length} (h : (Closure.ofAtoms as).root i = (Closure.ofAtoms as).root j) :
    r ((termsOf as).get i) ((termsOf as).get j) := by
  have hequiv : Equivalence fun i j => r ((termsOf as).get i) ((termsOf as).get j) :=
    ⟨fun i => hr.equivalence.refl _, hr.equivalence.symm, hr.equivalence.trans⟩
  refine Closure.ofAtoms_induction
    (P := fun root => ∀ i j, root i = root j → r ((termsOf as).get i) ((termsOf as).get j)) ?_ ?_ ?_ i j h
  · rintro i j rfl
    exact hr.equivalence.refl _
  · intro a ha heq f i j hi hj hf k l hkl
    have hij : r ((termsOf as).get i) ((termsOf as).get j) := by
      rw [hi, hj]
      exact hr.sides a ha heq
    exact Forest.of_root_union_eq hequiv hf hij hkl
  · intro f i j hcongr hf k l hkl
    have hjoined : ∀ {u v : Term}, u = v ∨ Closure.Joined f.root u v → r u v := by
      rintro u v (rfl | ⟨p, q, rfl, rfl, hpq⟩)
      · exact hr.equivalence.refl u
      · exact hf p q hpq
    have hplace := ((Closure.congruentBy_iff (nodup_termsOf as)).mp hcongr).mono hjoined
    exact Forest.of_root_union_eq hequiv hf (hr.of_samePlace (List.get_mem _ i) (List.get_mem _ j) hplace) hkl

end Congruence

namespace Congruent

variable {as : List Atom}

theorem left_mem {s t : Term} (h : Congruent as s t) : s ∈ termsOf as := by
  have hboth : s ∈ termsOf as ∧ t ∈ termsOf as := by
    induction h with
    | refl ht => exact ⟨ht, ht⟩
    | symm _ ih => exact ⟨ih.2, ih.1⟩
    | trans _ _ ih ih' => exact ⟨ih.1, ih'.2⟩
    | sides ha _ => exact ⟨lhs_mem_termsOf ha, rhs_mem_termsOf ha⟩
    | field hb hc _ _ => exact ⟨hb, hc⟩
    | element ha hb _ _ _ _ => exact ⟨ha, hb⟩
    | length ha hb _ _ => exact ⟨ha, hb⟩
  exact hboth.1

-- A congruence is reflexive everywhere, the relation only on the terms of the conjunction.
theorem congruence (as : List Atom) : Congruence as fun s t => s = t ∨ Congruent as s t := by
  have htrans : ∀ {r s t : Term}, r = s ∨ Congruent as r s → s = t ∨ Congruent as s t → r = t ∨ Congruent as r t := by
    intro r s t hrs hst
    rcases hrs with rfl | hrs
    · exact hst
    · rcases hst with rfl | hst
      · exact Or.inr hrs
      · exact Or.inr (hrs.trans hst)
  have hsymm : ∀ {s t : Term}, s = t ∨ Congruent as s t → t = s ∨ Congruent as t s :=
    fun h => h.imp Eq.symm Congruent.symm
  refine ⟨⟨fun _ => Or.inl rfl, hsymm, htrans⟩, fun a ha he => Or.inr (sides ha he), ?_, ?_, ?_⟩
  · intro b c f hb hc h
    rcases h with rfl | h
    · exact Or.inl rfl
    · exact Or.inr (field hb hc h)
  · intro a b i j s t ha hb h h'
    have harray : Congruent as a b := by
      rcases h with rfl | h
      · exact refl (part_mem_termsOf ha List.mem_cons_self)
      · exact h
    have hindex : Congruent as i j := by
      rcases h' with rfl | h'
      · exact refl (part_mem_termsOf ha (List.mem_cons_of_mem _ List.mem_cons_self))
      · exact h'
    exact Or.inr (element ha hb harray hindex)
  · intro a b ha hb h
    rcases h with rfl | h
    · exact Or.inl rfl
    · exact Or.inr (length ha hb h)

end Congruent

namespace Closure

theorem Joined.trans {ts : List Term} (hn : ts.Nodup) {root : Fin ts.length → Fin ts.length} {r s t : Term}
    (h : Joined root r s) (h' : Joined root s t) : Joined root r t := by
  obtain ⟨i, j, hi, hj, hij⟩ := h
  obtain ⟨k, l, hk, hl, hkl⟩ := h'
  have hjk : j = k := hn.get_inj_iff.mp (hj.trans hk.symm)
  exact ⟨i, l, hi, hl, hij.trans (hjk ▸ hkl)⟩

theorem joined_of_samePlace {as : List Atom} {s t : Term} (hs : s ∈ termsOf as) (ht : t ∈ termsOf as)
    (h : SamePlace (Joined (ofAtoms as).root) s t) : Joined (ofAtoms as).root s t := by
  obtain ⟨i, rfl⟩ := List.get_of_mem hs
  obtain ⟨j, rfl⟩ := List.get_of_mem ht
  exact ⟨i, j, rfl, rfl, root_close_eq _ (nodup_termsOf as) (h.mono Or.inr)⟩

/-- The terms under one root are those that are congruent. -/
theorem joined_iff_congruent {as : List Atom} {s t : Term} : Joined (ofAtoms as).root s t ↔ Congruent as s t := by
  constructor
  · rintro ⟨i, j, rfl, rfl, hij⟩
    rcases (Congruent.congruence as).of_root_eq hij with heq | h
    · rw [heq]
      exact .refl (List.get_mem _ j)
    · exact h
  · intro h
    induction h with
    | refl ht =>
      obtain ⟨i, rfl⟩ := List.get_of_mem ht
      exact ⟨i, i, rfl, rfl, rfl⟩
    | symm _ ih => exact ih.symm
    | trans _ _ ih ih' => exact ih.trans (nodup_termsOf as) ih'
    | sides ha he =>
      obtain ⟨i, j, hi, hj, hij⟩ := root_uniteSides (fun b hb => ⟨lhs_mem_termsOf hb, rhs_mem_termsOf hb⟩) ha he
        (Forest.discrete (termsOf as).length)
      exact ⟨i, j, hi, hj, close_induction (P := fun root => root i = root j)
        (fun f k l _ h => Forest.root_union_eq h k l) _ hij⟩
    | field hb hc _ ih => exact joined_of_samePlace hb hc (.field ih)
    | element ha hb _ _ ih ih' => exact joined_of_samePlace ha hb (.element ih ih')
    | length ha hb _ ih => exact joined_of_samePlace ha hb (.length ih)

end Closure

/-! ### Classes -/

namespace Classes

theorem mem_members_iff {as : List Atom} {t : Term} {l : Nat} : (t, l) ∈ (ofAtoms as).members ↔
    ∃ i : Fin (termsOf as).length, (termsOf as).get i = t ∧ ((Closure.ofAtoms as).root i).val = l := by
  rw [ofAtoms, members_ofForest, List.mem_map]
  simp only [List.mem_finRange, true_and, Prod.mk.injEq]

/-- Two terms of one class. -/
def Same (c : Classes) (s t : Term) : Prop := ∃ l, c.label? s = some l ∧ c.label? t = some l

theorem same_iff_joined {as : List Atom} {s t : Term} :
    (ofAtoms as).Same s t ↔ Closure.Joined (Closure.ofAtoms as).root s t := by
  simp only [Same, label?_eq_some_iff, mem_members_iff]
  constructor
  · rintro ⟨l, ⟨i, hi, hil⟩, ⟨j, hj, hjl⟩⟩
    exact ⟨i, j, hi, hj, Fin.ext (hil.trans hjl.symm)⟩
  · rintro ⟨i, j, hi, hj, hij⟩
    exact ⟨_, ⟨i, hi, rfl⟩, ⟨j, hj, by rw [hij]⟩⟩

theorem same_iff_congruent {as : List Atom} {s t : Term} : (ofAtoms as).Same s t ↔ Congruent as s t :=
  same_iff_joined.trans Closure.joined_iff_congruent

theorem same_of_eq {as : List Atom} {a : Atom} (ha : a ∈ as) (he : a.relation = .eq) :
    (ofAtoms as).Same a.lhs a.rhs :=
  same_iff_congruent.mpr (.sides ha he)

end Classes

/-- Terms of one class are equal in every congruence. -/
theorem Congruence.of_same {as : List Atom} {r : Term → Term → Prop} (hr : Congruence as r) {s t : Term}
    (h : (Classes.ofAtoms as).Same s t) : r s t := by
  obtain ⟨i, j, rfl, rfl, hij⟩ := Classes.same_iff_joined.mp h
  exact hr.of_root_eq hij

end Symex.Solver
