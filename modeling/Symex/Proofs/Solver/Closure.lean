import Mathlib.Order.Bounds.Basic
import Symex.Proofs.Solver.Congruence

/-!
# The classes are the congruence closure

Closing a forest of terms is a number of rounds that unite something, at most as many as there are terms, and one that
does not. Two terms are under one root then exactly if they are congruent, and the root is the first term of its class.
-/

namespace Symex.Solver

namespace Closure

open Forest

theorem Rounds.length_roots {ts : List Term} {k : Nat} {f g : Forest ts.length} (h : Rounds ts k f g) :
    k + g.roots.length ≤ f.roots.length := by
  induction h with
  | none f => exact Nat.le_of_eq (Nat.zero_add _)
  | more h _ ih =>
    have hlt := length_roots_round ts h
    omega

theorem isLeast_root {n : Nat} (f : Forest n) (i : Fin n) : IsLeast {j | f.root i = f.root j} (f.root i) := by
  refine ⟨(f.root_root i).symm, ?_⟩
  intro j hj
  have hij : f.root i = f.root j := hj
  rw [hij]
  exact f.root_le j

/-- Two terms are found under one root exactly if they are congruent. -/
theorem find_eq_iff {as : List Atom} {i j : Fin (termsOf as).length} :
    (find i (ofAtoms as)).1 = (find j (ofAtoms as)).1 ↔
      Congruent as ((termsOf as).get i) ((termsOf as).get j) := by
  rw [(find_spec _ i).1, (find_spec _ j).1, ← joined_iff_congruent]
  constructor
  · exact fun h => ⟨i, j, rfl, rfl, h⟩
  · rintro ⟨k, l, hk, hl, hkl⟩
    rw [← (nodup_termsOf as).get_inj_iff.mp hk, ← (nodup_termsOf as).get_inj_iff.mp hl]
    exact hkl

end Closure

namespace Classes

theorem isLeast_of_label {as : List Atom} {t : Term} {l : Nat} (h : (ofAtoms as).label? t = some l) :
    IsLeast {i | ∃ u, (termsOf as)[i]? = some u ∧ Congruent as t u} l := by
  obtain ⟨i, rfl, rfl⟩ := mem_members_iff.mp (label?_eq_some_iff.mp h)
  obtain ⟨hself, hleast⟩ := Closure.isLeast_root (Closure.ofAtoms as) i
  constructor
  · refine ⟨(termsOf as).get ((Closure.ofAtoms as).root i), by simp, ?_⟩
    exact Closure.joined_iff_congruent.mp ⟨i, _, rfl, rfl, hself⟩
  · rintro k ⟨u, hu, hcongr⟩
    obtain ⟨p, q, hp, hq, hpq⟩ := Closure.joined_iff_congruent.mpr hcongr
    obtain ⟨hk, hku⟩ := List.getElem?_eq_some_iff.mp hu
    have hpi : p = i := (nodup_termsOf as).get_inj_iff.mp hp
    have hqk : q = ⟨k, hk⟩ := (nodup_termsOf as).get_inj_iff.mp (hq.trans hku.symm)
    subst hpi hqk
    exact hleast hpq

theorem label?_eq_some_iff_isLeast {as : List Atom} {t : Term} {l : Nat} : (ofAtoms as).label? t = some l ↔
    IsLeast {i | ∃ u, (termsOf as)[i]? = some u ∧ Congruent as t u} l := by
  constructor
  · exact isLeast_of_label
  · intro h
    obtain ⟨u, -, hcongr⟩ := h.1
    obtain ⟨k, hk⟩ := exists_label hcongr.left_mem
    rw [hk, (isLeast_of_label hk).unique h]

/-- Closing ends: after at most as many rounds as there are terms, each of which unites something, a round unites
nothing, and it is the last. Two terms are then found under one root exactly if they are congruent, and so they are in
one class; and the number of a term's class is the position of the first term that is congruent to it. -/
theorem ofAtoms_congruence_closure (as : List Atom) :
    (∃ k ≤ (termsOf as).length, ∃ f,
      Closure.Rounds (termsOf as) k (Closure.uniteSides (termsOf as) as (Forest.discrete _)).2 f ∧
        (Closure.round (termsOf as) f).1 = false ∧ Closure.ofAtoms as = (Closure.round (termsOf as) f).2) ∧
      (∀ i j, (Forest.find i (Closure.ofAtoms as)).1 = (Forest.find j (Closure.ofAtoms as)).1 ↔
        Congruent as ((termsOf as).get i) ((termsOf as).get j)) ∧
      (∀ s t, (ofAtoms as).Same s t ↔ Congruent as s t) ∧
      ∀ t l, (ofAtoms as).label? t = some l ↔
        IsLeast {i | ∃ u, (termsOf as)[i]? = some u ∧ Congruent as t u} l := by
  refine ⟨?_, fun i j => Closure.find_eq_iff, fun s t => same_iff_congruent, fun t l => label?_eq_some_iff_isLeast⟩
  obtain ⟨k, f, hrounds, hlast, hclose⟩ :=
    Closure.exists_rounds (termsOf as) (Closure.uniteSides (termsOf as) as (Forest.discrete _)).2
  refine ⟨k, ?_, f, hrounds, hlast, hclose⟩
  have hfewer := hrounds.length_roots
  have hroots := Forest.length_roots_le (Closure.uniteSides (termsOf as) as (Forest.discrete _)).2
  omega

-- A list that is back at its start after two links and after three is there after one.
example :
    let x : Term := .param "x" (.object "Node")
    let next (t : Term) : Term := .field t ⟨"Node", "next", .object "Node"⟩
    let c := ofAtoms [.eq (next (next x)) x, .eq (next (next (next x))) x]
    c.label? (next x) = c.label? x ∧ c.labels = [0] := by
  decide +kernel

end Classes

end Symex.Solver
