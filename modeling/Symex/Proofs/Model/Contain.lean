import Mathlib.Data.Fintype.Card
import Mathlib.Logic.Relation
import Symex.Model.Store

/-!
# Containment

A container contains its length, its keys and its values. If no container contains itself, over however many levels,
then a walk from the outside in ends, at models that are no containers: the leaves.
-/

namespace Symex.Store

/-- `k` is the length, a key or a value of the container at `h`. -/
def Contains (s : Store) (h k : Handle) : Prop :=
  ∃ kind c, s.get? h = some (.container kind c) ∧ k ∈ (Model.container kind c).children

/-- No container is inside itself. -/
def Acyclic (s : Store) : Prop := ∀ h, ¬ Relation.TransGen s.Contains h h

/-- The length of every container is a primitive, of a primitive type. -/
def PrimitiveLengths (s : Store) : Prop :=
  ∀ {h : Handle} {k : ContainerKind} {c : Container}, s.get? h = some (.container k c) →
    ∃ t v as, s.get? c.length = some (.primitive t v as) ∧ t.isPrimitive = true

theorem acyclic_of_index_lt {s : Store} (h : ∀ a b, s.Contains a b → a.index < b.index) : s.Acyclic := by
  have htrans : ∀ {a b}, Relation.TransGen s.Contains a b → a.index < b.index := by
    intro a b hab
    induction hab with
    | single hc => exact h _ _ hc
    | tail _ hc ih => exact ih.trans (h _ _ hc)
  exact fun a ha => Nat.lt_irrefl _ (htrans ha)

theorem Contains.lt {s : Store} {h k : Handle} (hc : s.Contains h k) : h.index < s.size := by
  obtain ⟨kind, c, hm, _⟩ := hc
  exact lt_size_of_get? hm

open Classical in
/-- The number of containers at and inside a handle. -/
noncomputable def rank (s : Store) (h : Handle) : Nat :=
  (Finset.univ.filter fun i : Fin s.size => Relation.ReflTransGen s.Contains h ⟨i⟩ ∧ ∃ k, s.Contains ⟨i⟩ k).card

theorem rank_le (s : Store) (h : Handle) : s.rank h ≤ s.size := by
  refine (Finset.card_le_univ _).trans ?_
  rw [Fintype.card_fin]

theorem rank_lt {s : Store} (ha : s.Acyclic) {h k : Handle} (hc : s.Contains h k) : s.rank k < s.rank h := by
  classical
  apply Finset.card_lt_card
  rw [Finset.ssubset_iff_of_subset]
  · refine ⟨⟨h.index, hc.lt⟩, ?_, ?_⟩
    · simp only [Finset.mem_filter, Finset.mem_univ, true_and]
      exact ⟨.refl, k, hc⟩
    · simp only [Finset.mem_filter, Finset.mem_univ, true_and]
      rintro ⟨hr, -⟩
      -- The container would be inside itself.
      exact ha h (Relation.TransGen.head' hc hr)
  · intro i hi
    simp only [Finset.mem_filter, Finset.mem_univ, true_and] at hi ⊢
    exact ⟨.head hc hi.1, hi.2⟩

/-! ### Leaves -/

/-- The models at the ends of a walk of at most `n` steps into containers. -/
def leavesWithin (s : Store) : Nat → Handle → List Handle
  | 0, _ => []
  | n + 1, h =>
    match s.get? h with
    | some (.container k c) => (Model.container k c).children.flatMap (s.leavesWithin n)
    | _ => [h]

/-- The models at and inside a handle that are no containers. -/
def leaves (s : Store) (h : Handle) : List Handle := s.leavesWithin (s.size + 1) h

theorem leavesWithin_eq {s : Store} (ha : s.Acyclic) {m n : Nat} {h : Handle} (hm : s.rank h < m)
    (hn : s.rank h < n) : s.leavesWithin m h = s.leavesWithin n h := by
  induction m generalizing n h with
  | zero => exact absurd hm (Nat.not_lt_zero _)
  | succ m ih =>
    cases n with
    | zero => exact absurd hn (Nat.not_lt_zero _)
    | succ n =>
      rw [leavesWithin, leavesWithin]
      split
      next k c hg =>
        apply List.flatMap_congr
        intro x hx
        have hlt := rank_lt ha ⟨k, c, hg, hx⟩
        exact ih (by omega) (by omega)
      next => rfl

theorem leaves_container {s : Store} (ha : s.Acyclic) {h : Handle} {k : ContainerKind} {c : Container}
    (hg : s.get? h = some (.container k c)) :
    s.leaves h = (Model.container k c).children.flatMap s.leaves := by
  rw [leaves, leavesWithin, hg]
  apply List.flatMap_congr
  intro x hx
  have hlt := rank_lt ha ⟨k, c, hg, hx⟩
  have hle := s.rank_le h
  exact leavesWithin_eq ha (by omega) (by omega)

theorem leaves_of_not_container {s : Store} {h : Handle} (hg : ∀ k c, s.get? h ≠ some (.container k c)) :
    s.leaves h = [h] := by
  rw [leaves, leavesWithin]
  split
  next k c hc => exact absurd hc (hg k c)
  next => rfl

theorem mem_leavesWithin {s : Store} {n : Nat} {r h : Handle} (hh : h ∈ s.leavesWithin n r) :
    Relation.ReflTransGen s.Contains r h ∧ ∀ k c, s.get? h ≠ some (.container k c) := by
  induction n generalizing r with
  | zero => cases hh
  | succ n ih =>
    rw [leavesWithin] at hh
    split at hh
    next k c hg =>
      obtain ⟨x, hx, hhx⟩ := List.mem_flatMap.mp hh
      obtain ⟨hreach, hne⟩ := ih hhx
      exact ⟨.head ⟨k, c, hg, hx⟩ hreach, hne⟩
    next hne =>
      rw [List.mem_singleton.mp hh]
      exact ⟨.refl, hne⟩

theorem mem_leaves_iff {s : Store} (ha : s.Acyclic) {r h : Handle} :
    h ∈ s.leaves r ↔ Relation.ReflTransGen s.Contains r h ∧ ∀ k c, s.get? h ≠ some (.container k c) := by
  refine ⟨mem_leavesWithin, ?_⟩
  rintro ⟨hreach, hne⟩
  induction hreach using Relation.ReflTransGen.head_induction_on with
  | refl => simp [leaves_of_not_container hne]
  | head hc _ ih =>
    obtain ⟨k, c, hg, hx⟩ := hc
    rw [leaves_container ha hg]
    exact List.mem_flatMap.mpr ⟨_, hx, ih⟩

end Symex.Store
