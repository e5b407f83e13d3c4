import Symex.Data.Forest
import Symex.Term.Atom

/-!
# Congruence closure

The terms of a conjunction stand in a forest. The sides of its equalities are united, and then reads of the same place:
reads of the same field on united bases, reads of united arrays at united indices, and lengths of united arrays. All
pairs of terms are gone through in rounds, and a union counts at once for the pairs after it. A round that unites
nothing is the last. Each round before it leaves fewer classes, so the rounds end.
-/

namespace Symex.Solver

/-- The terms of a list of atoms, each once, in the order of their first occurrence. -/
def termsOf (as : List Atom) : List Term := (as.flatMap Atom.terms).eraseDups

@[simp] theorem mem_termsOf {as : List Atom} {t : Term} : t ∈ termsOf as ↔ ∃ a ∈ as, t ∈ a.terms := by
  simp [termsOf]

/-- The pairs of elements of a list, an earlier one with a later one. -/
def pairs {α : Type} : List α → List (α × α)
  | [] => []
  | a :: l => l.map (fun b => (a, b)) ++ pairs l

namespace Closure

open Forest

variable (ts : List Term)

/-- Whether two terms are united. A term that does not occur is by itself. -/
def same (s t : Term) : StateM (Forest ts.length) Bool :=
  match ts.finIdxOf? s, ts.finIdxOf? t with
  | some i, some j => joined i j
  | _, _ => return decide (s = t)

/-- Whether two terms are reads of the same place. -/
def congruent : Term → Term → StateM (Forest ts.length) Bool
  | .field b f, .field c g => if f = g then same ts b c else return false
  | .element a i _, .element b j _ => do if ← same ts a b then same ts i j else return false
  | .length a, .length b => same ts a b
  | _, _ => return false

/-- Unites two terms if they are reads of the same place; whether they were not united before. -/
def merge (i j : Fin ts.length) : StateM (Forest ts.length) Bool := do
  if ← joined i j then return false
  else if ← congruent ts (ts.get i) (ts.get j) then union i j
  else return false

/-- Goes through pairs of terms; whether something was united, or was before. -/
def mergeAll (l : List (Fin ts.length × Fin ts.length)) (changed : Bool) : StateM (Forest ts.length) Bool :=
  l.foldlM (fun changed p => return (← merge ts p.1 p.2) || changed) changed

/-- One round over all pairs of terms; whether something was united. -/
def round : StateM (Forest ts.length) Bool := mergeAll ts (pairs (List.finRange ts.length)) false

/-- Unites two terms, if both occur. -/
def unite (s t : Term) : StateM (Forest ts.length) Unit :=
  match ts.finIdxOf? s, ts.finIdxOf? t with
  | some i, some j => discard (union i j)
  | _, _ => return

/-- Unites the sides of the equalities. -/
def uniteSides (as : List Atom) : StateM (Forest ts.length) Unit :=
  as.forM fun a => if a.relation = .eq then unite ts a.lhs a.rhs else return

/-! ### What a round does -/

/-- Whether two terms are united, by the roots. -/
def sameBy (root : Fin ts.length → Fin ts.length) (s t : Term) : Bool :=
  match ts.finIdxOf? s, ts.finIdxOf? t with
  | some i, some j => root i = root j
  | _, _ => s = t

/-- Whether two terms are reads of the same place, by the roots. -/
def congruentBy (root : Fin ts.length → Fin ts.length) : Term → Term → Bool
  | .field b f, .field c g => f = g && sameBy ts root b c
  | .element a i _, .element b j _ => sameBy ts root a b && sameBy ts root i j
  | .length a, .length b => sameBy ts root a b
  | _, _ => false

theorem asks_same (s t : Term) : Asks (same ts s t) fun root => sameBy ts root s t := by
  unfold same sameBy
  split
  next i j _ _ => exact .joined i j
  next => exact .pure _

theorem asks_congruent (s t : Term) : Asks (congruent ts s t) fun root => congruentBy ts root s t := by
  unfold congruent congruentBy
  split
  next b f c g =>
    by_cases h : f = g
    · simpa [h] using asks_same ts b c
    · simpa [h] using Asks.pure false
  next a i _ b j _ => exact (asks_same ts a b).and (asks_same ts i j)
  next a b => exact asks_same ts a b
  next => exact .pure false

/-- Two terms are united if they are reads of the same place and were not united. -/
theorem merge_eq (f : Forest ts.length) (i j : Fin ts.length) : ∃ g : Forest ts.length, g.root = f.root ∧
    merge ts i j f = if f.root i ≠ f.root j ∧ congruentBy ts f.root (ts.get i) (ts.get j) = true then union i j g
      else (false, g) := by
  obtain ⟨g, hg, hjoined⟩ := (Asks.joined i j).branch (pure false)
    (do if ← congruent ts (ts.get i) (ts.get j) then union i j else return false) f
  by_cases hroot : f.root i = f.root j
  · refine ⟨g, hg, hjoined.trans ?_⟩
    rw [if_pos (decide_eq_true hroot), if_neg fun h => h.1 hroot]
    rfl
  · obtain ⟨e, he, hcongr⟩ := (asks_congruent ts (ts.get i) (ts.get j)).branch (union i j) (pure false) g
    refine ⟨e, he.trans hg, hjoined.trans ?_⟩
    rw [if_neg (by simpa using hroot), hcongr, hg]
    by_cases hc : congruentBy ts f.root (ts.get i) (ts.get j) = true
    · rw [if_pos hc, if_pos ⟨hroot, hc⟩]
    · rw [if_neg hc, if_neg fun h => hc h.2]
      rfl

theorem mergeAll_cons (f : Forest ts.length) (p : Fin ts.length × Fin ts.length)
    (l : List (Fin ts.length × Fin ts.length)) (changed : Bool) : mergeAll ts (p :: l) changed f =
      mergeAll ts l ((merge ts p.1 p.2 f).1 || changed) (merge ts p.1 p.2 f).2 := rfl

/-- What is united leaves fewer classes. -/
theorem length_roots_mergeAll (f : Forest ts.length) (l : List (Fin ts.length × Fin ts.length)) (changed : Bool) :
    (mergeAll ts l changed f).2.roots.length ≤ f.roots.length ∧
      ((mergeAll ts l changed f).1 = true → changed = true ∨
        (mergeAll ts l changed f).2.roots.length < f.roots.length) := by
  induction l generalizing f changed with
  | nil => exact ⟨Nat.le_refl _, Or.inl⟩
  | cons p l ih =>
    obtain ⟨hle, hlt⟩ := ih (merge ts p.1 p.2 f).2 ((merge ts p.1 p.2 f).1 || changed)
    rw [mergeAll_cons]
    have hmerge : (merge ts p.1 p.2 f).2.roots.length ≤ f.roots.length ∧
        ((merge ts p.1 p.2 f).1 = true → (merge ts p.1 p.2 f).2.roots.length < f.roots.length) := by
      obtain ⟨g, hg, h⟩ := merge_eq ts f p.1 p.2
      rw [h, ← roots_congr hg]
      split
      next hu =>
        have hu' : (union p.1 p.2 g).1 = true := by
          rw [union_fst, hg]
          exact decide_eq_true hu.1
        exact ⟨Nat.le_of_lt (length_roots_union_lt hu'), fun _ => length_roots_union_lt hu'⟩
      next => exact ⟨Nat.le_refl _, fun h => absurd h Bool.false_ne_true⟩
    refine ⟨Nat.le_trans hle hmerge.1, fun h => ?_⟩
    rcases hlt h with hor | hlt
    · rcases Bool.or_eq_true_iff.mp hor with hnow | hbefore
      · exact Or.inr (Nat.lt_of_le_of_lt hle (hmerge.2 hnow))
      · exact Or.inl hbefore
    · exact Or.inr (Nat.lt_of_lt_of_le hlt hmerge.1)

theorem length_roots_round {f : Forest ts.length} (h : (round ts f).1 = true) :
    (round ts f).2.roots.length < f.roots.length :=
  ((length_roots_mergeAll ts f _ false).2 h).resolve_left Bool.false_ne_true

/-- Rounds until one unites nothing. -/
def close (f : Forest ts.length) : Forest ts.length :=
  let r := round ts f
  if r.1 then close r.2 else r.2
termination_by f.roots.length
decreasing_by exact length_roots_round ts (by assumption)

/-- The forest of the terms of a conjunction. -/
def ofAtoms (as : List Atom) : Forest (termsOf as).length :=
  close (termsOf as) (uniteSides (termsOf as) as (discrete _)).2

end Closure

end Symex.Solver
