import Symex.Data.Take

/-!
# Walks down the fork tree

A walk starts with all candidates at the root of the fork tree and draws a branch at every level, until one
candidate is left. Candidates that end at a node form a branch of their own, which comes before the others.
Candidates that cannot be told apart are drawn from directly. Every other level makes the longest trail shorter, also
one where all candidates take the same branch, so that a walk comes to its end.
-/

namespace Symex

/-- A candidate of a walk: its position, and the branches it takes from here on. -/
structure Candidate where
  position : Nat
  trail : List Nat
  deriving DecidableEq, Inhabited

namespace Walk

/-- Inserts a branch into a list in order, unless it is there. -/
def insertBranch (b : Option Nat) : List (Option Nat) → List (Option Nat)
  | [] => [b]
  | c :: cs =>
    if b = c then c :: cs
    else
      match b, c with
      | none, _ => b :: c :: cs
      | some _, none => c :: insertBranch b cs
      | some x, some y => if x < y then b :: c :: cs else c :: insertBranch b cs

/-- The branches that the candidates take at this node, in order; `none` for those that end here. -/
def branches (cs : List Candidate) : List (Option Nat) :=
  cs.foldr (fun c bs => insertBranch c.trail.head? bs) []

/-- The candidates that take a branch, one level further down. -/
def follow (b : Option Nat) (cs : List Candidate) : List Candidate :=
  (cs.filter (·.trail.head? = b)).map fun c => { c with trail := c.trail.tail }

/-- The length of the longest trail. -/
def longest (cs : List Candidate) : Nat := cs.foldr (fun c n => max c.trail.length n) 0

theorem length_le_longest {cs : List Candidate} {c : Candidate} (h : c ∈ cs) : c.trail.length ≤ longest cs := by
  induction cs with
  | nil => cases h
  | cons d cs ih =>
    rw [longest, List.foldr_cons]
    rcases List.mem_cons.mp h with rfl | h
    · exact Nat.le_max_left _ _
    · exact Nat.le_trans (ih h) (Nat.le_max_right _ _)

theorem longest_lt {cs : List Candidate} {n : Nat} (hn : 0 < n) (h : ∀ c ∈ cs, c.trail.length < n) :
    longest cs < n := by
  induction cs with
  | nil => exact hn
  | cons c cs ih =>
    rw [longest, List.foldr_cons]
    exact Nat.max_lt.mpr ⟨h c List.mem_cons_self, ih fun d hd => h d (List.mem_cons_of_mem _ hd)⟩

theorem branches_of_ended {cs : List Candidate} (hne : cs ≠ []) (h : ∀ c ∈ cs, c.trail = []) :
    branches cs = [none] := by
  induction cs with
  | nil => exact absurd rfl hne
  | cons c cs ih =>
    have hc : c.trail.head? = none := by rw [h c List.mem_cons_self]; rfl
    rw [branches, List.foldr_cons, hc]
    by_cases hcs : cs = []
    · rw [hcs]
      rfl
    · have hrest : cs.foldr (fun c bs => insertBranch c.trail.head? bs) [] = [none] :=
        ih hcs fun d hd => h d (List.mem_cons_of_mem _ hd)
      rw [hrest]
      rfl

theorem longest_pos {cs : List Candidate} (hne : cs ≠ []) (h : branches cs ≠ [none]) : 0 < longest cs := by
  apply Nat.pos_of_ne_zero
  intro hzero
  apply h
  apply branches_of_ended hne
  intro c hc
  have hlen := length_le_longest hc
  rw [hzero] at hlen
  exact List.length_eq_zero_iff.mp (Nat.le_zero.mp hlen)

theorem longest_follow_lt {cs : List Candidate} (hne : cs ≠ []) (h : branches cs ≠ [none]) (b : Option Nat) :
    longest (follow b cs) < longest cs := by
  have hpos := longest_pos hne h
  apply longest_lt hpos
  intro d hd
  obtain ⟨c, hc, rfl⟩ := List.mem_map.mp hd
  have hlen := length_le_longest (List.mem_filter.mp hc).1
  rw [List.length_tail]
  omega

/-- Walks down until one candidate is left. The draws are made by `choose`, which returns a position below the number
that it is given. -/
def descend {σ : Type} (choose : Nat → σ → Nat × σ) (cs : List Candidate) (t : σ) : Option Nat × σ :=
  if cs.length ≤ 1 then (cs.head?.map (·.position), t)
  else
    let bs := branches cs
    if bs = [none] then
      let (k, t) := choose cs.length t
      (cs[k]?.map (·.position), t)
    else
      let (k, t) := choose bs.length t
      descend choose (follow (bs.getD k none) cs) t
termination_by longest cs
decreasing_by
  rename_i hfew hended
  have hne : cs ≠ [] := by
    rintro rfl
    exact hfew (Nat.zero_le 1)
  exact longest_follow_lt hne hended _

/-- Draws the position of one of the given trails. -/
def position {σ : Type} (choose : Nat → σ → Nat × σ) (trails : List (List Nat)) (t : σ) : Option Nat × σ :=
  descend choose (trails.mapIdx fun i trail => ⟨i, trail⟩) t

/-- Takes the element out of a list at which a walk along the trails of all ends. -/
def take {α σ : Type} (choose : Nat → σ → Nat × σ) (trail : α → List Nat) (as : List α) (t : σ) :
    Option (α × List α) × σ :=
  let (k, t) := position choose (as.map trail) t
  (k.bind fun k => takeAt k as, t)

end Walk

end Symex
