/-!
# Forests

The positions below `n` in trees. Every position has a parent that does not stand after it, and a root is its own
parent; positions under one root are one class. Looking for a root points the positions on the way at their
grandparents, so that the way is shorter the next time. Two classes become one when the later of their roots is pointed
at the earlier one.

What a forest says is `root`: looking leaves it as it is, and a union changes it for the two classes alone.
-/

namespace Symex

/-- Positions with their parents. -/
structure Forest (n : Nat) where
  parents : Vector (Fin n) n
  parent_le : ∀ i : Fin n, parents[i] ≤ i

namespace Forest

variable {n : Nat}

def parent (f : Forest n) (i : Fin n) : Fin n := f.parents[i]

/-- Every position is a root. -/
def discrete (n : Nat) : Forest n where
  parents := Vector.ofFn id
  parent_le i := by simp

/-- Gives a position another parent. -/
def point (f : Forest n) (i j : Fin n) (h : j ≤ i) : Forest n where
  parents := f.parents.set i j
  parent_le k := by
    rw [Fin.getElem_fin, Vector.getElem_set]
    split
    next hik => exact Fin.ext hik ▸ h
    next => exact f.parent_le k

@[simp] theorem parent_discrete (i : Fin n) : (discrete n).parent i = i := by
  simp [parent, discrete]

theorem parent_point (f : Forest n) {i j : Fin n} (h : j ≤ i) (k : Fin n) :
    (f.point i j h).parent k = if k = i then j else f.parent k := by
  simp only [parent, point, Fin.getElem_fin, Vector.getElem_set, Fin.ext_iff, eq_comm]

theorem parent_lt {f : Forest n} {i : Fin n} (h : f.parent i ≠ i) : f.parent i < i :=
  Nat.lt_of_le_of_ne (f.parent_le i) (Fin.val_ne_of_ne h)

theorem grandparent_le (f : Forest n) (i : Fin n) : f.parent (f.parent i) ≤ i :=
  Nat.le_trans (f.parent_le (f.parent i)) (f.parent_le i)

theorem grandparent_lt {f : Forest n} {i : Fin n} (h : f.parent i ≠ i) : f.parent (f.parent i) < i :=
  Nat.lt_of_le_of_lt (f.parent_le (f.parent i)) (parent_lt h)

/-- Points a position at its grandparent. -/
def halve (f : Forest n) (i : Fin n) : Forest n := f.point i (f.parent (f.parent i)) (f.grandparent_le i)

/-- The root above a position, with shorter ways to it. -/
def find (i : Fin n) : StateM (Forest n) (Fin n) := fun f =>
  if f.parent i = i then (i, f) else find (f.parent (f.parent i)) (f.halve i)
termination_by i.val
decreasing_by exact grandparent_lt (by assumption)

/-- Whether two positions are in one class. -/
def joined (i j : Fin n) : StateM (Forest n) Bool := return decide ((← find i) = (← find j))

def earlier (i j : Fin n) : Fin n := if i ≤ j then i else j

def later (i j : Fin n) : Fin n := if i ≤ j then j else i

theorem earlier_later_cases (i j : Fin n) :
    earlier i j = i ∧ later i j = j ∧ i ≤ j ∨ earlier i j = j ∧ later i j = i ∧ j ≤ i := by
  unfold earlier later
  split
  next h => exact Or.inl ⟨rfl, rfl, h⟩
  next h => exact Or.inr ⟨rfl, rfl, Nat.le_of_not_le h⟩

theorem earlier_le_later (i j : Fin n) : earlier i j ≤ later i j := by
  rcases earlier_later_cases i j with ⟨he, hl, h⟩ | ⟨he, hl, h⟩
  · rw [he, hl]
    exact h
  · rw [he, hl]
    exact h

/-- Makes one class of two; whether they were two. -/
def union (i j : Fin n) : StateM (Forest n) Bool := do
  let a ← find i
  let b ← find j
  if a = b then return false
  modify fun f => f.point (later a b) (earlier a b) (earlier_le_later a b)
  return true

/-! ### Roots -/

/-- The root above a position. -/
def root (f : Forest n) (i : Fin n) : Fin n := if f.parent i = i then i else f.root (f.parent i)
termination_by i.val
decreasing_by exact parent_lt (by assumption)

theorem root_of_parent_eq {f : Forest n} {i : Fin n} (h : f.parent i = i) : f.root i = i := by
  rw [root, if_pos h]

@[simp] theorem root_parent (f : Forest n) (i : Fin n) : f.root (f.parent i) = f.root i := by
  by_cases h : f.parent i = i
  · rw [h]
  · have hstep : f.root i = f.root (f.parent i) := by rw [root, if_neg h]
    exact hstep.symm

@[simp] theorem root_discrete (i : Fin n) : (discrete n).root i = i :=
  root_of_parent_eq (parent_discrete i)

/-- What holds of the roots and goes over from parents to children holds of all positions. -/
theorem parent_induction {P : Fin n → Prop} (f : Forest n) (hroot : ∀ i, f.parent i = i → P i)
    (hchild : ∀ i, f.parent i ≠ i → P (f.parent i) → P i) (i : Fin n) : P i :=
  if h : f.parent i = i then hroot i h else hchild i h (parent_induction f hroot hchild (f.parent i))
termination_by i.val
decreasing_by exact parent_lt h

@[simp] theorem parent_root (f : Forest n) (i : Fin n) : f.parent (f.root i) = f.root i := by
  induction i using f.parent_induction with
  | hroot i h => rw [root_of_parent_eq h, h]
  | hchild i h ih => rw [← root_parent, ih]

@[simp] theorem root_root (f : Forest n) (i : Fin n) : f.root (f.root i) = f.root i :=
  root_of_parent_eq (f.parent_root i)

theorem root_le (f : Forest n) (i : Fin n) : f.root i ≤ i := by
  induction i using f.parent_induction with
  | hroot i h => exact Nat.le_of_eq (congrArg Fin.val (root_of_parent_eq h))
  | hchild i h ih =>
    rw [← root_parent]
    exact Nat.le_trans ih (f.parent_le i)

/-- A position may be pointed at another one of its class that stands before it. -/
theorem root_point_of_lt {f : Forest n} {i j : Fin n} (h : j < i) (hroot : f.root j = f.root i) (k : Fin n) :
    (f.point i j (Nat.le_of_lt h)).root k = f.root k := by
  -- The way of `i` goes over `j` now, which stands before it; so the induction is on the position.
  induction hk : k.val using Nat.strongRecOn generalizing k with
  | ind m ih =>
    subst hk
    rw [← root_parent, parent_point]
    split
    next hki =>
      subst hki
      rw [ih j h j rfl, hroot]
    next hki =>
      by_cases hp : f.parent k = k
      · have hp' : (f.point i j (Nat.le_of_lt h)).parent k = k := by rw [parent_point, if_neg hki, hp]
        rw [hp, root_of_parent_eq hp', root_of_parent_eq hp]
      · rw [ih _ (parent_lt hp) _ rfl, root_parent]

@[simp] theorem root_halve {f : Forest n} {i : Fin n} (h : f.parent i ≠ i) (k : Fin n) :
    (f.halve i).root k = f.root k :=
  root_point_of_lt (grandparent_lt h) (by rw [root_parent, root_parent]) k

/-- Pointing a root at an earlier one takes its class there. -/
theorem root_point_of_root {f : Forest n} {i j : Fin n} (h : j < i) (hi : f.root i = i) (hj : f.root j = j)
    (k : Fin n) : (f.point i j (Nat.le_of_lt h)).root k = if f.root k = i then j else f.root k := by
  induction hk : k.val using Nat.strongRecOn generalizing k with
  | ind m ih =>
    subst hk
    rw [← root_parent, parent_point]
    split
    next hki =>
      subst hki
      rw [ih j h j rfl, hj, hi, if_pos rfl, if_neg (Fin.ne_of_lt h)]
    next hki =>
      by_cases hp : f.parent k = k
      · have hp' : (f.point i j (Nat.le_of_lt h)).parent k = k := by rw [parent_point, if_neg hki, hp]
        rw [hp, root_of_parent_eq hp', root_of_parent_eq hp, if_neg hki]
      · rw [ih _ (parent_lt hp) _ rfl, root_parent]

/-! ### Looking for roots -/

theorem find_spec (f : Forest n) (i : Fin n) : (find i f).1 = f.root i ∧ ∀ k, (find i f).2.root k = f.root k := by
  induction hi : i.val using Nat.strongRecOn generalizing i f with
  | ind m ih =>
    subst hi
    rw [find]
    split
    next h => exact ⟨(root_of_parent_eq h).symm, fun _ => rfl⟩
    next h =>
      obtain ⟨hfst, hsnd⟩ := ih _ (grandparent_lt h) (f.halve i) _ rfl
      refine ⟨?_, fun k => ?_⟩
      · rw [hfst, root_halve h, root_parent, root_parent]
      · rw [hsnd, root_halve h]

/-- A computation that answers by the roots, and leaves them as they are. -/
def Asks {α : Type} (m : StateM (Forest n) α) (answer : (Fin n → Fin n) → α) : Prop :=
  ∀ f : Forest n, (m f).1 = answer f.root ∧ (m f).2.root = f.root

namespace Asks

variable {α β : Type}

theorem pure (a : α) : Asks (n := n) (Pure.pure a) fun _ => a := fun _ => ⟨rfl, rfl⟩

theorem bind {m : StateM (Forest n) α} {k : α → StateM (Forest n) β} {u : (Fin n → Fin n) → α}
    {v : α → (Fin n → Fin n) → β} (hm : Asks m u) (hk : ∀ a, Asks (k a) (v a)) :
    Asks (m >>= k) fun r => v (u r) r := by
  intro f
  have hrun : (m >>= k) f = k (m f).1 (m f).2 := rfl
  obtain ⟨hfst, hsnd⟩ := hm f
  obtain ⟨hfst', hsnd'⟩ := hk (m f).1 (m f).2
  rw [hrun]
  exact ⟨by rw [hfst', hfst, hsnd], hsnd'.trans hsnd⟩

theorem find (i : Fin n) : Asks (Forest.find i) fun r => r i :=
  fun f => ⟨(find_spec f i).1, funext (find_spec f i).2⟩

theorem joined (i j : Fin n) : Asks (Forest.joined i j) fun r => decide (r i = r j) :=
  (find i).bind fun _ => (find j).bind fun _ => pure _

theorem and {m k : StateM (Forest n) Bool} {u v : (Fin n → Fin n) → Bool} (hm : Asks m u) (hk : Asks k v) :
    Asks (do if ← m then k else return false) fun r => u r && v r := by
  refine hm.bind (v := fun b r => b && v r) fun b => ?_
  cases b with
  | false => exact pure false
  | true => simpa using hk

theorem mapM {k : α → StateM (Forest n) β} {v : α → (Fin n → Fin n) → β} (hk : ∀ a, Asks (k a) (v a)) (l : List α) :
    Asks (l.mapM k) fun r => l.map fun a => v a r := by
  induction l with
  | nil => exact pure []
  | cons a l ih =>
    rw [List.mapM_cons]
    exact (hk a).bind fun b => ih.bind fun bs => pure (b :: bs)

theorem foldlM {k : β → α → StateM (Forest n) β} {v : β → α → (Fin n → Fin n) → β} (hk : ∀ b a, Asks (k b a) (v b a))
    (l : List α) (b : β) : Asks (l.foldlM k b) fun r => l.foldl (fun b a => v b a r) b := by
  induction l generalizing b with
  | nil => exact pure b
  | cons a l ih =>
    rw [List.foldlM_cons]
    exact (hk b a).bind fun b' => ih b'

/-- A branch by such a computation is a branch by its answer. -/
theorem branch {m : StateM (Forest n) Bool} {u : (Fin n → Fin n) → Bool} (hm : Asks m u)
    (k l : StateM (Forest n) α) (f : Forest n) :
    ∃ g : Forest n, g.root = f.root ∧ (do if ← m then k else l : StateM (Forest n) α) f =
      if u f.root = true then k g else l g := by
  obtain ⟨hfst, hsnd⟩ := hm f
  refine ⟨(m f).2, hsnd, ?_⟩
  have hrun : (do if ← m then k else l : StateM (Forest n) α) f = (if (m f).1 = true then k else l) (m f).2 := rfl
  rw [hrun, hfst]
  split <;> rfl

end Asks

/-! ### Unions -/

theorem union_eq (f : Forest n) (i j : Fin n) : ∃ g : Forest n, g.root = f.root ∧
    union i j f = if f.root i = f.root j then (false, g)
      else (true, g.point (later (f.root i) (f.root j)) (earlier (f.root i) (f.root j)) (earlier_le_later _ _)) := by
  obtain ⟨hi, hf⟩ := Asks.find i f
  obtain ⟨hj, hg⟩ := Asks.find j (find i f).2
  refine ⟨(find j (find i f).2).2, hg.trans hf, ?_⟩
  rw [hf] at hj
  have hrun : union i j f = (if (find i f).1 = (find j (find i f).2).1 then pure false
      else do
        modify fun g => g.point (later (find i f).1 (find j (find i f).2).1)
          (earlier (find i f).1 (find j (find i f).2).1) (earlier_le_later _ _)
        return true : StateM (Forest n) Bool) (find j (find i f).2).2 := rfl
  rw [hrun, hi, hj]
  split <;> rfl

/-- A union tells whether there were two classes. -/
theorem union_fst (f : Forest n) (i j : Fin n) : (union i j f).1 = decide (f.root i ≠ f.root j) := by
  obtain ⟨g, -, hg⟩ := f.union_eq i j
  rw [hg]
  split
  next h => exact (decide_eq_false (not_not_intro h)).symm
  next h => exact (decide_eq_true h).symm

/-- The positions of the two classes come under the earlier root, and all others keep theirs. -/
theorem root_union (f : Forest n) (i j k : Fin n) : (union i j f).2.root k =
    if f.root k = f.root i ∨ f.root k = f.root j then earlier (f.root i) (f.root j) else f.root k := by
  obtain ⟨g, hroot, hg⟩ := f.union_eq i j
  rw [hg]
  split
  next h =>
    have hself : earlier (f.root i) (f.root i) = f.root i := if_pos (Nat.le_refl _)
    rw [hroot, ← h, hself]
    split
    next hk => exact hk.elim id id
    next => rfl
  next h =>
    have hroots : ∀ l, g.root (f.root l) = f.root l := by
      intro l
      rw [hroot, root_root]
    rcases earlier_later_cases (f.root i) (f.root j) with ⟨he, hl, hle⟩ | ⟨he, hl, hle⟩
    · have hlt : f.root i < f.root j := Nat.lt_of_le_of_ne hle (Fin.val_ne_of_ne h)
      simp only [he, hl, root_point_of_root hlt (hroots j) (hroots i), hroot]
      split
      next hk => rw [if_pos (Or.inr hk)]
      next hk =>
        split
        next hor => exact hor.resolve_right hk
        next => rfl
    · have hlt : f.root j < f.root i := Nat.lt_of_le_of_ne hle (Fin.val_ne_of_ne (Ne.symm h))
      simp only [he, hl, root_point_of_root hlt (hroots i) (hroots j), hroot]
      split
      next hk => rw [if_pos (Or.inl hk)]
      next hk =>
        split
        next hor => exact hor.resolve_left hk
        next => rfl

theorem earlier_eq (i j : Fin n) : earlier i j = i ∨ earlier i j = j :=
  (earlier_later_cases i j).imp And.left And.left

/-- Two positions are in one class after a union if they were before, or if each was in one of the two. -/
theorem root_union_eq_iff (f : Forest n) {i j k l : Fin n} : (union i j f).2.root k = (union i j f).2.root l ↔
    f.root k = f.root l ∨
      (f.root k = f.root i ∨ f.root k = f.root j) ∧ (f.root l = f.root i ∨ f.root l = f.root j) := by
  have hearlier : ∀ {r : Fin n}, earlier (f.root i) (f.root j) = r → r = f.root i ∨ r = f.root j := by
    rintro r rfl
    exact earlier_eq _ _
  rw [root_union, root_union]
  split
  next hk =>
    split
    next hl => exact ⟨fun _ => Or.inr ⟨hk, hl⟩, fun _ => rfl⟩
    next hl =>
      refine ⟨fun h => absurd (hearlier h) hl, ?_⟩
      rintro (h | ⟨-, h⟩)
      · exact absurd (h ▸ hk) hl
      · exact absurd h hl
  next hk =>
    split
    next hl =>
      refine ⟨fun h => absurd (hearlier h.symm) hk, ?_⟩
      rintro (h | ⟨h, -⟩)
      · exact absurd (h ▸ hl) hk
      · exact absurd h hk
    next => exact ⟨Or.inl, fun h => h.resolve_right fun h => hk h.1⟩

theorem root_union_eq {f : Forest n} {k l : Fin n} (h : f.root k = f.root l) (i j : Fin n) :
    (union i j f).2.root k = (union i j f).2.root l :=
  f.root_union_eq_iff.mpr (Or.inl h)

theorem root_union_self (f : Forest n) (i j : Fin n) : (union i j f).2.root i = (union i j f).2.root j :=
  f.root_union_eq_iff.mpr (Or.inr ⟨Or.inl rfl, Or.inr rfl⟩)

/-- A union relates only what was related before, or becomes so by its two sides. -/
theorem of_root_union_eq {r : Fin n → Fin n → Prop} (hr : Equivalence r) {f : Forest n}
    (hf : ∀ k l, f.root k = f.root l → r k l) {i j : Fin n} (hij : r i j) {k l : Fin n}
    (h : (union i j f).2.root k = (union i j f).2.root l) : r k l := by
  have hside : ∀ {k}, f.root k = f.root i ∨ f.root k = f.root j → r k i :=
    fun h => h.elim (hf _ i) fun hj => hr.trans (hf _ j hj) (hr.symm hij)
  rcases f.root_union_eq_iff.mp h with h | ⟨hk, hl⟩
  · exact hf k l h
  · exact hr.trans (hside hk) (hr.symm (hside hl))

/-! ### How many classes there are -/

/-- The positions that are roots. -/
def roots (f : Forest n) : List (Fin n) := (List.finRange n).filter fun i => f.root i = i

theorem length_roots_le (f : Forest n) : f.roots.length ≤ n :=
  Nat.le_trans (List.length_filter_le _ _) (Nat.le_of_eq List.length_finRange)

theorem roots_congr {f g : Forest n} (h : f.root = g.root) : f.roots = g.roots := by
  rw [roots, roots, h]

/-- A union of two classes leaves a root less. -/
theorem length_roots_union_lt {f : Forest n} {i j : Fin n} (h : (union i j f).1 = true) :
    (union i j f).2.roots.length < f.roots.length := by
  rw [union_fst, decide_eq_true_eq] at h
  have hroots : (union i j f).2.roots = f.roots.filter fun k => k ≠ later (f.root i) (f.root j) := by
    rw [roots, roots, List.filter_filter]
    refine List.filter_congr fun k _ => ?_
    rw [root_union, Bool.eq_iff_iff]
    simp only [decide_eq_true_eq, Bool.and_eq_true, ne_eq]
    have hi := f.root_root i
    have hj := f.root_root j
    rcases earlier_later_cases (f.root i) (f.root j) with ⟨he, hl, -⟩ | ⟨he, hl, -⟩ <;> rw [he, hl] <;> grind
  rw [hroots, List.length_filter_lt_length_iff_exists]
  refine ⟨later (f.root i) (f.root j), ?_, by simp⟩
  refine List.mem_filter.mpr ⟨List.mem_finRange _, decide_eq_true ?_⟩
  rcases earlier_later_cases (f.root i) (f.root j) with ⟨-, hl, -⟩ | ⟨-, hl, -⟩ <;> rw [hl, root_root]

end Forest

end Symex
