import Symex.Model.Fault

/-!
# Stores

A store owns models by handle. A slot is reserved first and set once, so that a model may refer to one that is
still being built. Main statements: what a slot holds after each operation, and that an operation leaves the slots
of the store it starts from alone.
-/

namespace Symex

structure Store where
  slots : Array (Option Model) := #[]
  deriving DecidableEq, Inhabited

namespace Store

def size (s : Store) : Nat := s.slots.size

/-- The model in a slot, if it is built. -/
def get? (s : Store) (h : Handle) : Option Model := s.slots.getD h.index none

def get (s : Store) (h : Handle) : Except Fault Model :=
  match s.get? h with
  | some m => .ok m
  | none => .error (.unbuilt h s.size)

/-- A new slot, still empty. -/
def reserve (s : Store) : Handle × Store := (⟨s.size⟩, ⟨s.slots.push none⟩)

/-- Fills a slot that is reserved. -/
def set (s : Store) (h : Handle) (m : Model) : Except Fault Store :=
  if h.index < s.size then
    match s.get? h with
    | none => .ok ⟨s.slots.setIfInBounds h.index (some m)⟩
    | some _ => .error (.alreadySet h)
  else .error (.outOfBounds s.size h.index)

/-- A new slot with a model in it. -/
def alloc (s : Store) (m : Model) : Handle × Store := (⟨s.size⟩, ⟨s.slots.push (some m)⟩)

/-- Fills a slot, whatever it holds; nothing happens past the end. -/
def fill (s : Store) (h : Handle) (m : Model) : Store := ⟨s.slots.setIfInBounds h.index (some m)⟩

/-- The models that are built, with their handles. -/
def toList (s : Store) : List (Handle × Model) :=
  s.slots.toList.zipIdx.filterMap fun e => e.1.map fun m => (⟨e.2⟩, m)

/-- The store with these slots. -/
def ofSlots (l : List (Option Model)) : Store := ⟨l.toArray⟩

/-- Follows at most `n - 1` aliases. -/
def derefWithin (s : Store) : Nat → Handle → Except Fault Handle
  | 0, h => .error (.aliasCycle h)
  | n + 1, h =>
    match s.get h with
    | .error e => .error e
    | .ok (.sameAs _ t) => s.derefWithin n t
    | .ok _ => .ok h

/-- The model behind a chain of aliases. A chain with more links than there are slots passes a slot twice, and so
never ends. -/
def deref (s : Store) (h : Handle) : Except Fault Handle := s.derefWithin (s.size + 1) h

/-- The model behind a chain of aliases itself. -/
def derefModel (s : Store) (h : Handle) : Except Fault Model := do s.get (← s.deref h)

/-! ### What a slot holds -/

theorem get_eq_ok {s : Store} {h : Handle} {m : Model} : s.get h = .ok m ↔ s.get? h = some m := by
  unfold get
  split <;> simp_all

@[simp] theorem size_reserve (s : Store) : s.reserve.2.size = s.size + 1 := by simp [reserve, size]

@[simp] theorem size_alloc (s : Store) (m : Model) : (s.alloc m).2.size = s.size + 1 := by simp [alloc, size]

@[simp] theorem size_fill (s : Store) (h : Handle) (m : Model) : (s.fill h m).size = s.size := by simp [fill, size]

theorem get?_eq_none_of_le {s : Store} {h : Handle} (hs : s.size ≤ h.index) : s.get? h = none := by
  simp only [get?, Array.getD_eq_getD_getElem?]
  rw [Array.getElem?_eq_none hs]
  rfl

theorem lt_size_of_get? {s : Store} {h : Handle} {m : Model} (hm : s.get? h = some m) : h.index < s.size := by
  rcases Nat.lt_or_ge h.index s.size with hl | hl
  · exact hl
  · rw [get?_eq_none_of_le hl] at hm
    cases hm

@[simp] theorem get?_reserve (s : Store) (h : Handle) : s.reserve.2.get? h = s.get? h := by
  simp only [get?, reserve, Array.getD_eq_getD_getElem?, Array.getElem?_push]
  split
  · next he =>
    have : s.slots[h.index]? = none := Array.getElem?_eq_none (by omega)
    rw [this]
    rfl
  · rfl

@[simp] theorem get?_alloc (s : Store) (m : Model) (h : Handle) :
    (s.alloc m).2.get? h = if h.index = s.size then some m else s.get? h := by
  simp only [get?, alloc, Array.getD_eq_getD_getElem?, Array.getElem?_push, size]
  split <;> rfl

@[simp] theorem get?_fill (s : Store) (h k : Handle) (m : Model) :
    (s.fill h m).get? k = if h = k ∧ h.index < s.size then some m else s.get? k := by
  simp only [get?, fill, Array.getD_eq_getD_getElem?, Array.getElem?_setIfInBounds, size]
  by_cases hk : h.index = k.index
  · have he : h = k := by cases h; cases k; simpa using hk
    by_cases hl : h.index < s.slots.size
    · simp [he, he ▸ hl]
    · have hn : s.slots[k.index]? = none := Array.getElem?_eq_none (by omega)
      rw [if_pos hk, if_neg hl, if_neg fun e => hl e.2, hn]
  · have he : h ≠ k := fun e => hk (e ▸ rfl)
    simp [hk, he]

theorem set_eq_ok {s t : Store} {h : Handle} {m : Model} :
    s.set h m = .ok t ↔ h.index < s.size ∧ s.get? h = none ∧ t = s.fill h m := by
  unfold set
  split
  · next hl =>
    split
    · next hn => simp [hl, hn, fill, eq_comm]
    · next x hx => simp [hx]
  · next hl => simp [hl]

end Store

end Symex
