/-!
# Ordered sets

An ordered set is a list without repetitions that is read in increasing order. Insertion walks past the smaller
elements, so a set that is built by insertion alone is sorted; membership after an insertion needs no law of the
order.
-/

namespace Symex

/-- Elements in increasing order, each once. -/
structure OrderedSet (α : Type) where
  toList : List α := []
  deriving DecidableEq

namespace OrderedSet

variable {α : Type}

def empty : OrderedSet α := {}

instance : Inhabited (OrderedSet α) := ⟨empty⟩

instance : Membership α (OrderedSet α) := ⟨fun s a => a ∈ s.toList⟩

theorem mem_def {a : α} {s : OrderedSet α} : a ∈ s ↔ a ∈ s.toList := Iff.rfl

instance [DecidableEq α] (a : α) (s : OrderedSet α) : Decidable (a ∈ s) :=
  inferInstanceAs (Decidable (a ∈ s.toList))

def size (s : OrderedSet α) : Nat := s.toList.length

variable [Ord α] [DecidableEq α]

/-- Puts `a` before the first element that is greater, unless it is met on the way. -/
def insertInto (a : α) : List α → List α
  | [] => [a]
  | b :: l =>
    if a = b then b :: l
    else if compare a b = .lt then a :: b :: l
    else b :: insertInto a l

def insert (s : OrderedSet α) (a : α) : OrderedSet α := ⟨insertInto a s.toList⟩

def ofList (l : List α) : OrderedSet α := l.foldl insert empty

/-! ### Members -/

theorem mem_insertInto {a x : α} {l : List α} : x ∈ insertInto a l ↔ x = a ∨ x ∈ l := by
  induction l with
  | nil => simp [insertInto]
  | cons b l ih =>
    by_cases hab : a = b
    · simp [insertInto, hab]
    · by_cases hlt : compare a b = .lt
      · simp [insertInto, hab, hlt]
      · simp [insertInto, hab, hlt, ih]
        constructor
        · rintro (h | h | h) <;> simp [h]
        · rintro (h | h | h) <;> simp [h]

@[simp] theorem mem_insert {s : OrderedSet α} {a x : α} : x ∈ s.insert a ↔ x = a ∨ x ∈ s := mem_insertInto

theorem mem_foldl_insert {l : List α} {s : OrderedSet α} {x : α} :
    x ∈ l.foldl insert s ↔ x ∈ l ∨ x ∈ s := by
  induction l generalizing s with
  | nil => simp
  | cons a l ih =>
    simp only [List.foldl_cons, ih, mem_insert, List.mem_cons]
    constructor
    · rintro (h | h | h) <;> simp [h]
    · rintro ((h | h) | h) <;> simp [h]

@[simp] theorem mem_ofList {l : List α} {x : α} : x ∈ ofList l ↔ x ∈ l := by
  rw [ofList, mem_foldl_insert]
  simp [empty, mem_def]

end OrderedSet

end Symex
