/-!
# Tables

A table is a finite map kept as a list of entries with pairwise different keys, newest first. Its order is not
meant to be seen: what a table says is what `find?` answers, and the lemmas below give that answer for each
operation.
-/

namespace Symex

/-- A finite map from keys to values. -/
structure Table (κ β : Type) where
  entries : List (κ × β) := []

namespace Table

variable {κ β : Type} [DecidableEq κ]

def empty : Table κ β := {}

instance : Inhabited (Table κ β) := ⟨empty⟩

/-- The value at a key. -/
def find? (t : Table κ β) (k : κ) : Option β := t.entries.lookup k

def contains (t : Table κ β) (k : κ) : Bool := (t.find? k).isSome

/-- Gives `k` the value `v`, whatever it had before. -/
def insert (t : Table κ β) (k : κ) (v : β) : Table κ β :=
  ⟨(k, v) :: t.entries.filter fun e => e.1 ≠ k⟩

/-- Keeps the value that `k` has, and gives it `v` only if it has none. -/
def insertNew (t : Table κ β) (k : κ) (v : β) : Table κ β :=
  if t.contains k then t else t.insert k v

/-- Reads the pairs in order, so that the last pair for a key counts. -/
def ofList (ps : List (κ × β)) : Table κ β := ps.foldl (fun t p => t.insert p.1 p.2) empty

/-- The number of keys. -/
def size (t : Table κ β) : Nat := t.entries.length

def isEmpty (t : Table κ β) : Bool := t.entries.isEmpty

/-! ### What `find?` answers -/

@[simp] theorem find?_empty (k : κ) : (empty : Table κ β).find? k = none := rfl

theorem lookup_cons_if (es : List (κ × β)) (k j : κ) (v : β) :
    ((k, v) :: es).lookup j = if j = k then some v else es.lookup j := by
  by_cases h : j = k
  · simp [h]
  · have hj : (j == k) = false := beq_eq_false_iff_ne.mpr h
    simp only [List.lookup_cons, hj, if_neg h]

theorem lookup_filter_ne (es : List (κ × β)) (k j : κ) (h : j ≠ k) :
    (es.filter fun e => e.1 ≠ k).lookup j = es.lookup j := by
  induction es with
  | nil => rfl
  | cons e es ih =>
    obtain ⟨a, b⟩ := e
    by_cases hk : a = k
    · subst hk
      rw [lookup_cons_if, if_neg h, ← ih]
      simp
    · rw [List.filter_cons_of_pos (by simpa using hk), lookup_cons_if, lookup_cons_if, ih]

@[simp] theorem find?_insert_self (t : Table κ β) (k : κ) (v : β) : (t.insert k v).find? k = some v := by
  simp [find?, insert]

theorem find?_insert_ne (t : Table κ β) (k j : κ) (v : β) (h : j ≠ k) :
    (t.insert k v).find? j = t.find? j := by
  rw [find?, insert, lookup_cons_if, if_neg h]
  exact lookup_filter_ne t.entries k j h

theorem find?_insert (t : Table κ β) (k j : κ) (v : β) :
    (t.insert k v).find? j = if j = k then some v else t.find? j := by
  by_cases h : j = k
  · simp [h]
  · simp [h, find?_insert_ne t k j v h]

end Table

end Symex
