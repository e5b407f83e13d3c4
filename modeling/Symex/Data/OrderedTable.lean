import Symex.Data.Table

/-!
# Ordered tables

An ordered table is a finite map that is read in increasing order of its keys. It serves where the order of the
keys is part of an answer: the locals of a frame, the static fields of a memory.
-/

namespace Symex

/-- A finite map whose entries are kept in increasing order of their keys. -/
structure OrderedTable (κ β : Type) where
  toList : List (κ × β) := []
  deriving DecidableEq

namespace OrderedTable

variable {κ β : Type}

def empty : OrderedTable κ β := {}

instance : Inhabited (OrderedTable κ β) := ⟨empty⟩

variable [DecidableEq κ]

/-- The value at a key. -/
def find? (t : OrderedTable κ β) (k : κ) : Option β := t.toList.lookup k

variable [Ord κ]

/-- One pass: replaces the entry of `k`, or stands before the first greater key. -/
def insertInto (k : κ) (v : β) : List (κ × β) → List (κ × β)
  | [] => [(k, v)]
  | e :: l =>
    if k = e.1 then (k, v) :: l
    else if compare k e.1 = .lt then (k, v) :: e :: l
    else e :: insertInto k v l

def insert (t : OrderedTable κ β) (k : κ) (v : β) : OrderedTable κ β := ⟨insertInto k v t.toList⟩

def ofList (ps : List (κ × β)) : OrderedTable κ β := ps.foldl (fun t p => t.insert p.1 p.2) empty

/-- Changes the value at `k`, which is `d` if there is none. -/
def alter (t : OrderedTable κ β) (k : κ) (d : β) (f : β → β) : OrderedTable κ β :=
  t.insert k (f ((t.find? k).getD d))

/-! ### What `find?` answers -/

theorem lookup_insertInto (k j : κ) (v : β) (l : List (κ × β)) :
    (insertInto k v l).lookup j = if j = k then some v else l.lookup j := by
  induction l with
  | nil => rw [insertInto, Table.lookup_cons_if]
  | cons e l ih =>
    obtain ⟨a, b⟩ := e
    by_cases hk : k = a
    · subst hk
      rw [insertInto, if_pos rfl, Table.lookup_cons_if, Table.lookup_cons_if]
      by_cases h : j = k <;> simp [h]
    · by_cases hlt : compare k a = .lt
      · rw [insertInto, if_neg hk, if_pos hlt, Table.lookup_cons_if]
      · rw [insertInto, if_neg hk, if_neg hlt, Table.lookup_cons_if, Table.lookup_cons_if, ih]
        by_cases h : j = a
        · have hj : j ≠ k := fun e => hk (e ▸ h)
          simp [h, Ne.symm hk]
        · simp [h]

@[simp] theorem find?_insert (t : OrderedTable κ β) (k j : κ) (v : β) :
    (t.insert k v).find? j = if j = k then some v else t.find? j :=
  lookup_insertInto k j v t.toList

end OrderedTable

end Symex
