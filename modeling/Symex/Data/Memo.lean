import Symex.Data.Table

/-!
# Memo tables

A table that counts how often a look-up found something and how often it did not.
-/

namespace Symex

structure Memo (κ β : Type) where
  table : Table κ β := {}
  hits : Nat := 0
  misses : Nat := 0

namespace Memo

variable {κ β : Type} [DecidableEq κ]

def empty : Memo κ β := {}

instance : Inhabited (Memo κ β) := ⟨empty⟩

/-- Looks a key up and counts the outcome. -/
def get (m : Memo κ β) (k : κ) : Option β × Memo κ β :=
  match m.table.find? k with
  | some v => (some v, { m with hits := m.hits + 1 })
  | none => (none, { m with misses := m.misses + 1 })

/-- Looks a key up and counts nothing. -/
def peek (m : Memo κ β) (k : κ) : Option β := m.table.find? k

def insert (m : Memo κ β) (k : κ) (v : β) : Memo κ β := { m with table := m.table.insert k v }

def size (m : Memo κ β) : Nat := m.table.size

@[simp] theorem get_fst (m : Memo κ β) (k : κ) : (m.get k).1 = m.peek k := by
  unfold get peek
  split <;> simp_all

@[simp] theorem peek_get_snd (m : Memo κ β) (k j : κ) : (m.get k).2.peek j = m.peek j := by
  unfold get peek
  split <;> rfl

@[simp] theorem peek_insert (m : Memo κ β) (k j : κ) (v : β) :
    (m.insert k v).peek j = if j = k then some v else m.peek j :=
  Table.find?_insert m.table k j v

end Memo

end Symex
