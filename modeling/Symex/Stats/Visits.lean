import Symex.Data.Table
import Symex.Program.Graph

/-!
# Visits and step limits

How often each link was traversed, and a budget of traversals.
-/

namespace Symex

/-! ### Visits -/

structure Visits where
  counts : Table Edge Nat := {}

namespace Visits

def of (v : Visits) (e : Edge) : Nat := (v.counts.find? e).getD 0

def total (v : Visits) : Nat := (v.counts.entries.map (·.2)).foldr (· + ·) 0

def traverse (v : Visits) (e : Edge) : Visits := ⟨v.counts.insert e (v.of e + 1)⟩

theorem of_traverse (v : Visits) (e f : Edge) : (v.traverse e).of f = v.of f + if f = e then 1 else 0 := by
  by_cases h : f = e
  · simp [of, traverse, h]
  · simp [of, traverse, Table.find?_insert, h]

end Visits

/-! ### Step limits -/

/-- A budget of traversals with the number of those made. -/
structure StepLimit where
  limit : Nat
  steps : Nat := 0
  deriving DecidableEq, Inhabited

namespace StepLimit

def traverse (s : StepLimit) : StepLimit := { s with steps := s.steps + 1 }

/-- The search has to stop once more traversals were made than the budget has. -/
def shouldStop (s : StepLimit) : Bool := s.limit < s.steps

end StepLimit

end Symex
