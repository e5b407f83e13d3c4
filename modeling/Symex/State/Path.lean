import Symex.Term.Atom

/-!
# Path conditions

A path collects hard atoms, which have to hold, and soft atoms, which are preferred. Neither list repeats an atom.
-/

namespace Symex

structure Path where
  hard : List Atom := []
  soft : List Atom := []
  deriving DecidableEq, Inhabited

namespace Path

/-- Adds an atom at the end unless it is there. -/
def addTo (l : List Atom) (a : Atom) : List Atom := if a ∈ l then l else l ++ [a]

def addHard (p : Path) (a : Atom) : Path := { p with hard := addTo p.hard a }

def addSoft (p : Path) (a : Atom) : Path := { p with soft := addTo p.soft a }

/-- The hard atoms, followed by the soft ones if they are asked for. -/
def atoms (p : Path) (withSoft : Bool) : List Atom := p.hard ++ (if withSoft then p.soft else [])

def ofLists (hard soft : List Atom) : Path := soft.foldl addSoft (hard.foldl addHard {})

@[simp] theorem mem_addTo {l : List Atom} {a x : Atom} : x ∈ addTo l a ↔ x ∈ l ∨ x = a := by
  by_cases h : a ∈ l
  · simp only [addTo, if_pos h]
    constructor
    · exact Or.inl
    · rintro (hx | rfl)
      · exact hx
      · exact h
  · simp [addTo, h]

@[simp] theorem atoms_false (p : Path) : p.atoms false = p.hard := by simp [atoms]

end Path

end Symex
