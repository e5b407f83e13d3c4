import Symex.Solver.Search
import Symex.State.Path
import Symex.Term.Assignment

/-!
# The solver

Decides conjunctions of atoms over heap reads that nothing is known about except that equal places read equal
values. The answer is an assignment to all terms of the conjunction, or none. The budget bounds the search; a
search that runs out of it finds nothing.
-/

namespace Symex.Solver

/-- The budget of a check unless another is given. -/
def defaultLimit : Nat := 100000

/-- An assignment that makes all atoms true. -/
def solve (limit : Nat) (as : List Atom) : Option Assignment :=
  let c := Classes.ofAtoms as
  if clash c then none
  else
    let (found, v, _) := searchClasses limit as c
    if found then some (Table.ofList (assignmentOf c v)) else none

/-- Solves a path. Soft atoms are respected if that is asked for and they can be; otherwise the hard atoms count
alone. -/
def check (limit : Nat) (p : Path) (respectSoft : Bool) : Option Assignment :=
  if respectSoft && !p.soft.isEmpty then
    (solve limit (p.atoms true)).or (solve limit (p.atoms false))
  else solve limit (p.atoms false)

def feasible (limit : Nat) (p : Path) : Bool := (check limit p false).isSome

@[simp] theorem check_hard (limit : Nat) (p : Path) : check limit p false = solve limit p.hard := by
  simp [check]

end Symex.Solver
