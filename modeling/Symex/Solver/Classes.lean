import Symex.Solver.Closure

/-!
# Classes of terms

The terms of a conjunction, each with the number of its class: the position of the first term that is united with it.
-/

namespace Symex.Solver

/-- Terms in the order of their first occurrence, with the number of their class. -/
structure Classes where
  members : List (Term × Nat)
  deriving DecidableEq, Inhabited

namespace Classes

def terms (c : Classes) : List Term := c.members.map (·.1)

/-- The number of a term's class. -/
def label? (c : Classes) (t : Term) : Option Nat := c.members.lookup t

/-- The numbers in use, in increasing order. -/
def labels (c : Classes) : List Nat := (c.members.map (·.2)).eraseDups

/-- Looks for the roots of all terms, one after the other. -/
def ofForest (ts : List Term) (f : Forest ts.length) : Classes :=
  ⟨((List.finRange ts.length).mapM (fun i => return (ts.get i, (← Forest.find i).val)) f).1⟩

/-- The congruence classes of a conjunction. -/
def ofAtoms (as : List Atom) : Classes := ofForest (termsOf as) (Closure.ofAtoms as)

theorem members_ofForest (ts : List Term) (f : Forest ts.length) :
    (ofForest ts f).members = (List.finRange ts.length).map fun i => (ts.get i, (f.root i).val) := by
  have hasks : ∀ i : Fin ts.length, Forest.Asks (do return (ts.get i, (← Forest.find i).val))
      fun root => (ts.get i, (root i).val) :=
    fun i => (Forest.Asks.find i).bind fun _ => .pure _
  exact (Forest.Asks.mapM hasks (List.finRange ts.length) f).1

@[simp] theorem terms_ofForest (ts : List Term) (f : Forest ts.length) : (ofForest ts f).terms = ts := by
  rw [terms, members_ofForest, List.map_map]
  exact List.ext_getElem (by simp) (by simp)

@[simp] theorem terms_ofAtoms (as : List Atom) : (ofAtoms as).terms = termsOf as := terms_ofForest _ _

end Classes

end Symex.Solver
