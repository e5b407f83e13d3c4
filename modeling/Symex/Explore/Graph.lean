import Symex.Explore.Basic
import Symex.Explore.Walker

/-!
# Exploring a graph

An exploration that walks a graph from its entry and gathers the states that arrive at an exit.
-/

namespace Symex.Walker

/-- Gathers a state, and has enough once there are as many as asked for. -/
def gather (enough : Option Nat) (s : State) (ss : List State) : Except Fault (List State × Bool) :=
  .ok (ss ++ [s], enough.any (· ≤ ss.length + 1))

def setup (w : Walker) (limit : Nat) (enough : Option Nat) : Explore.Setup (List State) :=
  { limit, step := w.step, visit := gather enough }

/-- Explores the graph from a new state at its entry on, and counts afresh except for the checks. Without a deadline
as many rounds are allowed as there can be. -/
def explore (w : Walker) (limit : Nat) (enough : Option Nat) (deadline : Option Nat)
    (x : Explore.Progress (List State)) : Except Fault (Explore.Progress (List State) × Explore.Ending) :=
  let initial := Walker.initial x.nextId
  let x := { x with result := [], nextId := x.nextId + 1, tally := { checks := x.tally.checks } }
  x.run (w.setup limit enough) (deadline.getD (x.rounds w.graph.maxDegree)) initial

end Symex.Walker
