import Symex.State.Basic

/-!
# Walking a graph

The engine that only follows links. Every successor is a branch; guards on a link are assumed by the state that
takes it; a state that arrives at an exit has returned.
-/

namespace Symex

structure Walker where
  graph : Graph
  /-- Atoms assumed on links, in order. -/
  guards : List (Edge × Atom) := []

namespace Walker

/-- The state at the entry. -/
def initial (id : Nat) : State := { id, frame := some {} }

/-- The atoms assumed on a link. -/
def guardsOf (w : Walker) (e : Edge) : List Atom := (w.guards.filter (·.1 = e)).map (·.2)

/-- The child of `s` along one branch. -/
def child (w : Walker) (s : State) (id branch target : Nat) : State :=
  let c := (w.guardsOf ⟨s.location, target⟩).foldl State.assume (s.fork id branch target)
  if w.graph.isExit target then { c with status := .returned } else c

/-- The children of a state, numbered from `next` on. -/
def step (w : Walker) (next : Nat) (s : State) : List State × Nat :=
  let targets := w.graph.successors s.location
  (targets.mapIdx fun b t => w.child s (next + b) b t, next + targets.length)

end Walker

end Symex
