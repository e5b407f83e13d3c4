import Symex.Program.Graph
import Symex.Stats.Rank

/-!
# Coverage

Which locations of a graph have been reached, and how far each location is from one that has not. A link is
covering if some traversal of it reached an end of it for the first time.
-/

namespace Symex

/-! ### Distances -/

/-- A table of ranks by location. -/
structure Distances where
  ranks : List Rank
  deriving DecidableEq

namespace Distances

/-- The rank of a location; one out of range has the worst. -/
def of (d : Distances) (l : Nat) : Rank := d.ranks.getD l .worst

/-- Distance zero at the locations still to be reached, and none known elsewhere. -/
def start (g : Graph) (covered : List Nat) : Distances :=
  ⟨g.locations.map fun l => if l ∈ covered then .worst else .finite 0⟩

/-- The table with another rank for one location. -/
def set (d : Distances) (l : Nat) (r : Rank) : Distances := ⟨d.ranks.set l r⟩

end Distances

/-! ### Searching backwards -/

/-- A search along the links, against their direction, from the locations still to be reached. -/
structure Spread where
  distances : Distances
  /-- The locations that were found, in that order, and whose predecessors have not been looked at yet. -/
  queue : List Nat

namespace Spread

def start (g : Graph) (covered : List Nat) : Spread :=
  { distances := .start g covered, queue := g.locations.filter (· ∉ covered) }

/-- Finds a location at a distance, unless it is known to be as close. -/
def reach (r : Rank) (s : Spread) (l : Nat) : Spread :=
  if r.lt (s.distances.of l) then { distances := s.distances.set l r, queue := s.queue ++ [l] } else s

/-- Looks at the predecessors of a location that has left the queue. -/
def expand (g : Graph) (s : Spread) (l : Nat) : Spread :=
  (g.predecessors l).foldl (reach (s.distances.of l).next) s

/-- Works on the queue until it is empty, or `n` locations have left it. -/
def run (g : Graph) : Nat → Spread → Spread
  | 0, s => s
  | n + 1, s =>
    match s.queue with
    | [] => s
    | l :: ls => run g n (expand g { s with queue := ls } l)

end Spread

/-- For every location the number of links to the nearest one that is not covered. No location is found twice. -/
def Distances.compute (g : Graph) (covered : List Nat) : Distances :=
  (Spread.run g g.size (.start g covered)).distances

/-! ### Coverage -/

structure Coverage where
  graph : Graph
  /-- The locations reached. -/
  covered : List Nat := []
  /-- The covering links. -/
  covering : List Edge := []
  distances : Distances

namespace Coverage

/-- Nothing is reached yet. -/
def start (g : Graph) : Coverage := { graph := g, distances := .compute g [] }

def distance (c : Coverage) (l : Nat) : Rank := c.distances.of l

def isCovered (c : Coverage) (l : Nat) : Bool := l ∈ c.covered

/-- Whether some traversal of the link covered new code. -/
def isCovering (c : Coverage) (e : Edge) : Bool := e ∈ c.covering

def count (c : Coverage) : Nat := c.covered.length

/-- Whether reaching a location now would cover it. -/
def isNew (c : Coverage) (l : Nat) : Bool := l < c.graph.size && !c.isCovered l

/-- Takes note of the traversal of a link. -/
def traverse (c : Coverage) (e : Edge) : Coverage :=
  match [e.source, e.target].eraseDups.filter c.isNew with
  | [] => c
  | reached =>
    let covered := c.covered ++ reached
    { c with
      covered
      covering := if e ∈ c.covering then c.covering else c.covering ++ [e]
      distances := .compute c.graph covered }

end Coverage

end Symex
