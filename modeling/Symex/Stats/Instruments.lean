import Symex.Stats.Coverage
import Symex.Stats.Visits

/-!
# Instruments

The statistics and step limits that a family of selectors shares. Statistics come into being when they are first
asked for and listen from then on. A selector is wired to the listeners that were there when it was built and to
the step limit that was in force then; a traversal reported through it reaches exactly those.
-/

namespace Symex

/-- Who is told about traversals. -/
inductive Listener where
  | coverage
  | visits
  /-- One of the counters. -/
  | counter (index : Nat)
  deriving DecidableEq, Inhabited

/-- What a selector is connected to: the listeners, and the step limit by its number. -/
structure Wiring where
  listeners : List Listener := []
  limit : Nat := 0
  deriving DecidableEq, Inhabited

structure Instruments where
  graph : Graph
  coverage : Option Coverage := none
  visits : Option Visits := none
  /-- Counters of traversals. -/
  counters : List Nat := []
  /-- All step limits there have been. -/
  limits : List StepLimit := []
  /-- The step limit in force, by its number. -/
  current : Option Nat := none
  /-- The listeners in the order in which they were registered. -/
  listeners : List Listener := []

namespace Instruments

/-! ### Registration -/

/-- Makes sure that coverage is recorded. -/
def withCoverage (i : Instruments) : Instruments :=
  match i.coverage with
  | some _ => i
  | none => { i with coverage := some (.start i.graph), listeners := i.listeners ++ [.coverage] }

/-- Makes sure that visits are counted. -/
def withVisits (i : Instruments) : Instruments :=
  match i.visits with
  | some _ => i
  | none => { i with visits := some {}, listeners := i.listeners ++ [.visits] }

/-- Adds a counter. -/
def addCounter (i : Instruments) : Instruments :=
  { i with counters := i.counters ++ [0], listeners := i.listeners ++ [.counter i.counters.length] }

/-- Puts a new step limit in force. -/
def setLimit (i : Instruments) (limit : Nat) : Instruments :=
  { i with limits := i.limits ++ [{ limit }], current := some i.limits.length }

/-- The connection of a selector that is built now. -/
def wiring (i : Instruments) (limit : Nat) : Wiring := ⟨i.listeners, limit⟩

/-! ### Reading -/

def distance (i : Instruments) (l : Nat) : Rank := (i.coverage.map (·.distance l)).getD .worst

def isCovering (i : Instruments) (e : Edge) : Bool := (i.coverage.map (·.isCovering e)).getD false

def visitsOf (i : Instruments) (e : Edge) : Nat := (i.visits.map (·.of e)).getD 0

/-- Whether the step limit of a given number is used up. -/
def isSpent (i : Instruments) (limit : Nat) : Bool := (i.limits[limit]?.map (·.shouldStop)).getD false

/-! ### Traversals -/

def notify (i : Instruments) (e : Edge) : Listener → Instruments
  | .coverage => { i with coverage := i.coverage.map (·.traverse e) }
  | .visits => { i with visits := i.visits.map (·.traverse e) }
  | .counter k => { i with counters := i.counters.modify k (· + 1) }

/-- Reports a traversal to the listeners of a wiring and to its step limit. -/
def traverse (i : Instruments) (w : Wiring) (e : Edge) : Instruments :=
  let i := w.listeners.foldl (fun i l => i.notify e l) i
  { i with limits := i.limits.modify w.limit (·.traverse) }

end Instruments

end Symex
