import Symex.Frontier.Selector
import Symex.Solver.Basic

/-!
# Exploration

The loop around an engine. In every round the selector picks a state; a state that assumed something since it was
last checked is dropped if that cannot be satisfied; a state at its end is handed to the caller; any other is
stepped, its links are reported and its children are pushed.

A deadline is a number of rounds. `rounds` gives a number that an exploration with a step limit cannot use up.
-/

namespace Symex.Explore

/-- Counts of one exploration. -/
structure Tally where
  /-- States picked and found feasible. -/
  steps : Nat := 0
  /-- Steps with more than one child. -/
  forks : Nat := 0
  /-- States dropped because they were infeasible. -/
  dropped : Nat := 0
  /-- States handed to the caller. -/
  terminated : Nat := 0
  /-- The numbers of the states picked and found feasible, in order. -/
  visited : List Nat := []
  /-- Checks made. -/
  checks : Nat := 0
  deriving DecidableEq, Inhabited

/-- The rounds that were made: in each of them a state was stepped, handed over or dropped. -/
def Tally.rounds (t : Tally) : Nat := t.steps + t.dropped

/-- Why an exploration ended. -/
inductive Ending where
  /-- The step limit was used up. -/
  | stopped
  /-- The deadline passed. -/
  | late
  /-- No state was left. -/
  | exhausted
  /-- The caller had enough. -/
  | satisfied
  deriving DecidableEq, Inhabited

/-- What an exploration is run with. -/
structure Setup (α : Type) where
  /-- The budget of a check. -/
  limit : Nat := Solver.defaultLimit
  /-- The children of a state, numbered from a given number on, and the next free number. -/
  step : Nat → State → List State × Nat
  /-- Takes a state at its end, and says whether that is enough. -/
  visit : State → α → Except Fault (α × Bool)

/-- An exploration in progress. -/
structure Progress (α : Type) where
  selector : Selector
  instruments : Instruments
  /-- The number of the next state. -/
  nextId : Nat := 0
  tally : Tally := {}
  /-- What the caller has gathered. -/
  result : α

namespace Progress

variable {α : Type}

def shouldStop (x : Progress α) : Bool := x.selector.shouldStop x.instruments

/-- Reports links through the selector. -/
def traverse (x : Progress α) (es : List Edge) : Progress α :=
  { x with instruments := es.foldl (fun i e => x.selector.traverse e i) x.instruments }

/-- Drops an infeasible state. -/
def drop (x : Progress α) : Progress α := { x with tally := { x.tally with dropped := x.tally.dropped + 1 } }

/-- Counts a feasible state. -/
def enter (x : Progress α) (s : State) : Progress α :=
  { x with tally := { x.tally with steps := x.tally.steps + 1, visited := x.tally.visited ++ [s.id] } }

/-- Hands a state at its end to the caller. -/
def finish (p : Setup α) (x : Progress α) (s : State) : Except Fault (Progress α × Option Ending) := do
  let (result, enough) ← p.visit s x.result
  let x := { x with result, tally := { x.tally with terminated := x.tally.terminated + 1 } }
  return (x, if enough then some .satisfied else none)

/-- Replaces a state by its children. -/
def expand (p : Setup α) (x : Progress α) (s : State) : Except Fault (Progress α) := do
  let (children, nextId) := p.step x.nextId s
  let forks := if 1 < children.length then x.tally.forks + 1 else x.tally.forks
  let x := { x with nextId, tally := { x.tally with forks } }
  let x := x.traverse (children.filterMap (·.edge))
  return { x with selector := ← x.selector.pushAll children }

/-- Goes on with a state that is known to be feasible. -/
def advance (p : Setup α) (x : Progress α) (s : State) : Except Fault (Progress α × Option Ending) :=
  let x := x.enter s
  if s.isTerminal then x.finish p s
  else do
    return (← x.expand p s, none)

/-- One round, with the reason if it was the last one. -/
def round (p : Setup α) (x : Progress α) : Except Fault (Progress α × Option Ending) :=
  match x.selector.pick x.instruments with
  | none => .ok (x, some .exhausted)
  | some (s, selector) =>
    let x := { x with selector }
    if s.pending then
      let x := { x with tally := { x.tally with checks := x.tally.checks + 1 } }
      if Solver.feasible p.limit s.path then x.advance p { s with pending := false } else .ok (x.drop, none)
    else x.advance p s

/-- Rounds until there is a reason to end, at most as many as fit before the deadline. -/
def loop (p : Setup α) : Nat → Progress α → Except Fault (Progress α × Ending)
  | 0, x => .ok (x, if x.shouldStop then .stopped else .late)
  | n + 1, x =>
    if x.shouldStop then .ok (x, .stopped)
    else do
      match ← x.round p with
      | (x, some why) => return (x, why)
      | (x, none) => loop p n x

/-- Explores from a state on. -/
def run (p : Setup α) (rounds : Nat) (x : Progress α) (initial : State) :
    Except Fault (Progress α × Ending) := do
  let selector ← x.selector.push initial
  loop p rounds { x with selector }

/-- More rounds than can be made before the step limit is used up or no state is left, if no step has more than
`degree` children and each of them came over a link. -/
def rounds (x : Progress α) (degree : Nat) : Nat :=
  let left := (x.instruments.limits[x.selector.wiring.limit]?.map fun l => l.limit + 1 - l.steps).getD 0
  x.selector.load + x.selector.frontiers.length * (left + degree + 1) + 1

end Progress

end Symex.Explore
