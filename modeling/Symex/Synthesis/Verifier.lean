import Symex.Explore.Basic
import Symex.Frontier.Build
import Symex.Goal.Basic
import Symex.Goal.Distance
import Symex.Machine.Basic
import Symex.Probe.Assemble
import Symex.Probe.Lower

/-!
# Verifying drafts

A complete draft is verified by running its probe: the states close to the targets first, until one has returned
whose path can be satisfied together with the goal. That path gives the parameters values, and these give the
models of the roots.

Time is counted in rounds, of searches and explorations alike: whether a deadline has passed is asked once in each.
-/

namespace Symex

/-- What synthesis works with. -/
structure Workshop where
  settings : Settings := {}
  /-- The budget of a check. -/
  limit : Nat := Solver.defaultLimit
  machine : Machine := {}

/-- What verifications have used up so far. -/
structure Verifier where
  /-- The probes that were run. -/
  probes : List Probe := []
  /-- Statements run. -/
  steps : Nat := 0
  /-- Checks made. -/
  checks : Nat := 0
  /-- The time: how many rounds were made. -/
  clock : Nat := 0

/-- One round later. -/
def Verifier.tick (v : Verifier) : Verifier := { v with clock := v.clock + 1 }

/-- A returned state with the goal assumed, and an assignment that satisfies it. -/
structure Witness where
  state : State
  assignment : Assignment

/-- What the ends of a probe have given: a witness, and the number of checks made for it. -/
structure Ends where
  witness : Option Witness := none
  checks : Nat := 0

namespace Workshop

/-- Looks at a state at its end: it is a witness if it has returned and the goal can be satisfied. -/
def visit (w : Workshop) (g : Goal) (s : State) (e : Ends) : Except Fault (Ends × Bool) :=
  if s.status ≠ .returned then .ok (e, false)
  else do
    match ← g.atoms s with
    | none => return (e, false)
    | some atoms =>
      let s := { s with path := atoms.foldl Path.addHard s.path }
      match Solver.check w.limit s.path false with
      | some m => return ({ witness := some ⟨s, m⟩, checks := e.checks + 1 }, true)
      | none => return ({ e with checks := e.checks + 1 }, false)

/-- The exploration of a probe, before its first state. -/
def progress (w : Workshop) (d : Draft) (p : Probe) : Except BuildError (Explore.Progress Ends) := do
  let bindings := (d.roots.zip p.locals).map fun (h, x) => Goal.Binding.mk h x
  let scorer := Goal.scorer w.settings w.limit d.targets bindings
  let (selector, instruments) ←
    Instruments.buildScoring { graph := p.graph } scorer (.forProbe w.settings)
  return { selector, instruments, nextId := 1, result := {} }

/-- Runs a probe, until the deadline passes if there is one. -/
def explore (w : Workshop) (p : Probe) (g : Goal) (time : Option Nat) (x : Explore.Progress Ends) :
    Except Fault (Explore.Progress Ends) := do
  let setup : Explore.Setup Ends := { limit := w.limit, step := w.machine.step p, visit := w.visit g }
  let (x, _) ← x.run setup (time.getD (x.rounds w.machine.degree)) (Machine.enter p 0)
  return x

/-- The models of the roots, if a witness was found. -/
def models (w : Workshop) (p : Probe) (e : Ends) : Except Fault (Option (Store × List Handle)) :=
  match e.witness with
  | none => .ok none
  | some t => do
    let r := Resolve.resolve w.settings t.state t.assignment .initial t.state.inputs
    return some (← p.assemble r.store r.params)

/-- Verifies a draft. The time is what is left until the deadline, if there is one. -/
def verify (w : Workshop) (d : Draft) (time : Option Nat) (v : Verifier) :
    Except Fault (Option (Store × List Handle) × Verifier) := do
  if !(← d.isComplete) then return (none, v)
  let p ← d.probe ("$initializer_" ++ toString v.probes.length)
  let g ← Goal.make d.targets d.roots p.locals
  match w.progress d p with
  | .error _ => return (none, v)
  | .ok x =>
    let x ← w.explore p g time x
    let v : Verifier :=
      { probes := v.probes ++ [p]
        steps := v.steps + (x.tally.steps - x.tally.terminated)
        checks := v.checks + x.tally.checks + x.selector.judged + x.result.checks
        clock := v.clock + x.tally.rounds }
    return (← w.models p x.result, v)

end Workshop

end Symex
