import Symex.Data.Decimal
import Symex.Plan.Agenda
import Symex.Synthesis.Cluster
import Symex.Synthesis.Verifier

/-!
# Synthesis

Finds calls that make values as the targets describe them. The roots are split into clusters; for each cluster the
agenda gives drafts by their number of calls, and the first complete one that is verified wins. A cluster without
a verified draft has no models, which is not a fault.

All clusters of a request have one deadline, a reading of the clock. Once it has passed, nothing more is found.
-/

namespace Symex

/-- A synthesizer between two requests. -/
structure Synthesizer where
  workshop : Workshop := {}
  /-- The methods that drafts may call. -/
  catalog : Catalog := {}
  switch : Switch := {}
  verifier : Verifier := {}
  /-- Clusters searched. -/
  attempts : Nat := 0
  /-- Clusters for which models were found. -/
  successes : Nat := 0

/-- What was found: a model for each root, or none. -/
structure Synthesized where
  store : Store := {}
  models : List (Option Handle) := []

namespace Synthesized

def isComplete (r : Synthesized) : Bool := r.models.all Option.isSome

/-- Copies the models found for a cluster, one for each of its positions. -/
def adopt (source : Store) : List (Nat × Handle) → Copying → List (Option Handle) → Except Fault Synthesized
  | [], c, ms => .ok ⟨c.store, ms⟩
  | (i, h) :: rest, c, ms => do
    let (k, c) ← c.copy source h
    adopt source rest c (ms.set i (some k))

end Synthesized

namespace Synthesizer

/-- The share of clusters that were successful. -/
def successRate (s : Synthesizer) : Float :=
  if s.attempts = 0 then 0.0 else s.successes.toFloat / s.attempts.toFloat

/-- The success rate with four places. -/
def rateText (s : Synthesizer) : String := Decimal.render 4 s.successRate

/-- The success rate in per cent, without places. -/
def percentText (s : Synthesizer) : String := Decimal.render 0 (100.0 * s.successRate)

/-- Goes through the agenda until a draft is verified, nothing is left, or no time is left. Each round takes one unit
of it, and a verification as many as it has rounds. -/
def search (w : Workshop) (c : Catalog) (time : Nat) (a : Agenda) (v : Verifier) :
    Except Fault (Option (Store × List Handle) × Verifier) :=
  match time with
  | 0 => .ok (none, v)
  | time + 1 => do
    match ← a.next c with
    | none => return (none, v)
    | some (d, a) =>
      let v := v.tick
      if ← d.isComplete then
        let (found, v') ← w.verify d (some time) v
        if found.isSome then return (found, v')
        else search w c (time - (v'.clock - v.clock)) a v'
      else search w c time a v
  termination_by time

/-- Searches for one cluster, and takes over what is found. -/
def attempt (s : Synthesizer) (targets : Store) (roots : List Handle) (depth deadline : Nat) (r : Synthesized)
    (cluster : List Nat) : Except Fault (Synthesizer × Synthesized) := do
  let members := cluster.filterMap fun i => roots[i]?
  let agenda ← Agenda.start { targets, roots := members } depth
  let (found, verifier) ← search s.workshop s.catalog (deadline - s.verifier.clock) agenda s.verifier
  let s := { s with verifier, attempts := s.attempts + 1 }
  match found with
  | none => return (s, r)
  | some (store, handles) =>
    let r ← Synthesized.adopt store (cluster.zip handles) { store := r.store } r.models
    return ({ s with successes := s.successes + 1 }, r)

/-- Searches for the clusters in order, all of them before the same deadline. -/
def attemptAll (s : Synthesizer) (targets : Store) (roots : List Handle) (depth deadline : Nat) (r : Synthesized) :
    List (List Nat) → Except Fault (Synthesizer × Synthesized)
  | [] => .ok (s, r)
  | c :: cs => do
    let (s, r) ← s.attempt targets roots depth deadline r c
    attemptAll s targets roots depth deadline r cs

/-- Synthesizes the roots with at most `depth` calls for each cluster, in the given time for all of them. Nothing is
tried while synthesis is suspended. -/
def synthesizeWithin (s : Synthesizer) (targets : Store) (roots : List Handle) (depth time : Nat) :
    Except Fault (Synthesizer × Synthesized) := do
  let r : Synthesized := { models := roots.map fun _ => none }
  if s.switch.enabled then
    s.attemptAll targets roots depth (s.verifier.clock + time) r (← Cluster.partition targets roots)
  else return (s, r)

/-- The rounds that fit into so many milliseconds. A round takes a nanosecond at least. -/
def timeOf (ms : Nat) : Nat := ms * 1000000

/-- Synthesizes the roots within the budgets of the settings. -/
def synthesize (s : Synthesizer) (targets : Store) (roots : List Handle) : Except Fault (Synthesizer × Synthesized) :=
  s.synthesizeWithin targets roots s.workshop.settings.maxDepth (timeOf s.workshop.settings.timeoutMs)

end Synthesizer

end Symex
