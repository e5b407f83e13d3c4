import Symex.Data.Memo
import Symex.Model.Fault
import Symex.State.Basic
import Symex.Stats.Rank

/-!
# Scores

A score says how far a state is from what is wanted, or that no run reaches it. A scorer remembers its verdicts by
the number of the state, so a state is judged once however often it is scored.
-/

namespace Symex

inductive Score where
  | feasible (rank : Rank)
  /-- The path of the state cannot be satisfied. -/
  | infeasible
  deriving DecidableEq, Inhabited

/-- An infeasible state has the worst rank. -/
def Score.value : Score → Rank
  | feasible r => r
  | infeasible => .worst

structure Scorer where
  judge : State → Except Fault Score
  /-- The verdicts so far. Its misses are the states that had to be judged. -/
  known : Memo Nat Score := {}

namespace Scorer

instance : Inhabited Scorer := ⟨{ judge := fun _ => .ok .infeasible }⟩

/-- The verdict on a state, from memory if there is one. -/
def score (sc : Scorer) (s : State) : Except Fault (Score × Scorer) :=
  match sc.known.get s.id with
  | (some v, known) => .ok (v, { sc with known })
  | (none, known) => do
    let v ← sc.judge s
    return (v, { sc with known := known.insert s.id v })

/-- How many states had to be judged. -/
def judged (sc : Scorer) : Nat := sc.known.misses

end Scorer

end Symex
