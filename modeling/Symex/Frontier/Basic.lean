import Symex.Data.Take
import Symex.Frontier.Score
import Symex.Frontier.Walk
import Symex.Random.Dice
import Symex.Settings
import Symex.Stats.Instruments

/-!
# Frontiers

A frontier holds the states that are still to be explored, and a policy says which one is next. Whatever the
policy, a frontier gives back exactly what was put into it: `toList` lists what it holds, and every pick and every
removal takes one state out of that list.
-/

namespace Symex

/-! ### Rankings -/

/-- What makes one state more urgent than another. -/
inductive Ranking where
  /-- Few links from code that is not covered. -/
  | distance
  /-- Entered through a link that was rarely used. -/
  | visits
  /-- Few branches taken. -/
  | depth
  /-- Entered through a covering link, and next to that the distance. -/
  | fresh
  deriving DecidableEq, Inhabited

namespace Ranking

def ofStrategy : Strategy → Ranking
  | .distance => distance
  | .visits => visits

def rank (i : Instruments) (s : State) : Ranking → Rank
  | distance => i.distance s.location
  | visits => .finite ((s.edge.map i.visitsOf).getD 0)
  | depth => .finite s.depth
  | fresh => if s.edge.any i.isCovering then .finite 0 else (i.distance s.location).next

/-- Whether the first state is strictly more urgent than the second. -/
def below (r : Ranking) (i : Instruments) (s t : State) : Bool := (r.rank i s).lt (r.rank i t)

end Ranking

/-! ### Batches -/

/-- Which batch of states comes first. -/
inductive Order where
  | oldest
  | newest
  deriving DecidableEq, Inhabited

/-- States that came together and are still there, of which there is at least one. -/
structure Batch where
  first : State
  others : List State := []

namespace Batch

def toList (b : Batch) : List State := b.first :: b.others

/-- The batch of some states, if there are any. -/
def ofList? : List State → Option Batch
  | [] => none
  | s :: ss => some ⟨s, ss⟩

def size (b : Batch) : Nat := b.others.length + 1

end Batch

namespace Batches

/-- Puts what is left of a batch in front, unless nothing is. -/
def restore (rest : List State) (bs : List Batch) : List Batch := (Batch.ofList? rest).toList ++ bs

/-- Takes the most urgent state of the first batch. -/
def pick (below : State → State → Bool) : List Batch → Option (State × List Batch)
  | [] => none
  | b :: bs => (takeLeast below b.toList).map fun r => (r.1, restore r.2 bs)

/-- Takes a state by its number, out of the first batch that has it. -/
def remove (id : Nat) : List Batch → Option (State × List Batch)
  | [] => none
  | b :: bs =>
    match takeFirst (·.id == id) b.toList with
    | some r => some (r.1, restore r.2 bs)
    | none => (remove id bs).map fun r => (r.1, b :: r.2)

end Batches

/-! ### Frontiers -/

inductive Frontier where
  /-- Batches in the order in which they came, taken from one end; within a batch the ranking decides. -/
  | queue (order : Order) (ranking : Ranking) (batches : List Batch)
  /-- The most urgent state, the earliest of equals. -/
  | ranked (ranking : Ranking) (states : List State)
  /-- Any state, all equally likely. -/
  | uniform (dice : Dice) (states : List State)
  /-- The end of a walk down the fork tree. -/
  | walk (dice : Dice) (states : List State)
  /-- Any state, with a weight that falls with its rank. -/
  | weighted (ranking : Ranking) (dice : Dice) (states : List State)
  /-- The state with the best score, then the least distance, then the earliest. States that turned out
  infeasible are counted and stay. -/
  | scored (scorer : Scorer) (entries : List (Score × State)) (infeasible : Nat)

namespace Frontier

def name : Frontier → String
  | queue .oldest _ _ => "bfs"
  | queue .newest _ _ => "dfs"
  | ranked .distance _ => "minimal-distance"
  | ranked _ _ => "visit-counting"
  | uniform _ _ => "random"
  | walk _ _ => "random-path"
  | weighted .depth _ _ => "depth"
  | weighted .fresh _ _ => "covered-new"
  | weighted _ _ _ => "rp"
  | scored _ _ _ => "scoring"

/-- What the frontier holds. -/
def toList : Frontier → List State
  | queue _ _ bs => bs.flatMap Batch.toList
  | ranked _ ss => ss
  | uniform _ ss => ss
  | walk _ ss => ss
  | weighted _ _ ss => ss
  | scored _ es _ => es.map (·.2)

def size : Frontier → Nat
  | queue _ _ bs => (bs.map Batch.size).foldr (· + ·) 0
  | ranked _ ss => ss.length
  | uniform _ ss => ss.length
  | walk _ ss => ss.length
  | weighted _ _ ss => ss.length
  | scored _ es _ => es.length

/-- How many states were found infeasible, if the frontier scores them. -/
def infeasible? : Frontier → Option Nat
  | scored _ _ n => some n
  | _ => none

/-- How many states had to be judged. -/
def judged : Frontier → Nat
  | scored sc _ _ => sc.judged
  | _ => 0

/-- Adds a state. -/
def push (f : Frontier) (s : State) : Except Fault Frontier :=
  match f with
  | queue o r bs => .ok (queue o r (bs ++ [{ first := s }]))
  | ranked r ss => .ok (ranked r (ss ++ [s]))
  | uniform d ss => .ok (uniform d (ss ++ [s]))
  | walk d ss => .ok (walk d (ss ++ [s]))
  | weighted r d ss => .ok (weighted r d (ss ++ [s]))
  | scored sc es n => do
    let (v, sc) ← sc.score s
    return scored sc (es ++ [(v, s)]) (if v = .infeasible then n + 1 else n)

/-- Adds the children of one state, which form a batch. -/
def pushAll (f : Frontier) (ss : List State) : Except Fault Frontier :=
  match f with
  | queue o r bs => .ok (queue o r (bs ++ (Batch.ofList? ss).toList))
  | f => ss.foldlM push f

/-- The weight of a state falls with its rank. -/
def weight (i : Instruments) (r : Ranking) (s : State) : Float := 1.0 / (1.0 + (r.rank i s).toFloat)

/-- Whether the first entry comes before the second whatever their age. -/
def scoreBelow (i : Instruments) (x y : Score × State) : Bool :=
  x.1.value.lt y.1.value ||
    x.1.value == y.1.value && (i.distance x.2.location).lt (i.distance y.2.location)

/-- Takes the next state. -/
def pick (i : Instruments) : Frontier → Option (State × Frontier)
  | queue .oldest r bs => (Batches.pick (r.below i) bs).map fun x => (x.1, queue .oldest r x.2)
  | queue .newest r bs => (Batches.pick (r.below i) bs.reverse).map fun x => (x.1, queue .newest r x.2.reverse)
  | ranked r ss => (takeLeast (r.below i) ss).map fun x => (x.1, ranked r x.2)
  | uniform d ss =>
    if ss.isEmpty then none
    else
      let (k, d) := d.below ss.length
      (takeAt k ss).map fun x => (x.1, uniform d x.2)
  | walk d ss =>
    let (r, d) := Walk.take Dice.below State.trail ss d
    r.map fun x => (x.1, walk d x.2)
  | weighted r d ss =>
    if ss.isEmpty then none
    else
      let (k, d) := d.among (ss.map (weight i r))
      (takeAt k ss).map fun x => (x.1, weighted r d x.2)
  | scored sc es n => (takeLeast (scoreBelow i) es).map fun x => (x.1.2, scored sc x.2 n)

/-- Takes a state by its number. -/
def remove (id : Nat) : Frontier → Option (State × Frontier)
  | queue o r bs => (Batches.remove id bs).map fun x => (x.1, queue o r x.2)
  | ranked r ss => (takeFirst (·.id == id) ss).map fun x => (x.1, ranked r x.2)
  | uniform d ss => (takeFirst (·.id == id) ss).map fun x => (x.1, uniform d x.2)
  | walk d ss => (takeFirst (·.id == id) ss).map fun x => (x.1, walk d x.2)
  | weighted r d ss => (takeFirst (·.id == id) ss).map fun x => (x.1, weighted r d x.2)
  | scored sc es n => (takeFirst (·.2.id == id) es).map fun x => (x.1.2, scored sc x.2 n)

end Frontier

end Symex
