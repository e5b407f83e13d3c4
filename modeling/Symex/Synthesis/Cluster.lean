import Symex.Data.Forest
import Symex.Model.Store

/-!
# Clusters

Roots that speak about each other have to be made together. The positions of roots are united in a forest wherever one
mentions another. The clusters are its classes, as lists of positions, each in order and ordered by their first
position.
-/

namespace Symex.Cluster

/-- Whether a model aliases another one, or has an atom about its term. -/
def mentions (targets : Store) (a b : Handle) : Except Fault Bool := do
  let m ← targets.get a
  let same ← match m with
    | .sameAs _ t => do return (← targets.deref t) = b
    | _ => .ok false
  if same then return true
  let v := (← targets.get b).term
  return (m.atoms?.map fun as => as.toList.any (·.mentions v)).getD false

/-- All pairs of positions below `n`. -/
def pairs (n : Nat) : List (Fin n × Fin n) :=
  (List.finRange n).flatMap fun i => (List.finRange n).map fun j => (i, j)

/-- Unites two positions if the root at the first mentions the one at the second. -/
def link (targets : Store) (roots : List Handle) (f : Forest roots.length)
    (p : Fin roots.length × Fin roots.length) : Except Fault (Forest roots.length) := do
  if p.1 = p.2 then return f
  if ← mentions targets (roots.get p.1) (roots.get p.2) then return (Forest.union p.1 p.2 f).2
  return f

/-- The positions of a list of roots, united where one mentions another. -/
def linkAll (targets : Store) (roots : List Handle) : Except Fault (Forest roots.length) :=
  (pairs roots.length).foldlM (link targets roots) (Forest.discrete roots.length)

/-- Adds a position to the cluster of its leader; a leader without a cluster begins the last one. -/
def file (leader i : Nat) : List (Nat × List Nat) → List (Nat × List Nat)
  | [] => [(leader, [i])]
  | (l, c) :: cs => if l = leader then (l, c ++ [i]) :: cs else (l, c) :: file leader i cs

/-- Adds positions to the clusters of the roots above them. -/
def fileAll {n : Nat} (is : List (Fin n)) : StateM (Forest n) (List (Nat × List Nat)) :=
  is.foldlM (fun cs i => return file (← Forest.find i) i cs) []

/-- The positions by class. -/
def gather {n : Nat} (f : Forest n) : List (List Nat) := (fileAll (List.finRange n) f).1.map (·.2)

/-- The clusters of a list of roots. -/
def partition (targets : Store) (roots : List Handle) : Except Fault (List (List Nat)) := do
  return gather (← linkAll targets roots)

end Symex.Cluster
