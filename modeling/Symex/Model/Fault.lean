import Symex.Model.Basic

/-!
# Faults

The ways in which an operation on models, plans or goals can be refused, with the wording of each.
-/

namespace Symex

inductive Fault where
  /-- A handle to a slot that holds no model, in a store of `size` slots. -/
  | unbuilt (handle : Handle) (size : Nat)
  /-- A slot that holds a model already. -/
  | alreadySet (handle : Handle)
  /-- Aliases that lead from one to the next without end. -/
  | aliasCycle (handle : Handle)
  /-- A position past the end of a list of `length`. -/
  | outOfBounds (length index : Nat)
  /-- As many locals as roots are needed. -/
  | unpairedRoots (roots locals : Nat)
  /-- Containers that contain each other without end. -/
  | endless (handle : Handle)
  deriving DecidableEq, Inhabited

def Fault.message : Fault → String
  | unbuilt h n => "model " ++ h.render ++ " is not built in this arena (size " ++ toString n ++ ")"
  | alreadySet h => "model " ++ h.render ++ " is already set"
  | aliasCycle h => "cycle of ReferenceTo links through " ++ h.render
  | outOfBounds n i => "index out of bounds: the len is " ++ toString n ++ " but the index is " ++ toString i
  | unpairedRoots n m =>
    "assertion `left == right` failed: one probe local per root\n  left: " ++ toString n ++ "\n right: " ++ toString m
  | endless h => "containers nest without end through " ++ h.render

end Symex
