import Symex.Data.Table
import Symex.Model.Store
import Symex.Plan.Catalog

/-!
# Drafts

A draft plans the values of some roots together. A model without a plan of its own has the plan that it suggests
itself: a hole for an object, the container for a container, the other root for an alias of one. Plans of nested
models are found through the containers that hold them.

Containers that contain each other without end have no finite plan; following them is a fault.
-/

namespace Symex

structure Draft where
  targets : Store := {}
  roots : List Handle := []
  /-- The plans that were decided on. -/
  plans : Table Handle Plan := {}

namespace Draft

/-- The plan that a model suggests. -/
def suggested (d : Draft) (h : Handle) : Except Fault Plan := do
  match ← d.targets.get h with
  | .null t => return .null t.ty
  | .primitive t _ _ => return .hole t.ty
  | .object t _ => return .hole t.ty
  | .assembly t _ _ => return .hole t.ty
  | .container k c => return .container k c.term.ty c.length c.entries
  | .sameAs t target =>
    let target ← d.targets.deref target
    match d.roots.findIdx? (· = target) with
    | some i => return .root t.ty i
    | none => return .hole t.ty

/-- The plan for a model. -/
def plan (d : Draft) (h : Handle) : Except Fault Plan :=
  match d.plans.find? h with
  | some p => .ok p
  | none => d.suggested h

/-- The draft with another plan for one model. -/
def decide (d : Draft) (h : Handle) (p : Plan) : Draft := { d with plans := d.plans.insert h p }

/-- The plans for the roots. -/
def rootPlans (d : Draft) : Except Fault (List Plan) := d.roots.mapM d.plan

/-- More containers than can be inside each other without one of them coming twice. -/
def nesting (d : Draft) : Nat := d.targets.size + d.plans.size + 1

def render (d : Draft) : Except Fault String := do
  return "[" ++ "; ".intercalate ((← d.rootPlans).map Plan.render) ++ "]"

end Draft

/-! ### Whether everything is decided -/

namespace Plan

mutual

/-- Whether no hole is open, where `inside` tells it of the models in a container. -/
def isDefinedVia (inside : Handle → Except Fault Bool) : Plan → Except Fault Bool
  | null _ => .ok true
  | root _ _ => .ok true
  | hole t => .ok t.isPrimitive
  | call _ ps => areDefinedVia inside ps
  | container _ _ n es => (n :: es.flatMap fun e => [e.1, e.2]).allM inside

def areDefinedVia (inside : Handle → Except Fault Bool) : List Plan → Except Fault Bool
  | [] => .ok true
  | p :: ps => do if ← p.isDefinedVia inside then areDefinedVia inside ps else return false

end

end Plan

namespace Draft

def definedWithin (d : Draft) : Nat → Handle → Except Fault Bool
  | 0, h => .error (.endless h)
  | n + 1, h => do (← d.plan h).isDefinedVia (d.definedWithin n)

/-- Whether a plan has no open hole, in itself or in the models of its containers. -/
def isDefined (d : Draft) (p : Plan) : Except Fault Bool := p.isDefinedVia (d.definedWithin d.nesting)

/-- Whether all roots are decided. -/
def isComplete (d : Draft) : Except Fault Bool := d.roots.allM (d.definedWithin (d.nesting + 1))

end Draft

/-! ### The number of calls -/

namespace Plan

mutual

/-- The number of calls, where `inside` counts those for the models in a container. -/
def callsVia (inside : Handle → Except Fault Nat) : Plan → Except Fault Nat
  | null _ => .ok 0
  | root _ _ => .ok 0
  | hole _ => .ok 0
  | call _ ps => do return 1 + (← callsAllVia inside ps)
  | container _ _ _ es => do return (← (es.flatMap fun e => [e.1, e.2]).mapM inside).foldr (· + ·) 0

def callsAllVia (inside : Handle → Except Fault Nat) : List Plan → Except Fault Nat
  | [] => .ok 0
  | p :: ps => do
    let n ← p.callsVia inside
    return n + (← callsAllVia inside ps)

end

end Plan

namespace Draft

def callsWithin (d : Draft) : Nat → Handle → Except Fault Nat
  | 0, h => .error (.endless h)
  | n + 1, h => do (← d.plan h).callsVia (d.callsWithin n)

/-- The number of calls that the draft has decided on. The length of a container is not made by calls. -/
def calls (d : Draft) : Except Fault Nat := do return (← d.roots.mapM (d.callsWithin (d.nesting + 1))).foldr (· + ·) 0

/-! ### Refinement -/

/-- What the first of some models that gives anything gives. -/
def firstSome (give : Handle → Except Fault (List Draft)) : List Handle → Except Fault (List Draft)
  | [] => .ok []
  | h :: hs => do
    match ← give h with
    | [] => firstSome give hs
    | ds => return ds

def refineWithin (d : Draft) (c : Catalog) : Nat → Handle → Except Fault (List Draft)
  | 0, h => .error (.endless h)
  | n + 1, h => do
    match ← d.plan h with
    | .container _ _ l es => firstSome (d.refineWithin c n) (l :: es.flatMap fun e => [e.1, e.2])
    | p => return (p.refine c).map (d.decide h)

/-- The drafts that fill the first open hole. -/
def refine (d : Draft) (c : Catalog) : Except Fault (List Draft) :=
  firstSome (d.refineWithin c (d.nesting + 1)) d.roots

end Draft

end Symex
