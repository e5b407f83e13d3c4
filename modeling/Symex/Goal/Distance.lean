import Symex.Frontier.Score
import Symex.Resolve.Basic
import Symex.Solver.Basic

/-!
# The distance to the targets

How far a state is from the models that are wanted: a target whose local is missing counts one, a model of another
kind, value or length counts one, and so does every atom of an object target that is false of what was found.
-/

namespace Symex.Goal

/-- A model that is wanted in a local. -/
structure Binding where
  target : Handle
  name : String
  deriving DecidableEq, Inhabited

def mismatch (b : Bool) : Nat := if b then 0 else 1

/-- One for a difference in kind, value or length, else zero. -/
def modelDistance (targets : Store) (t : Handle) (found : Store) (h : Handle) : Except Fault Nat := do
  let wanted ← targets.derefModel t
  let actual ← found.derefModel h
  match wanted, actual with
  | .null _, .null _ => return 0
  | .primitive _ v _, .primitive _ w _ => return mismatch (v = w)
  | .object _ _, .object _ _ => return 0
  | .assembly _ _ _, .object _ _ => return 0
  | .container k c, .container l e =>
    if k = l then
      let n ← targets.get c.length
      let m ← found.get e.length
      return mismatch (n.value? = m.value?)
    else return 1
  | _, _ => return 1

/-- The number of atoms of an object target that are false of the model found, in the heap of `s`. -/
def violations (targets : Store) (t : Handle) (found : Store) (h : Handle) (s : State) (m : Assignment) :
    Except Fault Nat := do
  match ← targets.derefModel t with
  | .object v atoms =>
    let actual ← found.get h
    let names : Term.Renaming := Table.ofList [(v, actual.term)]
    return (atoms.toList.filter fun a => m.holds (s.memory.readAtom (a.substitute names)) = some false).length
  | _ => return 0

/-- The sum of distances and violations over the bindings of locals that there are. -/
def distanceOf (settings : Settings) (targets : Store) (bindings : List Binding) (s : State) (m : Assignment) :
    Except Fault Nat := do
  let bound := bindings.filterMap fun b => (s.find? b.name).map fun v => (b.target, v)
  let r := Resolve.resolve settings s m .current (bound.map (·.2))
  let parts ← ((bound.map (·.1)).zip r.params).mapM fun (t, h) => do
    let d ← modelDistance targets t r.store h
    let n ← violations targets t r.store h s m
    return d + n
  return (bindings.length - bound.length) + parts.foldr (· + ·) 0

/-- Judges a state by its distance to the targets. -/
def judge (settings : Settings) (limit : Nat) (targets : Store) (bindings : List Binding) (s : State) :
    Except Fault Score :=
  match Solver.check limit s.path false with
  | none => .ok .infeasible
  | some m => do return .feasible (.ofNat (← distanceOf settings targets bindings s m))

/-- The scorer that prefers states close to the targets. -/
def scorer (settings : Settings) (limit : Nat) (targets : Store) (bindings : List Binding) : Scorer :=
  { judge := judge settings limit targets bindings }

end Symex.Goal
