import Symex.Model.Store
import Symex.State.Basic

/-!
# Goals

What must be true at the end of a probe for its roots to be as the targets say, as atoms over the heap before the
call. The terms of the targets are renamed to the values of the locals, and heap reads go through the writes that
were made.
-/

namespace Symex

structure Goal where
  targets : Store
  roots : List Handle
  /-- For each root the local with its value. -/
  locals : List String

namespace Goal

/-- A goal needs as many locals as roots. -/
def make (targets : Store) (roots : List Handle) (locals : List String) : Except Fault Goal :=
  if roots.length = locals.length then .ok ⟨targets, roots, locals⟩
  else .error (.unpairedRoots roots.length locals.length)

/-- The atoms for one root, whose local has the value `v`. -/
def rootAtoms (g : Goal) (names : Term.Renaming) (values : List Term) (v : Term) (m : Model) :
    Except Fault (List Atom) :=
  let renamed := (m.atoms?.map (·.toList)).getD [] |>.map (·.substitute names)
  match m with
  | .null _ => .ok [.eq v .null]
  | .sameAs _ t => do
    let t ← g.targets.deref t
    return (((g.roots.zip values).find? (·.1 = t)).map fun e => [Atom.eq v e.2]).getD []
  | .primitive _ _ _ => .ok renamed
  | .object _ _ | .container _ _ | .assembly _ _ _ => .ok (.ne v .null :: renamed)

/-- The atoms for a state, or none if a local is not bound. -/
def atoms (g : Goal) (s : State) : Except Fault (Option (List Atom)) :=
  match g.locals.mapM fun x => (s.find? x).map Sym.term with
  | none => .ok none
  | some values => do
    let models ← g.roots.mapM g.targets.get
    let names : Term.Renaming := Table.ofList ((models.map Model.term).zip values)
    let parts ← (values.zip models).mapM fun (v, m) => g.rootAtoms names values v m
    return some (parts.flatten.map s.memory.readAtom)

end Goal

end Symex
