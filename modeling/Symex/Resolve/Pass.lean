import Symex.Model.Store
import Symex.Resolve.Heap
import Symex.Settings
import Symex.State.Basic

/-!
# Passes

A pass resolves values against one snapshot of a state. It knows the atoms that hold in the snapshot and which of
their terms denote which address; while it works it builds models, remembers the handle of each address it has
met, makes up index variables, and keeps a record of the references it has answered.
-/

namespace Symex.Resolve

/-- What does not change during a pass. -/
structure Pass where
  settings : Settings
  current : Bool
  heap : Heap
  /-- The atoms that hold in the snapshot. -/
  atoms : List Atom
  /-- The reference terms of the atoms, constants apart, with their addresses. -/
  named : List (Address × Term)
  /-- More than the number of addresses that the path, the writes and the assignment can bring up. -/
  bound : Nat

/-- What a pass builds. -/
structure Work where
  store : Store := {}
  /-- The handle of every address met so far. -/
  known : Table Address Handle := {}
  standIns : StandIns := {}
  /-- The references answered so far, the last one first: the address, if there is one, and the handle. -/
  answers : List (Option Address × Handle) := []

namespace Work

def alloc (w : Work) (m : Model) : Handle × Work :=
  let (h, store) := w.store.alloc m
  (h, { w with store })

/-- Answers a reference with a model that is complete. -/
def answer (w : Work) (a : Option Address) (m : Model) : Handle × Work :=
  let (h, store) := w.store.alloc m
  (h, { w with store, answers := (a, h) :: w.answers })

/-- Answers the first reference to an address with a slot that is set aside for its model. -/
def reserve (w : Work) (a : Address) : Handle × Work :=
  let (h, store) := w.store.reserve
  (h, { w with store, known := w.known.insert a h, answers := (some a, h) :: w.answers })

def fill (w : Work) (h : Handle) (m : Model) : Work := { w with store := w.store.fill h m }

/-- The concrete index or length in a model. -/
def index? (w : Work) (h : Handle) : Option Nat := ((w.store.get? h).bind Model.value?).bind Value.index?

end Work

/-- Whether an atom reads a place that is overwritten. -/
def overwritten (h : Heap) (a : Atom) : Bool :=
  a.terms.any fun t => match h.place t with
    | some p => h.writes.contains p
    | none => false

/-- The atoms after the call: those that read nothing overwritten, and one for the latest write at each place. -/
def currentAtoms (h : Heap) (path : List Atom) (latest : List (Place × Write)) : List Atom :=
  latest.foldl (fun as e => Path.addTo as (.eq e.2.location e.2.value)) (path.filter fun a => !overwritten h a)

/-- Terms that denote an address, with the address. -/
def nameTerms (eval : Term → Option Value) (ts : List Term) : List (Address × Term) :=
  (ts.filter fun t => t.isReference && !t.isConst).eraseDups.filterMap fun t =>
    ((eval t).bind Value.addr?).map fun a => (a, t)

namespace Pass

/-- Prepares a pass over a snapshot of `s`. -/
def start (settings : Settings) (s : State) (m : Assignment) (snapshot : Snapshot) : Pass :=
  let path := s.path.atoms settings.useSoft
  let reads := Heap.withReads { assignment := m } (path.flatMap Atom.terms)
  let latest := reads.latest s.memory.writes
  let heap := reads.withWrites latest
  let current := snapshot == .current
  let atoms := if current then currentAtoms heap path latest else path
  let eval := if current then heap.after {} else heap.before {}
  { settings, current, heap, atoms
    named := nameTerms eval (atoms.flatMap Atom.terms)
    bound := m.size + (path.flatMap Atom.terms).length
      + (s.memory.writes.flatMap fun w => w.location.subterms ++ w.value.subterms).length + 1 }

/-- The value of a term in the snapshot. -/
def eval (p : Pass) (w : Work) (t : Term) : Option Value :=
  if p.current then p.heap.after w.standIns t else p.heap.before w.standIns t

def address? (p : Pass) (w : Work) (t : Term) : Option Address := (p.eval w t).bind Value.addr?

def index? (p : Pass) (w : Work) (t : Term) : Option Nat := (p.eval w t).bind Value.index?

/-- The terms of the atoms that denote `a`. -/
def aliases (p : Pass) (a : Address) : List Term := (p.named.filter (·.1 = a)).map (·.2)

/-- The atoms that mention one of the terms. -/
def about (p : Pass) (ts : List Term) : List Atom := p.atoms.filter fun a => a.mentionsAny ts

/-- The model of a primitive term, with those atoms of `scope` that mention it. -/
def primitive (p : Pass) (w : Work) (t : Term) (scope : List Atom) : Handle × Work :=
  w.alloc (.primitive t ((p.eval w t).getD (.default t.ty)) (.ofList (scope.filter fun a => a.mentions t)))

end Pass

end Symex.Resolve
