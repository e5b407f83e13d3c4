import Symex.Program.Graph
import Symex.State.Memory
import Symex.State.Path

/-!
# States

A node of the exploration tree: where it stands, which branches led to it, what it assumes, what it has written
and what its locals hold.
-/

namespace Symex

inductive Status where
  | running
  | returned
  | thrown
  deriving DecidableEq, Inhabited

namespace Status

def name : Status → String
  | running => "running"
  | returned => "returned"
  | thrown => "thrown"

/-- Reads the name of a status. -/
def ofName? (s : String) : Option Status := [running, returned, thrown].find? (·.name = s)

end Status

structure State where
  id : Nat := 0
  location : Nat := 0
  /-- The link through which the state was entered. -/
  edge : Option Edge := none
  /-- The branch numbers taken from the root of the tree. -/
  trail : List Nat := []
  /-- The locals of the running method, if one is running. -/
  frame : Option (OrderedTable String Sym) := none
  memory : Memory := {}
  path : Path := {}
  /-- What the parameters held before the call. -/
  inputs : List Sym := []
  status : Status := .running
  /-- Whether atoms were added since the path was last found feasible. -/
  pending : Bool := false
  deriving DecidableEq, Inhabited

namespace State

/-- The child along `branch`, moved to location `to`. -/
def fork (s : State) (id branch target : Nat) : State :=
  { s with
    id
    edge := some ⟨s.location, target⟩
    location := target
    trail := s.trail ++ [branch]
    pending := false }

def depth (s : State) : Nat := s.trail.length

def isTerminal (s : State) : Bool := s.status != .running

/-- Assumes an atom from here on. -/
def assume (s : State) (a : Atom) : State := { s with path := s.path.addHard a, pending := true }

def write (s : State) (w : Write) : State := { s with memory := s.memory.write w }

/-- What a local holds. -/
def find? (s : State) (name : String) : Option Sym := s.frame.bind (·.find? name)

/-- Binds a local, if a method is running. -/
def bind? (s : State) (name : String) (v : Sym) : Option State :=
  s.frame.map fun f => { s with frame := some (f.insert name v) }

def render (s : State) : String :=
  "s" ++ toString s.id ++ "@L" ++ toString s.location ++ " (depth " ++ toString s.depth ++ ")"

@[simp] theorem hard_assume (s : State) (a : Atom) : (s.assume a).path.hard = Path.addTo s.path.hard a := rfl

theorem find?_bind? {s t : State} {name other : String} {v : Sym} (h : s.bind? name v = some t) :
    t.find? other = if other = name then some v else s.find? other := by
  cases hf : s.frame with
  | none => simp [bind?, hf] at h
  | some f =>
    have ht : t = { s with frame := some (f.insert name v) } := by simpa [bind?, hf] using h.symm
    simp [ht, find?, hf]

end State

end Symex
