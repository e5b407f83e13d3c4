import Symex.Plan.Draft

/-!
# The agenda

The drafts still to be looked at, those with the fewest calls first and the oldest of equals first. A draft with
more calls than the depth allows is not taken up, only counted.
-/

namespace Symex

structure Agenda where
  depth : Nat
  /-- The drafts with their numbers of calls, in order. -/
  entries : List (Nat × Draft) := []
  /-- How many drafts had too many calls. -/
  pruned : Nat := 0

namespace Agenda

def size (a : Agenda) : Nat := a.entries.length

def isEmpty (a : Agenda) : Bool := a.entries.isEmpty

/-- Inserts a draft behind all that have as few calls. -/
def insert (n : Nat) (d : Draft) : List (Nat × Draft) → List (Nat × Draft)
  | [] => [(n, d)]
  | e :: es => if n < e.1 then (n, d) :: e :: es else e :: insert n d es

/-- Takes up a draft, unless it has too many calls. -/
def push (a : Agenda) (d : Draft) : Except Fault (Bool × Agenda) := do
  let n ← d.calls
  if a.depth < n then return (false, { a with pruned := a.pruned + 1 })
  else return (true, { a with entries := insert n d a.entries })

def pushAll (a : Agenda) (ds : List Draft) : Except Fault Agenda :=
  ds.foldlM (fun a d => do return (← a.push d).2) a

/-- The agenda with one draft. -/
def start (d : Draft) (depth : Nat) : Except Fault Agenda := do return (← push { depth } d).2

/-- Takes the next draft and puts its refinements in. -/
def next (a : Agenda) (c : Catalog) : Except Fault (Option (Draft × Agenda)) :=
  match a.entries with
  | [] => .ok none
  | (_, d) :: es => do
    let a ← { a with entries := es }.pushAll (← d.refine c)
    return some (d, a)

end Agenda

end Symex
