import Symex.Frontier.Basic

/-!
# Selectors

A selector is a frontier that is wired to instruments, or several selectors that take turns. In an interleaving
every member holds every state; a state that one member picks is taken out of the others, and traversals are
reported once, through the wiring of the interleaving.
-/

namespace Symex

inductive Selector where
  | single (frontier : Frontier) (wiring : Wiring)
  | interleaved (members : List Selector) (turn : Nat) (wiring : Wiring)

namespace Selector

def name : Selector → String
  | single f _ => f.name
  | interleaved _ _ _ => "interleaved"

def wiring : Selector → Wiring
  | single _ w => w
  | interleaved _ _ w => w

/-- The members of an interleaving. -/
def members? : Selector → Option (List Selector)
  | single _ _ => none
  | interleaved ms _ _ => some ms

/-- How many states were found infeasible, if the selector scores them. -/
def infeasible? : Selector → Option Nat
  | single f _ => f.infeasible?
  | interleaved _ _ _ => none

mutual

/-- The number of states held; of an interleaving, the largest number that a member holds. -/
def size : Selector → Nat
  | single f _ => f.size
  | interleaved ms _ _ => sizeEach ms

def sizeEach : List Selector → Nat
  | [] => 0
  | m :: ms => max m.size (sizeEach ms)

end

mutual

/-- The frontiers that a selector is made of. -/
def frontiers : Selector → List Frontier
  | single f _ => [f]
  | interleaved ms _ _ => frontiersEach ms

def frontiersEach : List Selector → List Frontier
  | [] => []
  | m :: ms => m.frontiers ++ frontiersEach ms

end

/-- The number of states held by all frontiers together. -/
def load (s : Selector) : Nat := (s.frontiers.map Frontier.size).foldr (· + ·) 0

/-- How many states had to be judged by scorers. -/
def judged (s : Selector) : Nat := (s.frontiers.map Frontier.judged).foldr (· + ·) 0

mutual

/-- Adds a state, to every member of an interleaving. -/
def push (s : State) : Selector → Except Fault Selector
  | single f w => do return single (← f.push s) w
  | interleaved ms k w => do return interleaved (← pushEach s ms) k w

def pushEach (s : State) : List Selector → Except Fault (List Selector)
  | [] => .ok []
  | m :: ms => do
    let m ← m.push s
    let ms ← pushEach s ms
    return m :: ms

end

mutual

/-- Adds the children of one state. -/
def pushAll (ss : List State) : Selector → Except Fault Selector
  | single f w => do return single (← f.pushAll ss) w
  | interleaved ms k w => do return interleaved (← pushAllEach ss ms) k w

def pushAllEach (ss : List State) : List Selector → Except Fault (List Selector)
  | [] => .ok []
  | m :: ms => do
    let m ← m.pushAll ss
    let ms ← pushAllEach ss ms
    return m :: ms

end

mutual

/-- Takes a state by its number, out of every member of an interleaving. -/
def remove (id : Nat) : Selector → Option (State × Selector)
  | single f w => (f.remove id).map fun x => (x.1, single x.2 w)
  | interleaved ms k w =>
    let (s, ms) := removeEach id ms
    s.map fun s => (s, interleaved ms k w)

/-- What the first member that had the state gave, and the members without it. -/
def removeEach (id : Nat) : List Selector → Option State × List Selector
  | [] => (none, [])
  | m :: ms =>
    let (s, ms) := removeEach id ms
    match m.remove id with
    | some (t, m) => (some t, m :: ms)
    | none => (s, m :: ms)

end

/-- The positions of `n` members in the order of their turns, beginning with `k`. -/
def turns (n k : Nat) : List Nat := (List.range n).map fun j => (k + j) % n

mutual

/-- Takes the next state; of an interleaving, from the first member in turn that has one. -/
def pick (i : Instruments) : Selector → Option (State × Selector)
  | single f w => (f.pick i).map fun x => (x.1, single x.2 w)
  | interleaved ms k w =>
    let picks := pickEach i ms
    (turns ms.length k).findSome? fun j =>
      (picks[j]?.join).map fun x =>
        (x.1, interleaved ((removeEach x.1.id ms).2.set j x.2) ((j + 1) % ms.length) w)

/-- What each member would take. -/
def pickEach (i : Instruments) : List Selector → List (Option (State × Selector))
  | [] => []
  | m :: ms => m.pick i :: pickEach i ms

end

/-- Adds states one by one. -/
def pushList (ss : List State) (s : Selector) : Except Fault Selector := ss.foldlM (fun s x => s.push x) s

def drainWithin (i : Instruments) : Nat → Selector → List State × Selector
  | 0, s => ([], s)
  | n + 1, s =>
    match s.pick i with
    | none => ([], s)
    | some (x, s) =>
      let (xs, s) := drainWithin i n s
      (x :: xs, s)

/-- Picks until nothing is left. Every pick takes a state out of at least one frontier. -/
def drain (i : Instruments) (s : Selector) : List State × Selector := drainWithin i (s.load + 1) s

/-- Whether the step limit of the selector is used up. -/
def shouldStop (s : Selector) (i : Instruments) : Bool := i.isSpent s.wiring.limit

/-- Reports a traversal through the selector. -/
def traverse (s : Selector) (e : Edge) (i : Instruments) : Instruments := i.traverse s.wiring e

end Selector

end Symex
