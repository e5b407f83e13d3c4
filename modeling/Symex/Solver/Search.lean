import Symex.Solver.Classes

/-!
# Search over classes

Once terms are gathered in classes, each class has one value. Classes with a constant have it, reference classes
without one get addresses of their own, and the remaining integer and boolean classes are tried out in order, over
a small domain made from the constants at hand. A partial valuation is dropped as soon as an atom is false in it.
The number of valuations looked at is bounded.
-/

namespace Symex.Solver

/-- Values by class number. -/
abbrev Valuation := Array (Option Value)

/-- The kind of place that a heap read looks at. -/
inductive Slot where
  | field (field : Field)
  | element
  | length
  deriving DecidableEq

/-- A heap read in terms of classes. -/
structure Read where
  slot : Slot
  base : Nat
  index : Option Nat
  value : Nat
  deriving DecidableEq

/-- What a valuation has to satisfy, and what may be tried for the open classes. -/
structure Problem where
  atoms : List (Relation × Nat × Nat)
  reads : List Read
  /-- The classes that hold a term of boolean type. -/
  booleans : List Nat
  domain : List Int

namespace Problem

def valueAt (v : Valuation) (c : Nat) : Option Value := v.getD c none

/-- No atom is false yet. -/
def consistent (p : Problem) (v : Valuation) : Bool :=
  p.atoms.all fun a =>
    match valueAt v a.2.1, valueAt v a.2.2 with
    | some l, some r => a.1.holds l r
    | _, _ => true

/-- Two reads of the same place, if their values agree. -/
def agree (v : Valuation) (a b : Read) : Bool :=
  let sameIndex := match a.index, b.index with
    | some i, some j => valueAt v i == valueAt v j
    | _, _ => true
  a.slot != b.slot || valueAt v a.base != valueAt v b.base || !sameIndex || valueAt v a.value == valueAt v b.value

/-- Reads of equal places have equal values. -/
def functional (p : Problem) (v : Valuation) : Bool := (pairs p.reads).all fun q => agree v q.1 q.2

def candidates (p : Problem) (c : Nat) : List Value :=
  if c ∈ p.booleans then [.bool false, .bool true] else p.domain.map .int

end Problem

/-- Tries values in order until one succeeds. A trial goes on with the valuation and the counter that the one before it
left, and the trials end once the counter has passed the limit. -/
def tryValues (limit : Nat) (trial : Value → Valuation → Nat → Bool × Valuation × Nat) :
    List Value → Valuation → Nat → Bool × Valuation × Nat
  | [], v, n => (false, v, n)
  | x :: xs, v, n =>
    match trial x v n with
    | (true, w, m) => (true, w, m)
    | (false, w, m) => if m > limit then (false, w, m) else tryValues limit trial xs w m

/-- Gives values to the open classes, the first class first, each value being written over the one before it. A class
for which no value succeeds is emptied again. Gives whether all classes got a value, the valuation as it is left, and
the number of valuations looked at so far. -/
def backtrack (p : Problem) (limit : Nat) : List Nat → Valuation → Nat → Bool × Valuation × Nat
  | opened, v, nodes =>
    let nodes := nodes + 1
    if nodes > limit || !p.consistent v then (false, v, nodes)
    else match opened with
      | [] => (p.functional v, v, nodes)
      | c :: rest =>
        match tryValues limit (fun x v n => backtrack p limit rest (v.setIfInBounds c (some x)) n) (p.candidates c)
            v nodes with
        | (true, w, m) => (true, w, m)
        | (false, w, m) => (false, w.setIfInBounds c none, m)

/-! ### From classes to a problem -/

/-- The constants with their classes. -/
def constants (c : Classes) : List (Nat × Value) :=
  c.members.filterMap fun m => match m.1 with
    | .const v => some (m.2, v)
    | _ => none

/-- Some class holds two different constants. -/
def clash (c : Classes) : Bool :=
  (constants c).any fun e => (constants c).lookup e.1 != some e.2

/-- The greatest address among the constants, and at least zero. -/
def topAddress (c : Classes) : Int :=
  (constants c).foldl (fun m e => match e.2 with
    | .addr a => max m a.raw
    | _ => m) 0

def isReferenceClass (c : Classes) (l : Nat) : Bool := c.members.any fun m => m.2 == l && m.1.isReference

/-- Gives the constants to their classes, and then consecutive new addresses to the reference classes that have
none. The classes that stay open are listed. -/
def fixedValues (c : Classes) : Valuation × List Nat :=
  let start : Valuation := (constants c).foldl (fun v e => v.setIfInBounds e.1 (some e.2))
    (Array.replicate c.members.length none)
  let (v, _, opened) := c.labels.foldl (fun (s : Valuation × Int × List Nat) l =>
    if (Problem.valueAt s.1 l).isSome then s
    else if isReferenceClass c l then (s.1.setIfInBounds l (some (.addr ⟨s.2.1 + 1⟩)), s.2.1 + 1, s.2.2)
    else (s.1, s.2.1, s.2.2 ++ [l])) (start, topAddress c, [])
  (v, opened)

/-- Small numbers come first, and of two opposite ones the positive. -/
def smallerFirst (a b : Int) : Bool := a.natAbs < b.natAbs || (a.natAbs == b.natAbs && b ≤ a)

/-- Puts a number before the first that it precedes, unless it is met on the way. -/
def insertSmaller (n : Int) : List Int → List Int
  | [] => [n]
  | m :: l => if n = m then m :: l else if smallerFirst n m then n :: m :: l else m :: insertSmaller n l

/-- Zero, one, and the integer constants with their neighbours. -/
def domainOf (c : Classes) : List Int :=
  let ints := (constants c).filterMap fun e => e.2.int?
  ([0, 1] ++ ints.flatMap fun n => [n - 1, n + 1, n]).foldr insertSmaller []

def readsOf (c : Classes) : List Read :=
  c.members.filterMap fun m =>
    match m.1 with
    | .field b f => (c.label? b).map fun l => ⟨.field f, l, none, m.2⟩
    | .element a i _ => (c.label? a).bind fun l => (c.label? i).map fun j => ⟨.element, l, some j, m.2⟩
    | .length a => (c.label? a).map fun l => ⟨.length, l, none, m.2⟩
    | _ => none

def problemOf (as : List Atom) (c : Classes) : Problem where
  atoms := as.filterMap fun a => (c.label? a.lhs).bind fun l => (c.label? a.rhs).map fun r => (a.relation, l, r)
  reads := readsOf c
  booleans := (c.members.filter fun m => m.1.ty = .bool).map (·.2)
  domain := domainOf c

/-- The values of a valuation, term by term. -/
def assignmentOf (c : Classes) (v : Valuation) : List (Term × Value) :=
  c.members.filterMap fun m => (Problem.valueAt v m.2).map fun x => (m.1, x)

/-- Searches for values of all classes, from those that are fixed. -/
def searchClasses (limit : Nat) (as : List Atom) (c : Classes) : Bool × Valuation × Nat :=
  let (start, opened) := fixedValues c
  backtrack (problemOf as c) limit opened start 0

end Symex.Solver
