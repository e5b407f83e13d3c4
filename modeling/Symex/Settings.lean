/-!
# Settings

Budgets and conventions of the engine, and the switch that turns synthesis off while a suspension is alive.
-/

namespace Symex

/-- Which statistics the ranking of states uses by default. -/
inductive Strategy where
  /-- Prefer states close to uncovered code. -/
  | distance
  /-- Prefer states that came over rarely used links. -/
  | visits
  deriving DecidableEq, Inhabited

/-- Names of the fields through which a container shows its storage. -/
structure Layout where
  /-- Field of the container with the holder. -/
  holder : String := "elementData"
  /-- Field of the holder with the elements, or the keys. -/
  storage : String := "storage"
  /-- Field of a map's holder with the values. -/
  values : String := "values"
  deriving DecidableEq, Inhabited

structure Settings where
  /-- Seed of the random policies. -/
  seed : Option Nat := some 42
  strategy : Strategy := .distance
  /-- Traversals that an exploration may make. -/
  stepLimit : Nat := 3500
  /-- Traversals that the run of one probe may make. -/
  probeStepLimit : Nat := 500
  /-- Calls that a synthesized plan may have. -/
  maxDepth : Nat := 4
  timeoutMs : Nat := 60000
  useSoft : Bool := false
  /-- Length of an array that no atom speaks about. -/
  defaultLength : Nat := 100
  layout : Layout := {}
  deriving DecidableEq, Inhabited

/-- Options that every selector is built with. -/
structure SelectorConfig where
  strategy : Strategy := .distance
  stepLimit : Option Nat := none
  seed : Option Nat := none
  deriving DecidableEq, Inhabited

namespace SelectorConfig

def ofSettings (s : Settings) : SelectorConfig := ⟨s.strategy, some s.stepLimit, s.seed⟩

/-- As for an exploration, with the budget of a probe. -/
def forProbe (s : Settings) : SelectorConfig := { ofSettings s with stepLimit := some s.probeStepLimit }

end SelectorConfig

/-- Whether synthesis is enabled. -/
structure Switch where
  enabled : Bool := true
  deriving DecidableEq, Inhabited

/-- A suspension remembers what it found, and puts that back when it ends. -/
structure Suspension where
  previous : Bool
  deriving DecidableEq, Inhabited

namespace Switch

def suspend (s : Switch) : Switch × Suspension := (⟨false⟩, ⟨s.enabled⟩)

def resume (_ : Switch) (g : Suspension) : Switch := ⟨g.previous⟩

@[simp] theorem resume_suspend (s : Switch) : s.suspend.1.resume s.suspend.2 = s := rfl

end Switch

/-- A switch with the suspensions given out over it, in the order of their starts. One that has ended is gone from its
place. -/
structure Suspensions where
  switch : Switch := {}
  given : List (Option Suspension) := []
  deriving DecidableEq, Inhabited

namespace Suspensions

def start (d : Suspensions) : Suspensions :=
  let (s, g) := d.switch.suspend
  ⟨s, d.given ++ [some g]⟩

/-- Ends a suspension by its number. One that has ended does not end again. -/
def finish (d : Suspensions) (k : Nat) : Suspensions :=
  match d.given[k]? with
  | some (some g) => ⟨d.switch.resume g, d.given.set k none⟩
  | _ => d

inductive Event where
  | start
  | finish (number : Nat)
  deriving DecidableEq, Inhabited

def step (d : Suspensions) : Event → Suspensions
  | .start => d.start
  | .finish k => d.finish k

end Suspensions

end Symex
