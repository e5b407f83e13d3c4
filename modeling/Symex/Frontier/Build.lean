import Symex.Frontier.Selector

/-!
# Building selectors

Every selector needs a step limit. It takes the one in force, or else brings its own into force; with neither it
cannot be built. Then it asks for the statistics that its policy reads, and is wired to all that listen by then. The
dice of a seed come from outside.
-/

namespace Symex

/-- Why a selector cannot be built. -/
inductive BuildError where
  | missingLimit (selector : String)
  | noMembers
  deriving DecidableEq, Inhabited

def BuildError.message : BuildError → String
  | missingLimit name =>
    "selector `" ++ name ++ "` needs a stopping strategy: set a step limit or share a context that has one"
  | noMembers => "interleaved selector needs at least one member"

/-- The policies that need nothing but a configuration. -/
inductive Kind where
  | bfs
  | dfs
  | minimalDistance
  | visitCounting
  | random
  | randomPath
  | rp
  | depth
  | coveredNew
  deriving DecidableEq, Inhabited

namespace Kind

/-- The frontier of a policy, with nothing in it. The dice for a seed are made by `roll`. -/
def frontier (roll : Option Nat → Dice) (c : SelectorConfig) : Kind → Frontier
  | bfs => .queue .oldest (.ofStrategy c.strategy) []
  | dfs => .queue .newest (.ofStrategy c.strategy) []
  | minimalDistance => .ranked .distance []
  | visitCounting => .ranked .visits []
  | random => .uniform (roll c.seed) []
  | randomPath => .walk (roll c.seed) []
  | rp => .weighted (.ofStrategy c.strategy) (roll c.seed) []
  | depth => .weighted .depth (roll c.seed) []
  | coveredNew => .weighted .fresh (roll c.seed) []

/-- The name of a policy is the name of its frontiers. -/
def name (k : Kind) : String := (k.frontier (fun _ => .least) {}).name

/-- Reads the name of a policy. -/
def ofName? (s : String) : Option Kind :=
  [bfs, dfs, minimalDistance, visitCounting, random, randomPath, rp, depth, coveredNew].find? (·.name = s)

end Kind

namespace Instruments

/-- Makes sure that the statistics behind a ranking are kept. -/
def withRanking (i : Instruments) : Ranking → Instruments
  | .distance => i.withCoverage
  | .visits => i.withVisits
  | .depth => i
  | .fresh => i.withCoverage

/-- Makes sure that the statistics that a frontier reads are kept. -/
def withStatistics (i : Instruments) : Frontier → Instruments
  | .queue _ r _ => i.withRanking r
  | .ranked r _ => i.withRanking r
  | .uniform _ _ => i
  | .walk _ _ => i
  | .weighted r _ _ => i.withRanking r
  | .scored _ _ _ => i.withCoverage

/-- The number of the step limit in force, after a new one was brought into force where there was none. -/
def withLimit (i : Instruments) (name : String) (limit : Option Nat) : Except BuildError (Nat × Instruments) :=
  match i.current, limit with
  | some k, _ => .ok (k, i)
  | none, some n => .ok (i.limits.length, i.setLimit n)
  | none, none => .error (.missingLimit name)

/-- Makes a selector of a frontier. -/
def attach (i : Instruments) (f : Frontier) (limit : Option Nat) : Except BuildError (Selector × Instruments) := do
  let (k, i) ← i.withLimit f.name limit
  let i := i.withStatistics f
  return (.single f (i.wiring k), i)

/-- Builds a selector of a given kind. -/
def build (roll : Option Nat → Dice) (i : Instruments) (kind : Kind) (c : SelectorConfig) :
    Except BuildError (Selector × Instruments) :=
  i.attach (kind.frontier roll c) c.stepLimit

/-- Builds a selector that goes by scores. -/
def buildScoring (i : Instruments) (sc : Scorer) (c : SelectorConfig) :
    Except BuildError (Selector × Instruments) :=
  i.attach (.scored sc [] 0) c.stepLimit

/-- Interleaves selectors that were built from these instruments. -/
def interleave (i : Instruments) (members : List Selector) : Except BuildError Selector :=
  match members, i.current with
  | [], _ => .error .noMembers
  | _, none => .error (.missingLimit "interleaved")
  | ms, some k => .ok (.interleaved ms 0 (i.wiring k))

end Instruments

/-! ### Blueprints -/

/-- A selector to be built, with the states that it holds from the start. -/
inductive Blueprint where
  | policy (kind : Kind) (config : SelectorConfig) (states : List State)
  | scoring (scorer : Scorer) (config : SelectorConfig) (states : List State)
  | interleaved (members : List Blueprint) (states : List State)

namespace Blueprint

/-- Why a blueprint gives no selector: it cannot be built, or one of its states is at fault. -/
inductive Refusal where
  | build (error : BuildError)
  | fault (fault : Fault)
  deriving DecidableEq, Inhabited

/-- Puts states into a selector that has been built. -/
def furnish (ss : List State) (r : Except BuildError (Selector × Instruments)) (i : Instruments) :
    Except Refusal Selector × Instruments :=
  match r with
  | .ok (s, i) => ((s.pushList ss).mapError .fault, i)
  | .error e => (.error (.build e), i)

variable (roll : Option Nat → Dice)

mutual

/-- Builds a selector. The members of an interleaving are built in order; if one cannot be built, those before it
have left their traces on the instruments. -/
def build : Blueprint → Instruments → Except Refusal Selector × Instruments
  | policy k c ss, i => furnish ss (i.build roll k c) i
  | scoring sc c ss, i => furnish ss (i.buildScoring sc c) i
  | interleaved ms ss, i =>
    match buildEach ms i with
    | (.error e, i) => (.error e, i)
    | (.ok members, i) => furnish ss ((i.interleave members).map (·, i)) i

def buildEach : List Blueprint → Instruments → Except Refusal (List Selector) × Instruments
  | [], i => (.ok [], i)
  | m :: ms, i =>
    match m.build i with
    | (.error e, i) => (.error e, i)
    | (.ok s, i) =>
      let (ss, i) := buildEach ms i
      (ss.map (s :: ·), i)

end

end Blueprint

end Symex
