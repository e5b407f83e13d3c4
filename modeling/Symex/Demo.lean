import Symex.Model.Render
import Symex.Synthesis.Basic

/-!
# A demonstration

A class with one number in it, a constructor that sets it to zero and a method that sets it to anything. The
demonstration asks for objects of that class with given numbers and tells what was found.
-/

namespace Symex.Demo

def className : ClassName := "Foo"

def field : Field := ⟨className, "x", .int⟩

/-- The class with its constructor and its setter. -/
def machine : Machine :=
  { methods :=
      [(.constructor className [], [.setConst field 0]),
       (.modifier className "setX" [.int] .void, [.copyArg field 0])] }

/-- An object whose number is `value`. -/
def target (name : String) (value : Int) : Model :=
  let object : Term := .param name (.object className)
  .object object (.ofList [.eq (.field object field) (.int value)])

/-- The targets for some numbers. -/
def targets (values : List Int) : Store :=
  .ofSlots (values.mapIdx fun i v => some (target ("p" ++ toString i) v))

/-- The synthesizer of the demonstration. -/
def synthesizer (settings : Settings) (limit : Nat) : Synthesizer :=
  { workshop := { settings, limit, machine }, catalog := machine.catalog }

/-- What is told about one root. -/
def line (r : Synthesized) (i : Nat) (m : Option Handle) : Except Fault String :=
  match m with
  | some h => do return "p" ++ toString i ++ " = " ++ (← r.store.render h)
  | none => .ok ("p" ++ toString i ++ " = <not synthesized>")

/-- What is told about the clusters. -/
def summary (s : Synthesizer) : String :=
  toString s.successes ++ " of " ++ toString s.attempts ++ " clusters synthesized (" ++ s.percentText ++ "%)"

/-- Asks for objects with the given numbers, and tells about it line by line. -/
def run (s : Synthesizer) (values : List Int) (depth : Nat) : Except Fault (Synthesizer × List String) := do
  let store := targets values
  let roots := (List.range values.length).map Handle.mk
  let asked ← roots.mapM fun h => do return "target " ++ h.render ++ " = " ++ (← store.render h)
  let (s, r) ← s.synthesizeWithin store roots depth 60000
  let found ← (r.models.mapIdx fun i m => line r i m).mapM id
  return (s, asked ++ found ++ [summary s])

end Symex.Demo
