import Symex.Demo

/-!
# The command line

Takes numbers, and with `--depth` the number of calls that may be made for each, and prints what the demonstration
tells about them.
-/

namespace Symex.Demo

/-- What the command line asks for. -/
structure Options where
  values : List Int := []
  depth : Nat := 4

namespace Options

/-- Reads the arguments from left to right, or gives the first one that cannot be read. -/
def parse (o : Options) : List String → Except String Options
  | [] => .ok o
  | ["--depth"] => .error "--depth"
  | "--depth" :: n :: rest =>
    match n.toNat? with
    | some depth => parse { o with depth } rest
    | none => .error n
  | s :: rest =>
    match s.toInt? with
    | some v => parse { o with values := o.values ++ [v] } rest
    | none => .error s

/-- The numbers asked for; five if none were given. -/
def numbers (o : Options) : List Int := if o.values.isEmpty then [5] else o.values

end Options

/-- The lines to print for a command line. -/
def respond (args : List String) : Except String (List String) := do
  let o ← Options.parse {} args
  match run (synthesizer {} Solver.defaultLimit) o.numbers o.depth with
  | .ok (_, lines) => return lines
  | .error e => .error e.message

end Symex.Demo

def main (args : List String) : IO UInt32 := do
  match Symex.Demo.respond args with
  | .ok lines =>
    lines.forM IO.println
    return 0
  | .error e =>
    IO.eprintln ("cannot use " ++ e)
    return 1
