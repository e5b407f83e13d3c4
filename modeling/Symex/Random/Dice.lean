/-!
# Dice

Where random positions come from. Dice are known by what they draw at each position of an unbounded sequence: a number
below a bound, or a place in a list of weights. How the numbers are made is left open; all that is known is that they
are in range. Weights that cannot be drawn from are refused, and a draw that gives all places the same weight is made
instead.
-/

namespace Symex

/-- A source of draws, and where it stands. -/
structure Dice where
  /-- The draw below a bound at a position, and the position after it. -/
  uniform : Nat → Nat → Nat × Nat
  /-- The draw by weights at a position, and the position after it; nothing if the weights are refused. -/
  weighted : List Float → Nat → Option (Nat × Nat)
  uniform_lt : ∀ {n : Nat} (p : Nat), 0 < n → (uniform n p).1 < n
  weighted_lt : ∀ {ws : List Float} {p : Nat} {r : Nat × Nat}, weighted ws p = some r → r.1 < ws.length
  position : Nat := 0

namespace Dice

/-- Dice that always show the least number, and refuse all weights. -/
def least : Dice where
  uniform _ p := (0, p + 1)
  weighted _ _ := none
  uniform_lt _ h := h
  weighted_lt h := by cases h

instance : Inhabited Dice := ⟨least⟩

/-- Draws a number below `n`. -/
def below (n : Nat) (d : Dice) : Nat × Dice :=
  let r := d.uniform n d.position
  (r.1, { d with position := r.2 })

/-- Draws a place in a list of weights, all places being equally likely if the weights are refused. -/
def among (weights : List Float) (d : Dice) : Nat × Dice :=
  match d.weighted weights d.position with
  | some r => (r.1, { d with position := r.2 })
  | none => d.below weights.length

theorem below_lt {n : Nat} (hn : 0 < n) (d : Dice) : (d.below n).1 < n := d.uniform_lt d.position hn

theorem among_lt {weights : List Float} (h : weights ≠ []) (d : Dice) : (d.among weights).1 < weights.length := by
  unfold among
  split
  next r hr => exact d.weighted_lt hr
  next => exact below_lt (List.length_pos_iff.mpr h) d

end Dice

end Symex
