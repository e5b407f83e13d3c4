import Symex.Random.Dice
import Symex.Random.Stream

/-!
# Draws

Dice that are thrown by the words of a tape. A uniform draw multiplies a word by the bound and takes the upper half,
after throwing away words that would make some positions likelier than others. Weights are refused if one of them is
negative or no number, or if there is nothing to draw.
-/

namespace Symex.Tape

/-! ### Uniform draws -/

/-- The greatest lower half of a product that a uniform draw below `n` accepts. -/
def zone (n : Nat) : Nat := n <<< (63 - n.log2) - 1

/-- How often a uniform draw tries. A word is refused with probability below one half, so the last try, which
accepts every word, does not come up in practice. -/
def tries : Nat := 1000

/-- Draws below `n`, and tries again at most `fuel` times. -/
def belowWithin (n : Nat) : Nat → Tape → Nat × Tape
  | 0, t =>
    let (v, t) := t.draw
    (v.toNat * n / UInt64.size, t)
  | fuel + 1, t =>
    let (v, t') := t.draw
    if v.toNat * n % UInt64.size ≤ zone n then (v.toNat * n / UInt64.size, t') else belowWithin n fuel t'

/-- Draws a position below `n`. -/
def below (n : Nat) (t : Tape) : Nat × Tape := belowWithin n tries t

theorem mulShift_lt (v : UInt64) {n : Nat} (hn : 0 < n) : v.toNat * n / UInt64.size < n := by
  have hv : v.toNat < UInt64.size := v.toNat_lt_size
  rw [Nat.div_lt_iff_lt_mul (by decide), Nat.mul_comm n]
  exact Nat.mul_lt_mul_of_pos_right hv hn

theorem belowWithin_lt {n : Nat} (hn : 0 < n) (fuel : Nat) (t : Tape) : (belowWithin n fuel t).1 < n := by
  induction fuel generalizing t with
  | zero => exact mulShift_lt _ hn
  | succ fuel ih =>
    simp only [belowWithin]
    split
    · exact mulShift_lt _ hn
    · exact ih _

theorem below_lt {n : Nat} (hn : 0 < n) (t : Tape) : (t.below n).1 < n := belowWithin_lt hn tries t

/-! ### Weighted draws -/

/-- The running sums of a list of weights, the total last. -/
def sums (total : Float) : List Float → List Float
  | [] => []
  | w :: ws => (total + w) :: sums (total + w) ws

/-- The greatest number below one that a draw can be. -/
def top : Float := 1.0 - Float.scaleB 1.0 (-52)

/-- Makes a scale smaller until no draw reaches the total. -/
def scaleWithin (total : Float) : Nat → Float → Float
  | 0, scale => scale
  | n + 1, scale =>
    if scale * top >= total then scaleWithin total n (Float.ofBits (scale.toBits - 1)) else scale

/-- How many of the running sums, the total left out, are not above `x`. -/
def place (steps : List Float) (x : Float) : Nat := (steps.dropLast.filter fun s => s <= x).length

/-- Draws a place in a list of weights. -/
def weighted (weights : List Float) (t : Tape) : Option (Nat × Tape) :=
  match weights with
  | [] => none
  | w :: ws =>
    let steps := w :: sums w ws
    let total := steps.getLast?.getD w
    if weights.any (fun w => !(w >= 0.0)) || total == 0.0 then none
    else
      let (v, t) := t.draw
      let x := ((v >>> 12).toFloat * Float.scaleB 1.0 (-52)) * scaleWithin total 64 total
      some (place steps x, t)

theorem length_sums (total : Float) (ws : List Float) : (sums total ws).length = ws.length := by
  induction ws generalizing total with
  | nil => rfl
  | cons w ws ih => simp [sums, ih]

theorem place_le (steps : List Float) (x : Float) : place steps x ≤ steps.length - 1 := by
  have h := List.length_filter_le (fun s : Float => decide (s <= x)) steps.dropLast
  rw [List.length_dropLast] at h
  exact h

theorem weighted_lt {weights : List Float} {t : Tape} {r : Nat × Tape} (h : t.weighted weights = some r) :
    r.1 < weights.length := by
  cases weights with
  | nil => cases h
  | cons w ws =>
    simp only [weighted] at h
    split at h
    · cases h
    · cases h
      refine Nat.lt_succ_of_le (Nat.le_trans (place_le _ _) ?_)
      simp [length_sums]

/-! ### Dice -/

/-- The dice of a tape. -/
def dice (t : Tape) : Dice where
  uniform n p :=
    let r := below n { t with position := p }
    (r.1, r.2.position)
  weighted ws p := (weighted ws { t with position := p }).map fun r => (r.1, r.2.position)
  uniform_lt p hn := below_lt hn { t with position := p }
  weighted_lt h := by
    obtain ⟨r, hr, he⟩ := Option.map_eq_some_iff.mp h
    rw [← he]
    exact weighted_lt hr
  position := t.position

end Symex.Tape

namespace Symex

/-- The dice of a seed. -/
def Dice.ofSeed (seed : Option Nat) : Dice := (Tape.ofSeed seed).dice

end Symex
