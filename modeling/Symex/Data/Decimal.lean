/-!
# Decimal text of floating-point numbers

A finite number is an integer times a power of two. Written with a fixed number of places, that value is rounded
to the nearest decimal, and a value halfway between two goes to the one with an even last digit.
-/

namespace Symex.Decimal

/-- The quotient of two numbers, to the nearest integer, halves to even. -/
def roundDiv (n d : Nat) : Nat :=
  let q := n / d
  let r := 2 * (n % d)
  if r < d then q else if d < r then q + 1 else q + q % 2

/-- The factors of a finite number that is not negative: it is the first times two to the second minus 1075. -/
def parts (x : Float) : Nat × Nat :=
  let bits := x.toBits.toNat
  let e := (bits >>> 52) % (1 <<< 11)
  let m := bits % (1 <<< 52)
  if e = 0 then (m, 1) else (m + (1 <<< 52), e)

/-- The number times ten to the `places`, to the nearest integer. -/
def scaled (places : Nat) (x : Float) : Nat :=
  let (m, e) := parts x
  roundDiv ((m * Nat.pow 10 places) <<< e) (1 <<< 1075)

/-- A number of digits with as many places behind the point. -/
def point (places n : Nat) : String :=
  if places = 0 then toString n
  else
    let digits := toString (n % Nat.pow 10 places)
    toString (n / Nat.pow 10 places) ++ "." ++ "".pushn '0' (places - digits.length) ++ digits

/-- A number that is not negative, with a fixed number of places. -/
def render (places : Nat) (x : Float) : String := point places (scaled places x)

end Symex.Decimal
