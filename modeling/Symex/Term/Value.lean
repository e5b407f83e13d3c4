import Symex.Program.Ty

/-!
# Values

What a term may denote: a truth value, an integer of any size, or an address, with address zero standing for null.
Values of different kinds are comparable too: truth values come before integers, and integers before addresses.
-/

namespace Symex

/-- A heap address; zero is null. -/
structure Address where
  raw : Int
  deriving DecidableEq, Ord, Inhabited

namespace Address

def null : Address := ⟨0⟩

def isNull (a : Address) : Bool := a.raw == 0

def render (a : Address) : String := if a.isNull then "null" else "#" ++ toString a.raw

end Address

/-- A concrete value. -/
inductive Value where
  | bool (b : Bool)
  | int (n : Int)
  | addr (a : Address)
  deriving DecidableEq, Inhabited

namespace Value

def null : Value := addr .null

/-- The value that a slot of type `t` has before anything is stored in it. -/
def default : Ty → Value
  | .bool => bool false
  | .void | .char | .int | .long => int 0
  | .object _ | .array _ => null

def int? : Value → Option Int
  | int n => some n
  | _ => none

def addr? : Value → Option Address
  | addr a => some a
  | _ => none

/-- An integer that fits an unsigned word of 64 bits, as a count or an index. -/
def index? (v : Value) : Option Nat :=
  v.int?.bind fun n => if 0 ≤ n ∧ n < UInt64.size then some n.toNat else none

/-- A count or an index as a value. It passes through a signed word of 64 bits, so from `2 ^ 63` on it turns
negative. -/
def ofIndex (n : Nat) : Value := int (Int.bmod n UInt64.size)

/-- Type of the constant with this value. -/
def ty : Value → Ty
  | bool _ => .bool
  | int _ => .int
  | addr _ => .object rootClass

def render : Value → String
  | bool b => if b then "true" else "false"
  | int n => toString n
  | addr a => a.render

/-- Kinds first, then the usual order within a kind. -/
def cmp : Value → Value → Ordering
  | bool a, bool b => compare a b
  | bool _, _ => .lt
  | int _, bool _ => .gt
  | int m, int n => compare m n
  | int _, addr _ => .lt
  | addr a, addr b => compare a.raw b.raw
  | addr _, _ => .gt

instance : Ord Value := ⟨cmp⟩

end Value

end Symex
