/-!
# Ranks

A rank says how urgent a state is: a number, the lower the better, or the worst rank of all. Numbers that do not
fit into a 64-bit word count as the worst rank.
-/

namespace Symex

inductive Rank where
  | finite (n : Nat)
  | worst
  deriving DecidableEq, Inhabited

namespace Rank

/-- The greatest 64-bit number, which stands for the worst rank. -/
def limit : Nat := UInt64.size - 1

def ofNat (n : Nat) : Rank := if n < limit then .finite n else .worst

/-- The rank one step further away. -/
def next : Rank → Rank
  | finite n => finite (n + 1)
  | worst => worst

def lt : Rank → Rank → Bool
  | finite n, finite m => n < m
  | finite _, worst => true
  | worst, _ => false

/-- The rank as a floating-point number. -/
def toFloat : Rank → Float
  | finite n => n.toUInt64.toFloat
  | worst => limit.toUInt64.toFloat

end Rank

end Symex
