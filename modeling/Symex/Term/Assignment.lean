import Symex.Term.Atom

/-!
# Assignments

An assignment gives values to terms. Constants denote themselves; every other term, a heap read too, is looked up
as it stands.
-/

namespace Symex

/-- Values of terms. -/
abbrev Assignment := Table Term Value

namespace Assignment

def eval (m : Assignment) : Term → Option Value
  | .const v => some v
  | t => m.find? t

/-- The value as an integer, a truth value counting as zero or one. -/
def evalInt (m : Assignment) (t : Term) : Option Int :=
  match m.eval t with
  | some (.int n) => some n
  | some (.bool b) => some b.toInt
  | _ => none

def addressOf (m : Assignment) (t : Term) : Option Address := (m.eval t).bind Value.addr?

/-- Whether an atom is true; unknown if a side has no value. -/
def holds (m : Assignment) (a : Atom) : Option Bool :=
  match m.eval a.lhs, m.eval a.rhs with
  | some l, some r => some (a.relation.holds l r)
  | _, _ => none

@[simp] theorem eval_const (m : Assignment) (v : Value) : m.eval (.const v) = some v := rfl

end Assignment

end Symex
