import Symex.Term.Basic

/-!
# Atoms

An atom compares two terms. Path conditions are conjunctions of atoms.
-/

namespace Symex

inductive Relation where
  | eq
  | ne
  | lt
  | le
  | gt
  | ge
  deriving DecidableEq, Ord, Inhabited

namespace Relation

/-- The relation that holds exactly when this one does not. -/
def negate : Relation → Relation
  | eq => ne
  | ne => eq
  | lt => ge
  | le => gt
  | gt => le
  | ge => lt

def holds : Relation → Value → Value → Bool
  | eq, a, b => a == b
  | ne, a, b => a != b
  | lt, a, b => a.cmp b == .lt
  | le, a, b => a.cmp b != .gt
  | gt, a, b => a.cmp b == .gt
  | ge, a, b => a.cmp b != .lt

def symbol : Relation → String
  | eq => "=="
  | ne => "!="
  | lt => "<"
  | le => "<="
  | gt => ">"
  | ge => ">="

/-- Reads the symbol of a relation. -/
def ofSymbol? (s : String) : Option Relation := [eq, ne, lt, le, gt, ge].find? (·.symbol = s)

@[simp] theorem negate_negate (r : Relation) : r.negate.negate = r := by cases r <;> rfl

theorem holds_negate (r : Relation) (a b : Value) : r.negate.holds a b = !r.holds a b := by
  cases r <;> simp [negate, holds, bne]

end Relation

/-- A comparison of two terms. -/
structure Atom where
  relation : Relation
  lhs : Term
  rhs : Term
  deriving DecidableEq, Ord, Inhabited

namespace Atom

def eq (l r : Term) : Atom := ⟨.eq, l, r⟩
def ne (l r : Term) : Atom := ⟨.ne, l, r⟩
def lt (l r : Term) : Atom := ⟨.lt, l, r⟩
def ge (l r : Term) : Atom := ⟨.ge, l, r⟩

def negate (a : Atom) : Atom := { a with relation := a.relation.negate }

/-- Every term and subterm, the left side first. -/
def terms (a : Atom) : List Term := a.lhs.subterms ++ a.rhs.subterms

def mentions (a : Atom) (t : Term) : Bool := a.lhs.contains t || a.rhs.contains t

def mentionsAny (a : Atom) (ts : List Term) : Bool := ts.any a.mentions

def map (f : Term → Term) (a : Atom) : Atom := ⟨a.relation, f a.lhs, f a.rhs⟩

def substitute (m : Term.Renaming) (a : Atom) : Atom := a.map (Term.substitute m)

def render (a : Atom) : String := a.lhs.render ++ " " ++ a.relation.symbol ++ " " ++ a.rhs.render

@[simp] theorem mentions_iff {a : Atom} {t : Term} : a.mentions t = true ↔ t ∈ a.terms := by
  simp [mentions, terms]

end Atom

end Symex
