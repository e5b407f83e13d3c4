import Symex.Data.OrderedTable
import Symex.Term.Atom

/-!
# Memory

The writes that an execution layers over the heap before the call, and the static fields it has touched. Reading
through the writes is a matter of terms: a write counts for a read only if base and index are the same terms, and
the latest such write wins. Terms that merely denote the same address are not taken to be the same here.
-/

namespace Symex

/-- A known container behind a reference, whose contents lie in a storage array. -/
inductive Wrapper where
  | list
  | set
  | map
  deriving DecidableEq, Inhabited

namespace Wrapper

def name : Wrapper → String
  | list => "list"
  | set => "set"
  | map => "map"

/-- Reads the name of a wrapper. -/
def ofName? (s : String) : Option Wrapper := [list, set, map].find? (·.name = s)

end Wrapper

/-- What a local, a parameter or a static field holds. -/
inductive Sym where
  | prim (term : Term)
  | ref (term : Term) (wrapper : Option Wrapper)
  deriving DecidableEq, Inhabited

namespace Sym

/-- The term that stands for the value in atoms. -/
def term : Sym → Term
  | prim t => t
  | ref t _ => t

def wrapper : Sym → Option Wrapper
  | prim _ => none
  | ref _ w => w

def ty (s : Sym) : Ty := s.term.ty

end Sym

/-- A write to the heap. -/
inductive Write where
  | field (base : Term) (field : Field) (value : Term)
  | element (array index value : Term)
  deriving DecidableEq, Inhabited

namespace Write

def value : Write → Term
  | field _ _ v => v
  | element _ _ v => v

/-- The read that the write overrides. -/
def location : Write → Term
  | field b f _ => .field b f
  | element a i v => .element a i v.ty

end Write

/-- A static field's value before and after the call. -/
structure StaticValue where
  before : Sym
  after : Sym
  deriving DecidableEq, Inhabited

structure Memory where
  /-- In program order. -/
  writes : List Write := []
  statics : OrderedTable Field StaticValue := {}
  deriving DecidableEq, Inhabited

namespace Memory

def write (m : Memory) (w : Write) : Memory := { m with writes := m.writes ++ [w] }

def setStatic (m : Memory) (f : Field) (v : StaticValue) : Memory :=
  { m with statics := m.statics.insert f v }

/-- The value last written to a field of `base`. -/
def lastField (m : Memory) (base : Term) (f : Field) : Option Term :=
  m.writes.reverse.findSome? fun
    | .field b g v => if b = base ∧ g = f then some v else none
    | .element .. => none

/-- The value last written to the element of `array` at `index`. -/
def lastElement (m : Memory) (array index : Term) : Option Term :=
  m.writes.reverse.findSome? fun
    | .element a i v => if a = array ∧ i = index then some v else none
    | .field .. => none

/-- The term for what `t` reads after the writes. Bases and indices are brought up to date first; a written value
is a term over the heap before the call and stays as it is. -/
def read (m : Memory) : Term → Term
  | .field b f =>
    let base := m.read b
    (m.lastField base f).getD (.field base f)
  | .element a i e =>
    let array := m.read a
    let index := m.read i
    (m.lastElement array index).getD (.element array index e)
  | .length a => .length (m.read a)
  | t => t

def readAtom (m : Memory) (a : Atom) : Atom := a.map m.read

/-! ### Read over write -/

@[simp] theorem lastField_write (m : Memory) (b base : Term) (g f : Field) (v : Term) :
    (m.write (.field b g v)).lastField base f = if b = base ∧ g = f then some v else m.lastField base f := by
  by_cases h : b = base ∧ g = f <;> simp [lastField, write, h]

@[simp] theorem lastElement_write (m : Memory) (a i array index v : Term) :
    (m.write (.element a i v)).lastElement array index =
      if a = array ∧ i = index then some v else m.lastElement array index := by
  by_cases h : a = array ∧ i = index <;> simp [lastElement, write, h]

end Memory

end Symex
