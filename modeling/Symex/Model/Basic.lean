import Symex.Data.OrderedSet
import Symex.Term.Atom

/-!
# Models

A model describes one value: null, a primitive, an object known by its atoms, a container with its entries, an
alias of another model, or a value that is built by calls. Models refer to each other by handles into the store
that owns them, so shared and cyclic structure needs nothing special.
-/

namespace Symex

/-- Position of a model in its store. -/
structure Handle where
  index : Nat
  deriving DecidableEq, Ord, Inhabited

def Handle.render (h : Handle) : String := "@" ++ toString h.index

inductive ContainerKind where
  | array
  | list
  | set
  | map
  deriving DecidableEq, Inhabited

namespace ContainerKind

/-- The name of the kind of model. -/
def name : ContainerKind → String
  | array => "array"
  | list => "list"
  | set => "set"
  | map => "map"

/-- The name of the kind of container in a plan or a probe. -/
def title : ContainerKind → String
  | array => "Array"
  | list => "List"
  | set => "Set"
  | map => "Map"

/-- Reads the name of a kind of model. -/
def ofName? (s : String) : Option ContainerKind := [array, list, set, map].find? (·.name = s)

/-- Reads the name of a kind of container. -/
def ofTitle? (s : String) : Option ContainerKind := [array, list, set, map].find? (·.title = s)

end ContainerKind

/-- A length, and entries that go from an index or a key to an element or a value. -/
structure Container where
  term : Term
  length : Handle
  entries : List (Handle × Handle)
  atoms : OrderedSet Atom
  deriving DecidableEq, Inhabited

/-- A call of a construction; the arguments leave out the receiver. -/
structure Call where
  method : Method
  args : List Handle
  deriving DecidableEq, Inhabited

inductive Model where
  | null (term : Term)
  | primitive (term : Term) (value : Value) (atoms : OrderedSet Atom)
  | object (term : Term) (atoms : OrderedSet Atom)
  /-- The same value as the target. -/
  | sameAs (term : Term) (target : Handle)
  | container (kind : ContainerKind) (body : Container)
  /-- A value made by one call, if any, and then changed by calls on it. -/
  | assembly (term : Term) (creation : Option Call) (changes : List Call)
  deriving DecidableEq, Inhabited

namespace Model

/-- The term that the model is the value of. -/
def term : Model → Term
  | null t => t
  | primitive t _ _ => t
  | object t _ => t
  | sameAs t _ => t
  | container _ c => c.term
  | assembly t _ _ => t

/-- The atoms known about the value, for the kinds of model that carry some. -/
def atoms? : Model → Option (OrderedSet Atom)
  | primitive _ _ as => some as
  | object _ as => some as
  | container _ c => some c.atoms
  | null _ | sameAs .. | assembly .. => none

def container? : Model → Option Container
  | container _ c => some c
  | _ => none

/-- The value of a primitive. -/
def value? : Model → Option Value
  | primitive _ v _ => some v
  | _ => none

def isNull : Model → Bool
  | null _ => true
  | _ => false

def kindName : Model → String
  | null _ => "null"
  | primitive .. => "primitive"
  | object .. => "object"
  | sameAs .. => "ref"
  | container k _ => k.name
  | assembly .. => "assemble"

/-- All calls of an assembly in the order in which they are made. -/
def calls : Model → List Call
  | assembly _ c cs => c.toList ++ cs
  | _ => []

/-- The handles that the model refers to, in order. -/
def children : Model → List Handle
  | null _ | primitive .. | object .. => []
  | sameAs _ t => [t]
  | container _ c => c.length :: c.entries.flatMap fun e => [e.1, e.2]
  | assembly _ c cs => (c.toList ++ cs).flatMap Call.args

/-- The model with every handle renamed. -/
def mapHandles (f : Handle → Handle) : Model → Model
  | sameAs t h => sameAs t (f h)
  | container k c => container k { c with
      length := f c.length
      entries := c.entries.map fun e => (f e.1, f e.2) }
  | assembly t c cs =>
    let call (k : Call) : Call := { k with args := k.args.map f }
    assembly t (c.map call) (cs.map call)
  | m => m

/-! ### Renaming handles -/

@[simp] theorem children_mapHandles (f : Handle → Handle) (m : Model) :
    (m.mapHandles f).children = m.children.map f := by
  cases m with
  | assembly t c cs =>
    cases c <;> simp [mapHandles, children, List.flatMap_map, List.map_flatMap]
  | container k c => simp [mapHandles, children, List.flatMap_map, List.map_flatMap]
  | _ => rfl

end Model

end Symex
