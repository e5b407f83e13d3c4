import Symex.Plan.Basic

/-!
# Catalogs

A catalog lists the methods that plans may call. It says how a hole can be filled, and so how a plan can be
refined in one step: at its first open hole, first by null and then by every call that gives a value of the type.
-/

namespace Symex

structure Catalog where
  methods : List Method := []

namespace Catalog

def size (c : Catalog) : Nat := c.methods.length

def isEmpty (c : Catalog) : Bool := c.methods.isEmpty

/-- A call with a hole for every parameter. -/
def opened (m : Method) : Plan := .call m (m.params.map .hole)

/-- A call with a hole for every parameter, and one of the given type for the receiver. -/
def openedOn (t : Ty) (m : Method) : Plan := .call m (.hole t :: m.params.map .hole)

/-- The calls that give a value of a type: constructors of its class, factories of the type, modifiers of the
class. There are none for primitives and arrays. -/
def calls (c : Catalog) (t : Ty) : List Plan :=
  match t.class? with
  | none => []
  | some name =>
    (c.methods.filter fun m => m.kind = .constructor ∧ m.owner = name).map opened ++
      (c.methods.filter fun m => m.kind = .factory ∧ m.result = t).map opened ++
      (c.methods.filter fun m => m.kind = .modifier ∧ m.owner = name).map (openedOn t)

end Catalog

namespace Plan

mutual

/-- The ways to fill the first open hole. -/
def refine (c : Catalog) : Plan → List Plan
  | hole t => if t.isPrimitive then [] else null t :: c.calls t
  | call m ps => (refineFirst c ps).map (call m)
  | null _ => []
  | container _ _ _ _ => []
  | root _ _ => []

def refineFirst (c : Catalog) : List Plan → List (List Plan)
  | [] => []
  | p :: ps =>
    match p.refine c with
    | [] => (refineFirst c ps).map (p :: ·)
    | qs => qs.map (· :: ps)

end

end Plan

end Symex
