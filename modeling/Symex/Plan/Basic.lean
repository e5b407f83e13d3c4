import Symex.Model.Basic

/-!
# Plans

A plan says how one value is to be made. A hole is a value still to be decided; holes of primitive type stay, they
become parameters later. A call has one plan for each argument, with the receiver first if there is one. The
plans of a container's length and entries are kept outside, by the handles of the models that they are for.
-/

namespace Symex

inductive Plan where
  | null (ty : Ty)
  | hole (ty : Ty)
  | call (method : Method) (params : List Plan)
  | container (kind : ContainerKind) (ty : Ty) (length : Handle) (entries : List (Handle × Handle))
  /-- The value made for another root. -/
  | root (ty : Ty) (index : Nat)
  deriving Inhabited

namespace Plan

def ty : Plan → Ty
  | null t => t
  | hole t => t
  | call m _ => m.produced
  | container _ t _ _ => t
  | root t _ => t

/-- Whether the plan is the value of another root. -/
def isRoot : Plan → Bool
  | root _ _ => true
  | _ => false

mutual

def render : Plan → String
  | null t => "null:" ++ t.render
  | hole t => "?" ++ t.render
  | call m ps => m.id ++ "(" ++ ", ".intercalate (renderAll ps) ++ ")"
  | container k t _ es => k.title ++ "<" ++ t.render ++ ">[" ++ toString es.length ++ " entries]"
  | root _ i => "root#" ++ toString i

def renderAll : List Plan → List String
  | [] => []
  | p :: ps => p.render :: renderAll ps

end

end Plan

end Symex
