import Symex.Model.Basic
import Symex.Program.Graph

/-!
# Probes

A probe is a straight-line method without a result: its parameters, its statements, and for each root the local
that holds the value in the end. Beside the statements it keeps a recipe for each root, which says how the value
is put together from the parameters and the calls.
-/

namespace Symex

/-- A parameter of a probe. -/
structure Param where
  name : String
  ty : Ty
  deriving DecidableEq, Inhabited

/-- A statement of a probe. Operands are names of locals or parameters. -/
inductive Stmt where
  | assignNull (dst : String) (ty : Ty)
  | copy (dst src : String)
  /-- Allocates `dst` and runs a constructor on it. -/
  | construct (dst : String) (method : Method) (args : List String)
  /-- Allocates `dst` and runs a factory on it. -/
  | produce (dst : String) (method : Method) (args : List String)
  /-- Runs a modifier on `receiver`. -/
  | invoke (receiver : String) (method : Method) (args : List String)
  | allocate (dst : String) (kind : ContainerKind) (ty : Ty) (length : String)
  | store (container key value : String)
  deriving DecidableEq, Inhabited

namespace Stmt

def renderArgs (args : List String) : String := "(" ++ ", ".intercalate args ++ ")"

def render : Stmt → String
  | assignNull d _ => d ++ " = null"
  | copy d s => d ++ " = " ++ s
  | construct d m as => d ++ " = new " ++ m.owner ++ renderArgs as
  | produce d m as => d ++ " = " ++ m.id ++ renderArgs as
  | invoke r m as => r ++ "." ++ m.id ++ renderArgs as
  | allocate d k t n => d ++ " = new " ++ k.title ++ "<" ++ t.render ++ ">[" ++ n ++ "]"
  | store c k v => c ++ "[" ++ k ++ "] = " ++ v

/-- Whether the statement calls a method. -/
def isCall : Stmt → Bool
  | construct .. | produce .. | invoke .. => true
  | _ => false

end Stmt

/-- How a value is put together. -/
inductive Recipe where
  /-- The value of a parameter. -/
  | param (index : Nat)
  | null (name : String) (ty : Ty)
  /-- A value made by a call. -/
  | create (name : String) (method : Method) (args : List Recipe)
  /-- The receiver, changed by a call. -/
  | change (name : String) (method : Method) (receiver : Recipe) (args : List Recipe)
  | container (name : String) (kind : ContainerKind) (ty : Ty) (length : Recipe) (entries : List (Recipe × Recipe))
  /-- The value of another root. -/
  | root (name : String) (ty : Ty) (index : Nat)
  deriving Inhabited

structure Probe where
  name : String
  params : List Param := []
  body : List Stmt := []
  /-- For each root the local with its value. -/
  locals : List String := []
  /-- For each root how its value is put together. -/
  recipes : List Recipe := []

namespace Probe

def render (p : Probe) : String :=
  "static void " ++ p.name ++ "(" ++ ", ".intercalate (p.params.map fun q => q.ty.render ++ " " ++ q.name) ++ ") \x7b\n" ++
    String.join (p.body.map fun s => "    " ++ s.render ++ ";\n") ++ "    return;\n\x7d"

/-- One location for each statement, and one for the return. -/
def graph (p : Probe) : Graph := .line p.body.length

/-- The number of statements that call a method. -/
def calls (p : Probe) : Nat := p.body.countP Stmt.isCall

end Probe

end Symex
