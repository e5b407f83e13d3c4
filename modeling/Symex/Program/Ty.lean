/-!
# Types, fields and methods

The vocabulary in which the program under analysis is described: static types, fields with their declared type,
and the signatures of constructors, factories and modifiers. The orders are the ones in which ordered sets of
these things are read: alternatives as they are listed here, then components from left to right.
-/

namespace Symex

/-- Name of a class. -/
abbrev ClassName := String

/-- The class that every reference conforms to. -/
def rootClass : ClassName := "java.lang.Object"

/-- Static type of a value. -/
inductive Ty where
  | void
  | bool
  | char
  | int
  | long
  | object (name : ClassName)
  | array (elem : Ty)
  deriving DecidableEq, Inhabited

namespace Ty

def cmp : Ty → Ty → Ordering
  | object a, object b => compare a b
  | array a, array b => a.cmp b
  | a, b => compare a.ctorIdx b.ctorIdx

instance : Ord Ty := ⟨cmp⟩

def isPrimitive : Ty → Bool
  | bool | char | int | long => true
  | _ => false

def isArray : Ty → Bool
  | array _ => true
  | _ => false

def isReference : Ty → Bool
  | object _ | array _ => true
  | _ => false

/-- Element type of an array type. -/
def element? : Ty → Option Ty
  | array e => some e
  | _ => none

/-- Class of an object type. -/
def class? : Ty → Option ClassName
  | object c => some c
  | _ => none

def render : Ty → String
  | void => "void"
  | bool => "boolean"
  | char => "char"
  | int => "int"
  | long => "long"
  | object c => c
  | array e => e.render ++ "[]"

/-- The type without brackets that a word names; a word that names no other type is a class. -/
def ofWord : String → Ty
  | "void" => void
  | "boolean" => bool
  | "char" => char
  | "int" => int
  | "long" => long
  | c => object c

/-- Reads a type of at most `n` levels of brackets. -/
def readWithin : Nat → String → Ty
  | 0, s => object s
  | n + 1, s => if s.endsWith "[]" then array (readWithin n (s.dropEnd 2).toString) else ofWord s

/-- Reads the text of a type. -/
def ofText (s : String) : Ty := readWithin s.length s

theorem not_isPrimitive_of_isReference {t : Ty} (h : t.isReference = true) : t.isPrimitive = false := by
  cases t <;> simp_all [isReference, isPrimitive]

end Ty

/-- A field of a class, with its declared type. -/
structure Field where
  owner : ClassName
  name : String
  ty : Ty
  deriving DecidableEq, Ord, Inhabited

def Field.render (f : Field) : String := f.owner ++ "." ++ f.name

/-- What a method does for a plan: a constructor makes a value of its class, a modifier changes the receiver it
is called on, a factory makes a value of its result type. -/
inductive MethodKind where
  | constructor
  | modifier
  | factory
  deriving DecidableEq, Ord, Inhabited

/-- Signature of an accessible method. The parameters leave out the receiver. -/
structure Method where
  id : String
  owner : ClassName
  kind : MethodKind
  params : List Ty
  result : Ty
  deriving DecidableEq, Ord, Inhabited

namespace Method

def constructor (owner : ClassName) (params : List Ty) : Method :=
  ⟨owner ++ ".<init>", owner, .constructor, params, .void⟩

def modifier (owner : ClassName) (name : String) (params : List Ty) (result : Ty) : Method :=
  ⟨owner ++ "." ++ name, owner, .modifier, params, result⟩

def factory (owner : ClassName) (name : String) (params : List Ty) (result : Ty) : Method :=
  ⟨owner ++ "." ++ name, owner, .factory, params, result⟩

/-- Type of the value that a call contributes to a plan: the receiver's class, except for a factory. -/
def produced (m : Method) : Ty :=
  match m.kind with
  | .constructor | .modifier => .object m.owner
  | .factory => m.result

def render (m : Method) : String :=
  m.id ++ "(" ++ ", ".intercalate (m.params.map Ty.render) ++ ")"

end Method

end Symex
