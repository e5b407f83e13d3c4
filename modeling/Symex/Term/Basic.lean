import Symex.Data.Table
import Symex.Term.Value

/-!
# Terms

A term denotes a value over the heap before the call: a parameter, a local, a constant, or a read of a field, a
static field, an array element or an array length. Writes made during execution are kept apart from terms.
-/

namespace Symex

/-- A term over the heap before the call. -/
inductive Term where
  /-- A parameter of the method under analysis, or of a probe. -/
  | param (name : String) (ty : Ty)
  /-- A local created during execution. -/
  | localVar (name : String) (ty : Ty)
  | const (value : Value)
  | field (base : Term) (field : Field)
  | static (field : Field)
  | element (array index : Term) (elem : Ty)
  | length (array : Term)
  deriving DecidableEq, Inhabited

namespace Term

/-- Alternatives as they are listed, then components from left to right. -/
def cmp : Term → Term → Ordering
  | param a t, param b u => (compare a b).then (compare t u)
  | localVar a t, localVar b u => (compare a b).then (compare t u)
  | const v, const w => compare v w
  | field a f, field b g => (a.cmp b).then (compare f g)
  | static f, static g => compare f g
  | element a i t, element b j u => (a.cmp b).then ((i.cmp j).then (compare t u))
  | length a, length b => a.cmp b
  | a, b => compare a.ctorIdx b.ctorIdx

instance : Ord Term := ⟨cmp⟩

def int (n : Int) : Term := const (.int n)

def null : Term := const .null

def ty : Term → Ty
  | param _ t | localVar _ t => t
  | const v => v.ty
  | field _ f => f.ty
  | static f => f.ty
  | element _ _ t => t
  | length _ => .int

def isReference (t : Term) : Bool := t.ty.isReference

def isPrimitive (t : Term) : Bool := t.ty.isPrimitive

def isArray (t : Term) : Bool := t.ty.isArray

def isConst : Term → Bool
  | const _ => true
  | _ => false

/-- The term and everything below it, outermost first, an array before its index. -/
def subterms : Term → List Term
  | field b f => field b f :: b.subterms
  | element a i t => element a i t :: (a.subterms ++ i.subterms)
  | length a => length a :: a.subterms
  | t => [t]

/-- Whether `s` occurs in `t`. -/
def contains (t s : Term) : Bool := t.subterms.contains s

/-- A simultaneous replacement of terms. -/
abbrev Renaming := Table Term Term

/-- Replaces every term that has an image, the outermost first; images are not looked into. -/
def substitute (m : Renaming) : Term → Term
  | t@(field b f) => (m.find? t).getD (field (b.substitute m) f)
  | t@(element a i e) => (m.find? t).getD (element (a.substitute m) (i.substitute m) e)
  | t@(length a) => (m.find? t).getD (length (a.substitute m))
  | t => (m.find? t).getD t

def render : Term → String
  | param n _ | localVar n _ => n
  | const v => v.render
  | field b f => b.render ++ "." ++ f.name
  | static f => f.render
  | element a i _ => a.render ++ "[" ++ i.render ++ "]"
  | length a => a.render ++ ".length"

/-! ### Subterms -/

theorem self_mem_subterms (t : Term) : t ∈ t.subterms := by
  cases t <;> simp [subterms]

theorem subterms_trans {r s t : Term} (hr : r ∈ s.subterms) (hs : s ∈ t.subterms) : r ∈ t.subterms := by
  induction t with
  | param n y => simp_all [subterms]
  | localVar n y => simp_all [subterms]
  | const v => simp_all [subterms]
  | static f => simp_all [subterms]
  | field b f ih =>
    rcases List.mem_cons.mp hs with rfl | h
    · exact hr
    · exact List.mem_cons_of_mem _ (ih h)
  | element a i y iha ihi =>
    rcases List.mem_cons.mp hs with rfl | h
    · exact hr
    · rcases List.mem_append.mp h with h | h
      · exact List.mem_cons_of_mem _ (List.mem_append_left _ (iha h))
      · exact List.mem_cons_of_mem _ (List.mem_append_right _ (ihi h))
  | length a ih =>
    rcases List.mem_cons.mp hs with rfl | h
    · exact hr
    · exact List.mem_cons_of_mem _ (ih h)

@[simp] theorem contains_iff {t s : Term} : t.contains s = true ↔ s ∈ t.subterms := by
  simp [contains]

end Term

end Symex
