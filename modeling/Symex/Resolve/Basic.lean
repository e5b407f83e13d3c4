import Symex.Resolve.Reference

/-!
# Resolving values

The values of interest of a state, described by models in a store of their own: in one snapshot, or in the
snapshots before and after the call together with the static fields that were touched.
-/

namespace Symex.Resolve

/-- The models of the requested values, and of static fields in the order of the fields. -/
structure Resolved where
  store : Store := {}
  params : List Handle := []
  statics : List (Field × Handle) := []

/-- The description of a state before and after the call. -/
structure Both where
  before : Resolved
  after : Resolved

/-- Resolves one value. The budget of nested models covers every address that can come up. -/
def resolveValue (p : Pass) (v : Sym) (w : Work) : Handle × Work :=
  match v with
  | .prim t => p.primitive w t p.atoms
  | .ref t wrapper => resolveReference p (p.bound + t.subterms.length) wrapper t w

/-- Resolves values in order. -/
def resolveValues (p : Pass) : List Sym → Work → List Handle × Work
  | [], w => ([], w)
  | v :: vs, w =>
    let (h, w) := resolveValue p v w
    let (hs, w) := resolveValues p vs w
    (h :: hs, w)

/-- Resolves values, and then the static fields in the way they are looked at. -/
def Pass.run (p : Pass) (values : List Sym) (statics : List (Field × Sym)) : Resolved :=
  let (params, w) := resolveValues p values {}
  let (handles, w) := resolveValues p (statics.map (·.2)) w
  { store := w.store, params, statics := (statics.map (·.1)).zip handles }

/-- Resolves `values` against one snapshot of a state. -/
def resolve (settings : Settings) (s : State) (m : Assignment) (snapshot : Snapshot) (values : List Sym) :
    Resolved :=
  (Pass.start settings s m snapshot).run values []

/-- Resolves `values` and the static fields, before the call and after it. -/
def resolveBoth (settings : Settings) (s : State) (m : Assignment) (values : List Sym) : Both :=
  let statics := s.memory.statics.toList
  { before := (Pass.start settings s m .initial).run values (statics.map fun e => (e.1, e.2.before))
    after := (Pass.start settings s m .current).run values (statics.map fun e => (e.1, e.2.after)) }

end Symex.Resolve
