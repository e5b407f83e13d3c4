import Symex.Model.Copy
import Symex.Probe.Basic
import Symex.Resolve.Basic

/-!
# Assembling models

Once the parameters of a probe have models, the recipes turn them into models of the roots: a call becomes an
assembly, a changed value an assembly with one more call, and a parameter a copy of its model. The slots of the
roots come first, so that one root can be an alias of another.
-/

namespace Symex

/-- What recipes are made from: the models of the parameters, and the slots of the roots. -/
structure Supplies where
  source : Store := {}
  params : List Handle := []
  roots : List Handle := []

namespace Supplies

/-- A copy of the model of a parameter; null if there is none. -/
def param (p : Supplies) (i : Nat) (c : Copying) : Except Fault (Handle × Copying) :=
  match p.params[i]? with
  | some h => c.copy p.source h
  | none =>
    let (h, store) := c.store.alloc (.null .null)
    .ok (h, { c with store })

end Supplies

namespace Recipe

/-- The assembly of a receiver with one more call. -/
def changed (t : Term) (receiver : Model) (call : Call) : Model :=
  match receiver with
  | .assembly _ creation changes => .assembly t creation (changes ++ [call])
  | _ => .assembly t none [call]

/-- A slot for a recipe, whose model is computed by `model`. The model of a parameter has a slot already. -/
def place (p : Supplies) (model : Copying → Except Fault (Model × Copying)) :
    Recipe → Copying → Except Fault (Handle × Copying)
  | param i, c => p.param i c
  | _, c => do
    let (m, c) ← model c
    let (h, store) := c.store.alloc m
    return (h, { c with store })

mutual

/-- The model of a recipe. -/
def model (p : Supplies) : Recipe → Copying → Except Fault (Model × Copying)
  | param i, c => do
    let (h, c) ← p.param i c
    return (← c.store.get h, c)
  | null x t, c => .ok (.null (.localVar x t), c)
  | root x t i, c =>
    match p.roots[i]? with
    | some h => .ok (.sameAs (.localVar x t) h, c)
    | none => .error (.outOfBounds p.roots.length i)
  | create x m args, c => do
    let (hs, c) ← placeAll p args c
    return (.assembly (.localVar x m.produced) (some ⟨m, hs⟩) [], c)
  | change x m r args, c => do
    let (receiver, c) ← model p r c
    let (hs, c) ← placeAll p args c
    return (changed (.localVar x m.produced) receiver ⟨m, hs⟩, c)
  | container x k t n es, c => do
    let (length, c) ← place p (fun c => model p n c) n c
    let (entries, c) ← placeEntries p es c
    return (.container k ⟨.localVar x t, length, entries, .empty⟩, c)

def placeAll (p : Supplies) : List Recipe → Copying → Except Fault (List Handle × Copying)
  | [], c => .ok ([], c)
  | r :: rs, c => do
    let (h, c) ← place p (fun c => model p r c) r c
    let (hs, c) ← placeAll p rs c
    return (h :: hs, c)

def placeEntries (p : Supplies) : List (Recipe × Recipe) → Copying → Except Fault (List (Handle × Handle) × Copying)
  | [], c => .ok ([], c)
  | (k, v) :: es, c => do
    let (key, c) ← place p (fun c => model p k c) k c
    let (value, c) ← place p (fun c => model p v c) v c
    let (hs, c) ← placeEntries p es c
    return ((key, value) :: hs, c)

end

end Recipe

namespace Probe

/-- Fills the slots of the roots, from a given one on. -/
def fillRoots (p : Supplies) : List (Handle × Recipe) → Copying → Except Fault Store
  | [], c => .ok c.store
  | (h, r) :: rs, c => do
    let (m, c) ← r.model p c
    fillRoots p rs { c with store := ← c.store.set h m }

/-- The models of the roots, given those of the parameters. -/
def assemble (p : Probe) (source : Store) (params : List Handle) : Except Fault (Store × List Handle) := do
  let roots := (List.range p.recipes.length).map Handle.mk
  let store ← fillRoots { source, params, roots } (roots.zip p.recipes) { store := .ofSlots (p.recipes.map fun _ => none) }
  return (store, roots)

end Probe

end Symex
