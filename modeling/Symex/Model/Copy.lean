import Symex.Data.Table
import Symex.Model.Store

/-!
# Copying between stores

A copy takes the graph of models that a handle reaches into another store. Each model is copied once: the images
made so far are kept, so cycles end and sharing stays, also between the roots of one copy.
-/

namespace Symex

/-- A copy under way: the store it goes to, and where each handle has gone. -/
structure Copying where
  store : Store := {}
  images : Table Handle Handle := {}

namespace Copying

/-- Where a handle has gone; a handle that has gone nowhere stays as it is. -/
def image (c : Copying) (h : Handle) : Handle := (c.images.find? h).getD h

/-- Copies what `h` reaches, over at most `n` links. A slot is reserved for the image of `h` before the models it
refers to are copied, and set after them. -/
def copyWithin (source : Store) : Nat → Copying → Handle → Except Fault Copying
  | 0, _, h => .error (.unbuilt h source.size)
  | n + 1, c, h =>
    if c.images.contains h then .ok c
    else do
      let (new, store) := c.store.reserve
      let model ← source.get h
      let c ← model.children.foldlM (copyWithin source n) { store, images := c.images.insert h new }
      let store ← c.store.set new (model.mapHandles c.image)
      .ok { c with store }

/-- Copies what `h` reaches. A path to a model that is not yet copied has no handle twice, so it has at most one
link more than there are slots. -/
def copy (source : Store) (c : Copying) (h : Handle) : Except Fault (Handle × Copying) := do
  let c ← copyWithin source (source.size + 1) c h
  .ok (c.image h, c)

end Copying

end Symex
