import Symex.Model.Store

/-!
# Models as text

The text of a model shows what it refers to in place. An alias shows only the handle of its target, and a model
that is met inside itself is marked as a cycle.
-/

namespace Symex.Store

/-- The text at `h`, where `within` are the models that are being shown, over at most `n` levels. -/
def renderWithin (s : Store) : Nat → List Handle → Handle → Except Fault String
  | 0, _, h => .error (.unbuilt h s.size)
  | n + 1, within, h =>
    if h ∈ within then .ok ("<cycle " ++ h.render ++ ">")
    else do
      let inner := s.renderWithin n (h :: within)
      match ← s.get h with
      | .null _ => .ok "null"
      | .primitive _ v _ => .ok v.render
      | .object t as => .ok (t.ty.render ++ "\x7b" ++ ", ".intercalate (as.toList.map Atom.render) ++ "\x7d")
      | .sameAs _ t => .ok ("ref " ++ t.render)
      | .container k c =>
        let length ← inner c.length
        let entries ← c.entries.mapM fun e => do
          let key ← inner e.1
          let value ← inner e.2
          .ok (key ++ ": " ++ value)
        .ok (k.name ++ "[" ++ length ++ "]\x7b" ++ ", ".intercalate entries ++ "\x7d")
      | .assembly _ c cs =>
        let calls ← (c.toList ++ cs).mapM fun call => do
          let args ← call.args.mapM inner
          .ok (call.method.id ++ "(" ++ ", ".intercalate args ++ ")")
        .ok ("; ".intercalate calls)

/-- The text of the model at `h`. No model is shown inside itself, so there is at most one level more than there
are slots. -/
def render (s : Store) (h : Handle) : Except Fault String := s.renderWithin (s.size + 1) [] h

end Symex.Store
