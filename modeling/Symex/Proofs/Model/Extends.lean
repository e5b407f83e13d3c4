import Symex.Model.Store

/-!
# Stores that grow

A store extends another if it has all its slots, with the same contents. New slots never touch old ones, so
whatever was found at a handle is found there for good.
-/

namespace Symex.Store

/-- The slots of `s` are the first slots of `t`. -/
structure Extends (s t : Store) : Prop where
  size_le : s.size ≤ t.size
  get?_eq : ∀ {h : Handle}, h.index < s.size → t.get? h = s.get? h

namespace Extends

theorem refl (s : Store) : s.Extends s := ⟨Nat.le_refl _, fun _ => rfl⟩

theorem trans {r s t : Store} (h : r.Extends s) (k : s.Extends t) : r.Extends t := by
  refine ⟨Nat.le_trans h.size_le k.size_le, ?_⟩
  intro x hx
  rw [k.get?_eq (Nat.lt_of_lt_of_le hx h.size_le), h.get?_eq hx]

theorem get?_some {s t : Store} (e : s.Extends t) {h : Handle} {m : Model} (hm : s.get? h = some m) :
    t.get? h = some m := by
  rw [e.get?_eq (lt_size_of_get? hm), hm]

theorem lt {s t : Store} (e : s.Extends t) {h : Handle} (hh : h.index < s.size) : h.index < t.size :=
  Nat.lt_of_lt_of_le hh e.size_le

end Extends

theorem extends_alloc (s : Store) (m : Model) : s.Extends (s.alloc m).2 := by
  constructor
  · rw [size_alloc]
    omega
  · intro h hh
    rw [get?_alloc, if_neg (by omega)]

theorem extends_reserve (s : Store) : s.Extends s.reserve.2 := by
  constructor
  · rw [size_reserve]
    omega
  · intro h _
    exact get?_reserve s h

/-- Filling a slot that is not among the old ones leaves them alone. -/
theorem Extends.fill {s t : Store} (e : s.Extends t) {h : Handle} (hh : s.size ≤ h.index) (m : Model) :
    s.Extends (t.fill h m) := by
  constructor
  · rw [size_fill]
    exact e.size_le
  · intro k hk
    have hne : h ≠ k := by
      intro he
      rw [he] at hh
      omega
    rw [get?_fill, if_neg fun c => hne c.1, e.get?_eq hk]

theorem get?_alloc_self (s : Store) (m : Model) : (s.alloc m).2.get? (s.alloc m).1 = some m := by
  rw [get?_alloc]
  exact if_pos rfl

end Symex.Store
