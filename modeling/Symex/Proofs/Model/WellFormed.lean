import Symex.Proofs.Model.Aliases
import Symex.Proofs.Model.Contain
import Symex.Proofs.Model.Copied

/-!
# Well-formed stores

In a well-formed store every slot is built, every handle in a model is one of the store, an alias leads at once to an
object or a container, and no container is inside itself. Looking up, following aliases and copying are never at
fault there.
-/

namespace Symex

/-- Whether a model describes what is at an address. -/
def Model.isSubject : Model → Bool
  | .object _ _ => true
  | .container _ _ => true
  | _ => false

theorem Model.ne_sameAs_of_isSubject {m : Model} (h : m.isSubject = true) (t : Term) (k : Handle) :
    m ≠ .sameAs t k := by
  rintro rfl
  cases h

/-- The length of a container is a primitive in the store. -/
def Model.HasLength (s : Store) : Model → Prop
  | .container _ c => ∃ t v as, s.get? c.length = some (.primitive t v as)
  | _ => True

theorem Model.HasLength.mono {s t : Store} {m : Model} (h : m.HasLength s)
    (hkeep : ∀ k x, s.get? k = some x → t.get? k = some x) : m.HasLength t := by
  cases m with
  | container k c =>
    obtain ⟨u, v, as, hl⟩ := h
    exact ⟨u, v, as, hkeep _ _ hl⟩
  | _ => trivial

namespace Store

structure WellFormed (s : Store) : Prop where
  built : ∀ {h : Handle}, h.index < s.size → (s.get? h).isSome
  within : ∀ {h : Handle} {m : Model}, s.get? h = some m → ∀ k ∈ m.children, k.index < s.size
  length : ∀ {h : Handle} {m : Model}, s.get? h = some m → m.HasLength s
  aliased : ∀ {h k : Handle} {t : Term}, s.get? h = some (.sameAs t k) → ∃ m, s.get? k = some m ∧ m.isSubject = true
  acyclic : s.Acyclic

/-- Looking up a handle of the store, following aliases from it and copying what it reaches are never at fault. -/
def Faultless (s : Store) : Prop :=
  ∀ {h : Handle}, h.index < s.size → (∃ m, s.get h = .ok m) ∧ (∃ k, s.deref h = .ok k) ∧
    ∀ target : Store, ∃ k c, Copying.copy s { store := target } h = .ok (k, c)

theorem deref_of_subject {s : Store} {k : Handle} {m : Model} (hm : s.get? k = some m) (hs : m.isSubject = true) :
    s.deref k = .ok k :=
  derefWithin_of_ne_sameAs hm (Model.ne_sameAs_of_isSubject hs) s.size

theorem deref_of_sameAs {s : Store} {h k : Handle} {t : Term} {m : Model} (hh : s.get? h = some (.sameAs t k))
    (hm : s.get? k = some m) (hne : ∀ t j, m ≠ .sameAs t j) : s.deref h = .ok k := by
  obtain ⟨n, hn⟩ : ∃ n, s.size = n + 1 := Nat.exists_eq_add_one_of_ne_zero (by have := lt_size_of_get? hh; omega)
  rw [deref, hn, derefWithin, get_eq_ok.mpr hh]
  exact derefWithin_of_ne_sameAs hm hne n

namespace WellFormed

variable {s : Store} (hs : s.WellFormed)
include hs

theorem exists_get? {h : Handle} (hh : h.index < s.size) : ∃ m, s.get? h = some m :=
  Option.isSome_iff_exists.mp (hs.built hh)

theorem closed : s.Closed := fun hm k hk => hs.built (hs.within hm k hk)

/-- Following aliases ends at a model that is no alias. -/
theorem exists_deref {h : Handle} (hh : h.index < s.size) :
    ∃ k m, s.deref h = .ok k ∧ s.get? k = some m ∧ ∀ t j, m ≠ .sameAs t j := by
  obtain ⟨m, hm⟩ := hs.exists_get? hh
  cases m with
  | sameAs t k =>
    obtain ⟨x, hx, hsub⟩ := hs.aliased hm
    exact ⟨k, x, deref_of_sameAs hm hx (Model.ne_sameAs_of_isSubject hsub), hx, Model.ne_sameAs_of_isSubject hsub⟩
  | _ =>
    refine ⟨h, _, ?_, hm, fun t j he => by cases he⟩
    rw [deref, derefWithin, get_eq_ok.mpr hm]

theorem faultless : s.Faultless := by
  intro h hh
  obtain ⟨m, hm⟩ := hs.exists_get? hh
  obtain ⟨k, -, hk, -⟩ := hs.exists_deref hh
  refine ⟨⟨m, get_eq_ok.mpr hm⟩, ⟨k, hk⟩, fun target => ?_⟩
  exact Copying.exists_copy (Closed.closedOn hs.closed) (hs.built hh) (Copying.faithful_of_no_images s target)

end WellFormed

/-! ### One more model -/

/-- `t` is `s` with the model `m` in the slot `h`, which was empty or not there. -/
structure Gains (s t : Store) (h : Handle) (m : Model) : Prop where
  size_le : s.size ≤ t.size
  absent : s.get? h = none
  present : t.get? h = some m
  others : ∀ {k : Handle}, k ≠ h → t.get? k = s.get? k

theorem gains_alloc (s : Store) (m : Model) : s.Gains (s.alloc m).2 (s.alloc m).1 m := by
  refine ⟨(extends_alloc s m).size_le, get?_eq_none_of_le (Nat.le_refl _), get?_alloc_self s m, ?_⟩
  intro k hk
  rw [get?_alloc, if_neg]
  intro he
  exact hk (by cases k; exact congrArg Handle.mk he)

theorem gains_fill {s : Store} {h : Handle} (hh : h.index < s.size) (hn : s.get? h = none) (m : Model) :
    s.Gains (s.fill h m) h m := by
  refine ⟨Nat.le_of_eq (size_fill s h m).symm, hn, ?_, ?_⟩
  · rw [get?_fill, if_pos ⟨rfl, hh⟩]
  · intro k hk
    rw [get?_fill, if_neg fun c => hk c.1.symm]

namespace Gains

variable {s t : Store} {h : Handle} {m : Model} (hg : s.Gains t h m)
include hg

theorem get?_some {k : Handle} {x : Model} (hx : s.get? k = some x) : t.get? k = some x := by
  rw [hg.others, hx]
  rintro rfl
  rw [hg.absent] at hx
  cases hx

theorem isSome {k : Handle} (hk : (s.get? k).isSome) : (t.get? k).isSome := by
  obtain ⟨x, hx⟩ := Option.isSome_iff_exists.mp hk
  rw [hg.get?_some hx]
  rfl

theorem cases_get? {k : Handle} {x : Model} (hx : t.get? k = some x) : k = h ∧ x = m ∨ s.get? k = some x := by
  by_cases hk : k = h
  · rw [hk, hg.present] at hx
    exact Or.inl ⟨hk, (Option.some.inj hx).symm⟩
  · rw [hg.others hk] at hx
    exact Or.inr hx

/-- If containers hold built models only, the new model is in none of them, and so on no cycle. -/
theorem acyclic (hs : s.Acyclic) (hold : ∀ {x k : Handle}, t.Contains x k → (s.get? k).isSome) : t.Acyclic := by
  have hne : ∀ {x k : Handle}, t.Contains x k → k ≠ h := by
    rintro x k hc rfl
    have hk := hold hc
    rw [hg.absent] at hk
    cases hk
  have hedge : ∀ {x k : Handle}, x ≠ h → t.Contains x k → s.Contains x k := by
    rintro x k hx ⟨kind, c, hc, hk⟩
    rw [hg.others hx] at hc
    exact ⟨kind, c, hc, hk⟩
  have hpath : ∀ {x y : Handle}, x ≠ h → Relation.TransGen t.Contains x y → Relation.TransGen s.Contains x y := by
    intro x y hx hxy
    induction hxy with
    | single hc => exact .single (hedge hx hc)
    | tail hxy hc ih =>
      obtain ⟨z, -, hzy⟩ := Relation.TransGen.tail'_iff.mp hxy
      exact ih.tail (hedge (hne hzy) hc)
  intro x hx
  obtain ⟨z, -, hzx⟩ := Relation.TransGen.tail'_iff.mp hx
  exact hs x (hpath (hne hzx) hx)

end Gains

end Store

end Symex
