import Mathlib.Data.Set.Card
import Mathlib.Order.Interval.Finset.Nat
import Symex.Proofs.Model.Exact

/-!
# A copy is the same graph

Main statement: if all that a handle reaches is built, copying it ends, and renames what is reached one to one onto the
slots that it adds.
-/

namespace Symex

namespace Store

/-- The handles that `h` reaches. -/
def reachable (s : Store) (h : Handle) : Set Handle := {k | s.Reaches h k}

/-- The handles of `t` past those of `s`. -/
def added (s t : Store) : Set Handle := {k | s.size ≤ k.index ∧ k.index < t.size}

theorem ncard_added (s t : Store) : (s.added t).ncard = t.size - s.size := by
  have hindex : Set.BijOn Handle.index (s.added t) (Set.Ico s.size t.size) := by
    refine ⟨fun k hk => hk, fun j _ k _ he => ?_, fun i hi => ⟨⟨i⟩, hi, rfl⟩⟩
    cases j
    cases k
    exact congrArg Handle.mk he
  rw [hindex.ncard_eq, ← Finset.coe_Ico, Set.ncard_coe_finset, Nat.card_Ico]

theorem Reaches.child {s : Store} {h k : Handle} {m : Model} (hr : s.Reaches h k) (hm : s.get? k = some m) :
    ∀ j ∈ m.children, s.Reaches h j := fun _ hj => hr.tail ⟨m, hm, hj⟩

theorem closedOn_reaches {s : Store} {h : Handle} (hbuilt : ∀ k ∈ s.reachable h, (s.get? k).isSome) :
    s.ClosedOn (s.Reaches h) := by
  intro k hk
  obtain ⟨m, hm⟩ := Option.isSome_iff_exists.mp (hbuilt k hk)
  exact ⟨m, hm, Reaches.child hk hm⟩

end Store

namespace Copying

variable {source target : Store} {c : Copying} {h : Handle}

theorem copyWithin_of_le {n n' : Nat} (hle : n ≤ n') {c' : Copying} (hc : copyWithin source n c h = .ok c') :
    copyWithin source n' c h = .ok c' := by
  induction n generalizing n' c c' h with
  | zero => cases hc
  | succ n ih =>
    obtain ⟨n', rfl⟩ := Nat.exists_eq_add_of_le' hle
    rw [← Nat.add_assoc, copyWithin_succ]
    rw [copyWithin_succ] at hc
    split at hc
    next hin =>
      rw [if_pos hin]
      exact hc
    next hin =>
      rw [if_neg hin]
      obtain ⟨m, hm, hc⟩ := bind_eq_ok.mp hc
      obtain ⟨b, hb, hc⟩ := bind_eq_ok.mp hc
      -- Only the copies of the children depend on the number of links.
      exact bind_eq_ok.mpr ⟨m, hm, bind_eq_ok.mpr ⟨b, foldlM_mono (ih (Nat.le_add_left n n')) hb, hc⟩⟩

/-- All images are past the slots there were. -/
structure Past (base : Nat) (c : Copying) : Prop where
  size : base ≤ c.store.size
  image : ∀ {x k : Handle}, c.images.find? x = some k → base ≤ k.index

theorem kept_past (source : Store) (base : Nat) (reached : Handle → Prop) :
    Kept source reached fun _ c => Past base c := by
  constructor
  · intro pending c h _ hp _ _
    refine ⟨?_, fun {x k} hx => ?_⟩
    · rw [size_begin]
      exact Nat.le_succ_of_le hp.size
    · rw [find?_begin] at hx
      split at hx
      next => exact Option.some.inj hx ▸ hp.size
      next => exact hp.image hx
  · intro pending c h new m _ hp _ _
    refine ⟨?_, hp.image⟩
    show base ≤ (c.store.fill new _).size
    rw [Store.size_fill]
    exact hp.size

/-! ### The renaming -/

section Renaming

variable (hf : c.Faithful source []) (hh : (c.images.find? h).isSome)
include hf hh

theorem find?_image_of_reaches {k : Handle} (hk : source.Reaches h k) : c.images.find? k = some (c.image k) := by
  obtain ⟨x, hx⟩ := Option.isSome_iff_exists.mp (hf.isSome_of_reaches hk hh)
  rw [image_of_find? hx, hx]

theorem bijOn_image (he : c.Exact target.size (source.Reaches h)) (hp : c.Past target.size) :
    Set.BijOn c.image (source.reachable h) (target.added c.store) := by
  have himage : ∀ {k}, k ∈ source.reachable h → c.images.find? k = some (c.image k) :=
    fun hk => find?_image_of_reaches hf hh hk
  refine ⟨?_, ?_, ?_⟩
  · intro k hk
    exact ⟨hp.image (himage hk), hf.lt (himage hk)⟩
  · intro j hj k hk hjk
    exact he.inj (himage hj) (hjk ▸ himage hk)
  · rintro k ⟨hle, hlt⟩
    obtain ⟨j, hj⟩ := he.onto hle hlt
    exact ⟨j, he.reached hj, image_of_find? hj⟩

theorem get?_image {k : Handle} (hk : k ∈ source.reachable h) :
    ∃ m, source.get? k = some m ∧ c.store.get? (c.image k) = some (m.mapHandles c.image) := by
  obtain ⟨m, hm, hstore, -⟩ := hf.copied (find?_image_of_reaches hf hh hk) List.not_mem_nil
  exact ⟨m, hm, hstore⟩

end Renaming

/-- If all that `h` reaches is built, it can be copied into any store, over any number of links that is larger than the
number of slots. The slots there were stay, and the new ones are what `h` reaches, under a renaming. -/
theorem copy_isomorphic (source target : Store) {h : Handle}
    (hbuilt : ∀ k ∈ source.reachable h, (source.get? k).isSome) :
    ∃ k c, copy source { store := target } h = .ok (k, c) ∧
      (∀ n, source.size < n → copyWithin source n { store := target } h = .ok c) ∧
      target.Extends c.store ∧ c.store.size = target.size + (source.reachable h).ncard ∧
      ∃ f, Set.BijOn f (source.reachable h) (target.added c.store) ∧ f h = k ∧
        ∀ j ∈ source.reachable h, ∃ m, source.get? j = some m ∧ c.store.get? (f j) = some (m.mapHandles f) := by
  have hstart := faithful_of_no_images source target
  have hclosed : source.ClosedOn (source.Reaches h) := Store.closedOn_reaches hbuilt
  have hself : source.Reaches h h := .refl
  obtain ⟨k, c, hc⟩ := exists_copy hclosed hself hstart
  obtain ⟨hg, hf, hk⟩ := copy_spec hc hstart
  have he := (kept_exact source target.size (source.Reaches h)).copy Store.Reaches.child hc hstart hself
    (exact_of_no_images target _)
  have hp := (kept_past source target.size (source.Reaches h)).copy Store.Reaches.child hc hstart hself
    ⟨Nat.le_refl _, fun hx => by cases hx⟩
  have hh : (c.images.find? h).isSome := Option.isSome_iff_exists.mpr ⟨k, hk⟩
  have hbij := bijOn_image hf hh he hp
  refine ⟨k, c, hc, ?_, hg.store, ?_, c.image, hbij, image_of_find? hk, fun j => get?_image hf hh⟩
  · intro n hn
    obtain ⟨b, hb, hpair⟩ := bind_eq_ok.mp hc
    cases hpair
    exact copyWithin_of_le hn hb
  · rw [hbij.ncard_eq, Store.ncard_added]
    exact (Nat.add_sub_cancel' hp.size).symm

/-- A list with the key `1` for the list itself, and a slot that is not built. -/
def looped : Store :=
  let xs : Term := .param "xs" (.object "List")
  .ofSlots [some (.container .list ⟨xs, ⟨1⟩, [(⟨1⟩, ⟨2⟩)], {}⟩), some (.primitive (.int 1) (.int 1) {}),
    some (.sameAs xs ⟨0⟩), none]

theorem copy_isomorphic_looped :
    let target : Store := .ofSlots [none, some (.null .null)]
    (∀ k ∈ looped.reachable ⟨0⟩, (looped.get? k).isSome) ∧
      ∃ k c, copy looped { store := target } ⟨0⟩ = .ok (k, c) ∧ target.Extends c.store ∧
        c.store.size = target.size + (looped.reachable ⟨0⟩).ncard := by
  intro target
  have hclosed : ∀ j ∈ [⟨0⟩, ⟨1⟩, ⟨2⟩], ∀ k ∈ ((looped.get? j).map Model.children).getD [],
      k ∈ ([⟨0⟩, ⟨1⟩, ⟨2⟩] : List Handle) := by decide
  have hmem : ∀ k ∈ looped.reachable ⟨0⟩, k ∈ ([⟨0⟩, ⟨1⟩, ⟨2⟩] : List Handle) := by
    intro k hk
    induction hk with
    | refl => decide
    | tail _ hstep ih =>
      obtain ⟨m, hm, hk⟩ := hstep
      refine hclosed _ ih _ ?_
      rw [hm]
      exact hk
  have hbuilt : ∀ k ∈ looped.reachable ⟨0⟩, (looped.get? k).isSome := by
    intro k hk
    have hall : ∀ k ∈ ([⟨0⟩, ⟨1⟩, ⟨2⟩] : List Handle), (looped.get? k).isSome := by decide
    exact hall k (hmem k hk)
  obtain ⟨k, c, hc, -, hext, hsize, -⟩ := copy_isomorphic looped target hbuilt
  exact ⟨hbuilt, k, c, hc, hext, hsize⟩

end Copying

end Symex
