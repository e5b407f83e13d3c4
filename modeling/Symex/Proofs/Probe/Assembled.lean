import Symex.Probe.Assemble
import Symex.Proofs.Model.Exact
import Symex.Proofs.Model.WellFormed
import Symex.Proofs.Probe.Lowered

/-!
# Assembling without fault

If every model of a parameter is there with all that it refers to, and the recipes speak about roots there are, then
the recipes become models. Slots are only added, apart from those of the roots, which are filled one after the
other. In the end every slot is built.
-/

namespace Symex

namespace Copying

theorem Faithful.extend {source : Store} {c : Copying} (hf : Faithful source [] c) {s : Store}
    (he : c.store.Extends s) : Faithful source [] { c with store := s } := by
  constructor
  · intro h k hk
    exact he.lt (hf.lt hk)
  · intro h k hk hp
    obtain ⟨m, hm, hs, hc⟩ := hf.copied hk hp
    exact ⟨m, hm, he.get?_some hs, hc⟩

theorem grows_alloc (c : Copying) (m : Model) : Grows c { c with store := (c.store.alloc m).2 } :=
  ⟨Store.extends_alloc c.store m, fun h => h⟩

/-- A slot that is not filled is nobody's image, so filling it changes no copy. -/
theorem Faithful.fill {source : Store} {c : Copying} (hf : Faithful source [] c) {h : Handle}
    (hn : c.store.get? h = none) (m : Model) : Faithful source [] { c with store := c.store.fill h m } := by
  constructor
  · intro x k hk
    show k.index < (c.store.fill h m).size
    rw [Store.size_fill]
    exact hf.lt hk
  · intro x k hk hp
    obtain ⟨m', hm, hs, hc⟩ := hf.copied hk hp
    refine ⟨m', hm, ?_, hc⟩
    have hne : h ≠ k := by
      rintro rfl
      rw [hn] at hs
      cases hs
    show (c.store.fill h m).get? k = _
    rw [Store.get?_fill, if_neg fun e => hne e.1]
    exact hs

end Copying

/-- The models of the parameters are there, with all that they refer to. -/
def Supplies.Complete (p : Supplies) : Prop :=
  ∃ reached, p.source.ClosedOn reached ∧ ∀ h ∈ p.params, reached h

/-- A store under construction: parameters are copied, and nothing is missing but spare slots. -/
structure Supplies.Building (p : Supplies) (spare : Handle → Prop) (c : Copying) : Prop where
  faithful : c.Faithful p.source []
  whole : c.store.Whole spare
  roots : ∀ h ∈ p.roots, h.index < c.store.size

theorem Supplies.Building.alloc {p : Supplies} {spare : Handle → Prop} {c : Copying} (hc : p.Building spare c)
    {m : Model}
    (hm : ∀ k ∈ m.children, k.index < c.store.size) : p.Building spare { c with store := (c.store.alloc m).2 } :=
  ⟨hc.faithful.extend (c.grows_alloc m).store, hc.whole.alloc hm,
    fun h hh => (c.grows_alloc m).store.lt (hc.roots h hh)⟩

namespace Recipe

/-- Whatever is under construction, the recipe becomes a model that refers to what is in the store. -/
def Assembles (p : Supplies) (spare : Handle → Prop) (r : Recipe) : Prop :=
  ∀ {c : Copying}, p.Building spare c → ∃ m c', r.model p c = .ok (m, c') ∧ c.Grows c' ∧ p.Building spare c' ∧
    ∀ k ∈ m.children, k.index < c'.store.size

section Complete

variable {p : Supplies} (hp : p.Complete) {spare : Handle → Prop}

include hp

theorem exists_param (i : Nat) {c : Copying} (hc : p.Building spare c) :
    ∃ h c', p.param i c = .ok (h, c') ∧ c.Grows c' ∧ p.Building spare c' ∧ (c'.store.get? h).isSome := by
  unfold Supplies.param
  split
  next h hi =>
    obtain ⟨reached, hclosed, hbuilt⟩ := hp
    obtain ⟨k, c', hk⟩ := Copying.exists_copy hclosed (hbuilt h (List.mem_of_getElem? hi)) hc.faithful
    obtain ⟨hg, hf, himg⟩ := Copying.copy_spec hk hc.faithful
    obtain ⟨m, -, hs, -⟩ := hf.copied himg List.not_mem_nil
    exact ⟨k, c', hk, hg, ⟨hf, Copying.whole_copy hk hc.faithful hc.whole, fun h hh => hg.store.lt (hc.roots h hh)⟩,
      by rw [hs]; rfl⟩
  next =>
    exact ⟨_, _, rfl, c.grows_alloc (.null .null), hc.alloc (fun k hk => by cases hk),
      congrArg Option.isSome (Store.get?_alloc_self c.store (.null .null))⟩

theorem exists_place {r : Recipe} (hr : r.Assembles p spare) {c : Copying} (hc : p.Building spare c) :
    ∃ h c', place p (fun c => model p r c) r c = .ok (h, c') ∧ c.Grows c' ∧ p.Building spare c' ∧
      h.index < c'.store.size := by
  have halloc : ∃ h c', (do
      let e ← model p r c
      return ((e.2.store.alloc e.1).1, { e.2 with store := (e.2.store.alloc e.1).2 })) = Except.ok (h, c') ∧
      c.Grows c' ∧ p.Building spare c' ∧ h.index < c'.store.size := by
    obtain ⟨m, c₁, hm, hg, hf, hchildren⟩ := hr hc
    rw [hm]
    refine ⟨_, _, rfl, hg.trans (c₁.grows_alloc m), hf.alloc hchildren, ?_⟩
    exact Store.lt_size_of_get? (Store.get?_alloc_self c₁.store m)
  cases r with
  | param i =>
    obtain ⟨h, c', hpar, hg, hf, hsome⟩ := exists_param hp i hc
    obtain ⟨m, hm⟩ := Option.isSome_iff_exists.mp hsome
    exact ⟨h, c', hpar, hg, hf, Store.lt_size_of_get? hm⟩
  | _ => exact halloc

theorem exists_placeAll {rs : List Recipe} (hrs : ∀ r ∈ rs, r.Assembles p spare) {c : Copying}
    (hc : p.Building spare c) :
    ∃ hs c', placeAll p rs c = .ok (hs, c') ∧ c.Grows c' ∧ p.Building spare c' ∧ ∀ h ∈ hs, h.index < c'.store.size := by
  induction rs generalizing c with
  | nil => exact ⟨[], c, rfl, .refl c, hc, nofun⟩
  | cons r rs ih =>
    obtain ⟨h, c₁, h₁, hg₁, hf₁, hlt₁⟩ := exists_place hp (hrs r List.mem_cons_self) hc
    obtain ⟨hs, c₂, h₂, hg₂, hf₂, hlt₂⟩ := ih (fun q hq => hrs q (List.mem_cons_of_mem _ hq)) hf₁
    refine ⟨h :: hs, c₂, ?_, hg₁.trans hg₂, hf₂, List.forall_mem_cons.mpr ⟨hg₂.store.lt hlt₁, hlt₂⟩⟩
    rw [placeAll, h₁]
    show (placeAll p rs c₁ >>= _) = _
    rw [h₂]
    rfl

theorem exists_placeEntries {es : List (Recipe × Recipe)} (hk : ∀ e ∈ es, e.1.Assembles p spare)
    (hv : ∀ e ∈ es, e.2.Assembles p spare) {c : Copying} (hc : p.Building spare c) :
    ∃ hs c', placeEntries p es c = .ok (hs, c') ∧ c.Grows c' ∧ p.Building spare c' ∧
      ∀ e ∈ hs, e.1.index < c'.store.size ∧ e.2.index < c'.store.size := by
  induction es generalizing c with
  | nil => exact ⟨[], c, rfl, .refl c, hc, nofun⟩
  | cons e es ih =>
    obtain ⟨h, c₁, h₁, hg₁, hf₁, hlt₁⟩ := exists_place hp (hk e List.mem_cons_self) hc
    obtain ⟨k, c₂, h₂, hg₂, hf₂, hlt₂⟩ := exists_place hp (hv e List.mem_cons_self) hf₁
    obtain ⟨hs, c₃, h₃, hg₃, hf₃, hlt₃⟩ := ih (fun q hq => hk q (List.mem_cons_of_mem _ hq))
      (fun q hq => hv q (List.mem_cons_of_mem _ hq)) hf₂
    refine ⟨(h, k) :: hs, c₃, ?_, hg₁.trans (hg₂.trans hg₃), hf₃,
      List.forall_mem_cons.mpr ⟨⟨(hg₂.trans hg₃).store.lt hlt₁, hg₃.store.lt hlt₂⟩, hlt₃⟩⟩
    show (place p (fun c => model p e.1 c) e.1 c >>= _) = _
    rw [h₁]
    show (place p (fun c => model p e.2 c) e.2 c₁ >>= _) = _
    rw [h₂]
    show (placeEntries p es c₂ >>= _) = _
    rw [h₃]
    rfl

omit hp in
theorem mem_children_changed {t : Term} {receiver : Model} {call : Call} {k : Handle}
    (hk : k ∈ (changed t receiver call).children) : k ∈ receiver.children ∨ k ∈ call.args := by
  cases receiver with
  | assembly u creation changes =>
    simpa [changed, Model.children, or_assoc] using hk
  | _ => exact Or.inr (by simpa [changed, Model.children] using hk)

theorem Grounded.assembles {r : Recipe} (hr : r.Grounded p.roots.length) : r.Assembles p spare := by
  induction hr with
  | param i =>
    intro c hc
    obtain ⟨h, c', hpar, hg, hf, hsome⟩ := exists_param hp i hc
    obtain ⟨m, hm⟩ := Option.isSome_iff_exists.mp hsome
    refine ⟨m, c', ?_, hg, hf, hf.whole.within hm⟩
    rw [model, hpar]
    show (c'.store.get h >>= _) = _
    rw [Store.get_eq_ok.mpr hm]
    rfl
  | null x t => exact fun {c} hc => ⟨_, c, rfl, .refl c, hc, nofun⟩
  | @root x t i hi =>
    intro c hc
    obtain ⟨h, hh⟩ : ∃ h, p.roots[i]? = some h := ⟨_, List.getElem?_eq_getElem hi⟩
    refine ⟨.sameAs (.localVar x t) h, c, ?_, .refl c, hc, ?_⟩
    · rw [model, hh]
    · exact List.forall_mem_singleton.mpr (hc.roots h (List.mem_of_getElem? hh))
  | create x m _ ih =>
    intro c hc
    obtain ⟨hs, c', h, hg, hf, hlt⟩ := exists_placeAll hp (fun r hr => ih r hr) hc
    refine ⟨.assembly (.localVar x m.produced) (some ⟨m, hs⟩) [], c', ?_, hg, hf, ?_⟩
    · rw [model, h]
      rfl
    · simpa [Model.children] using hlt
  | change x m _ _ ihr ih =>
    intro c hc
    obtain ⟨receiver, c₁, h₁, hg₁, hf₁, hlt₁⟩ := ihr hc
    obtain ⟨hs, c₂, h₂, hg₂, hf₂, hlt₂⟩ := exists_placeAll hp (fun r hr => ih r hr) hf₁
    refine ⟨changed (.localVar x m.produced) receiver ⟨m, hs⟩, c₂, ?_, hg₁.trans hg₂, hf₂, ?_⟩
    · rw [model, h₁]
      show (placeAll p _ c₁ >>= _) = _
      rw [h₂]
      rfl
    · intro k hk
      rcases mem_children_changed hk with hk | hk
      · exact hg₂.store.lt (hlt₁ k hk)
      · exact hlt₂ k hk
  | container x k t _ _ _ ihl ihk ihv =>
    intro c hc
    obtain ⟨h, c₁, h₁, hg₁, hf₁, hlt₁⟩ := exists_place hp ihl hc
    obtain ⟨hs, c₂, h₂, hg₂, hf₂, hlt₂⟩ := exists_placeEntries hp (fun e he => ihk e he) (fun e he => ihv e he) hf₁
    refine ⟨.container k ⟨.localVar x t, h, hs, .empty⟩, c₂, ?_, hg₁.trans hg₂, hf₂, ?_⟩
    · rw [model, h₁]
      show (placeEntries p _ c₁ >>= _) = _
      rw [h₂]
      rfl
    · refine List.forall_mem_cons.mpr ⟨hg₂.store.lt hlt₁, ?_⟩
      intro j hj
      obtain ⟨e, he, hje⟩ := List.mem_flatMap.mp hj
      obtain ⟨hkey, hvalue⟩ := hlt₂ e he
      rcases List.mem_cons.mp hje with rfl | hje
      · exact hkey
      · rw [List.mem_singleton.mp hje]
        exact hvalue

end Complete

end Recipe

/-- A slot has the model that a recipe became, at some point of the construction. What was made for it has stayed. -/
def Recipe.Fills (p : Supplies) (r : Recipe) (h : Handle) (s : Store) : Prop :=
  ∃ spare c m c', p.Building spare c ∧ r.model p c = .ok (m, c') ∧ s.get? h = some m ∧
    ∀ (k : Handle) (x : Model), c'.store.get? k = some x → s.get? k = some x

namespace Probe

/-- The slots of the roots are spare until they are filled. -/
theorem exists_fillRoots {p : Supplies} (hp : p.Complete) {rs : List (Handle × Recipe)}
    (hrs : ∀ e ∈ rs, e.2.Grounded p.roots.length) (hn : (rs.map (·.1)).Nodup) {c : Copying}
    (hc : p.Building (fun k => k ∈ rs.map (·.1)) c)
    (hempty : ∀ e ∈ rs, e.1.index < c.store.size ∧ c.store.get? e.1 = none) :
    ∃ s, fillRoots p rs c = .ok s ∧ s.Whole (fun _ => False) ∧ c.store.size ≤ s.size ∧
      (∀ {h : Handle} {m : Model}, c.store.get? h = some m → s.get? h = some m) ∧ ∀ e ∈ rs, e.2.Fills p e.1 s := by
  induction rs generalizing c with
  | nil => exact ⟨c.store, rfl, hc.whole.mono (by simp), Nat.le_refl _, id, nofun⟩
  | cons e rs ih =>
    obtain ⟨m, c₁, hm, hg, hf, hchildren⟩ := (hrs e List.mem_cons_self).assembles hp hc
    obtain ⟨hlt, hnone⟩ := hempty e List.mem_cons_self
    have hnone₁ : c₁.store.get? e.1 = none := (hg.store.get?_eq hlt).trans hnone
    have hset := Store.set_eq_ok.mpr ⟨hg.store.lt hlt, hnone₁, (rfl : c₁.store.fill e.1 m = _)⟩
    have hn' : e.1 ∉ rs.map (·.1) ∧ (rs.map (·.1)).Nodup := by simpa using hn
    have hfilled : p.Building (fun k => k ∈ rs.map (·.1)) { c₁ with store := c₁.store.fill e.1 m } := by
      refine ⟨hf.faithful.fill hnone₁ m, (hf.whole.mono ?_).fill (hg.store.lt hlt) hchildren, ?_⟩
      · exact fun k hk => List.mem_cons.mp hk
      · intro h hh
        show h.index < (c₁.store.fill e.1 m).size
        rw [Store.size_fill]
        exact hf.roots h hh
    obtain ⟨s, hs, hwhole, hle, hkeep, hfills⟩ := ih (fun q hq => hrs q (List.mem_cons_of_mem _ hq)) hn'.2 hfilled (by
      intro q hq
      obtain ⟨hql, hqn⟩ := hempty q (List.mem_cons_of_mem _ hq)
      have hne : e.1 ≠ q.1 := fun he => hn'.1 (he ▸ List.mem_map_of_mem hq)
      constructor
      · show q.1.index < (c₁.store.fill e.1 m).size
        rw [Store.size_fill]
        exact hg.store.lt hql
      · show (c₁.store.fill e.1 m).get? q.1 = none
        rw [Store.get?_fill, if_neg fun he => hne he.1]
        exact (hg.store.get?_eq hql).trans hqn)
    have hgains := Store.gains_fill (hg.store.lt hlt) hnone₁ m
    refine ⟨s, ?_, hwhole, ?_, fun hk => hkeep (hgains.get?_some (hg.store.get?_some hk)), ?_⟩
    · show (e.2.model p c >>= _) = _
      rw [hm]
      show (c₁.store.set e.1 m >>= _) = _
      rw [hset]
      exact hs
    · have hsize : (c₁.store.fill e.1 m).size = c₁.store.size := Store.size_fill _ _ _
      have hgrows := hg.store.size_le
      have hle' : (c₁.store.fill e.1 m).size ≤ s.size := hle
      omega
    · exact List.forall_mem_cons.mpr
        ⟨⟨_, c, m, c₁, hc, hm, hkeep hgains.present, fun k x hk => hkeep (hgains.get?_some hk)⟩, hfills⟩

theorem get?_ofSlots_none {α : Type} (l : List α) (h : Handle) :
    (Store.ofSlots (l.map fun _ => none)).get? h = none := by
  rw [Store.ofSlots, Store.get?, List.map_const', Array.getD_eq_getD_getElem?, List.getElem?_toArray,
    List.getElem?_replicate]
  split <;> rfl

/-- Models for `n` roots: they are in the first slots, and no slot is left unbuilt. -/
structure Assembled (n : Nat) (out : Store × List Handle) : Prop where
  handles_eq : out.2 = (List.range n).map Handle.mk
  whole : out.1.Whole fun _ => False
  le_size : n ≤ out.1.size

theorem exists_assemble {p : Probe} {source : Store} {params : List Handle} {reached : Handle → Prop}
    (hclosed : source.ClosedOn reached) (hbuilt : ∀ h ∈ params, reached h)
    (hp : ∀ r ∈ p.recipes, r.Grounded p.recipes.length) :
    ∃ out, p.assemble source params = .ok out ∧ Assembled p.recipes.length out ∧
      ∀ (i : Nat) (r : Recipe), p.recipes[i]? = some r →
        r.Fills { source, params, roots := (List.range p.recipes.length).map Handle.mk } ⟨i⟩ out.1 := by
  have hcomplete : Supplies.Complete
      { source, params, roots := (List.range p.recipes.length).map Handle.mk } := ⟨reached, hclosed, hbuilt⟩
  have hlen : ((List.range p.recipes.length).map Handle.mk).length = p.recipes.length := by simp
  have hsize : (Store.ofSlots (p.recipes.map fun _ => none)).size = p.recipes.length := by
    simp [Store.ofSlots, Store.size]
  have hground : ∀ e ∈ ((List.range p.recipes.length).map Handle.mk).zip p.recipes,
      e.2.Grounded ((List.range p.recipes.length).map Handle.mk).length := by
    intro e he
    rw [hlen]
    exact hp e.2 (List.of_mem_zip he).2
  have hfirst : (((List.range p.recipes.length).map Handle.mk).zip p.recipes).map (·.1) =
      (List.range p.recipes.length).map Handle.mk := List.map_fst_zip hlen.le
  have hlt : ∀ h ∈ (List.range p.recipes.length).map Handle.mk, h.index < p.recipes.length := by
    intro h hh
    obtain ⟨i, hi, rfl⟩ := List.mem_map.mp hh
    exact List.mem_range.mp hi
  have hnodup : ((((List.range p.recipes.length).map Handle.mk).zip p.recipes).map (·.1)).Nodup := by
    rw [hfirst]
    exact List.nodup_range.map fun a b hab => by cases hab; rfl
  have hempty : Supplies.Building { source, params, roots := (List.range p.recipes.length).map Handle.mk }
      (fun k => k ∈ (((List.range p.recipes.length).map Handle.mk).zip p.recipes).map (·.1))
      { store := .ofSlots (p.recipes.map fun _ => none) } := by
    refine ⟨Copying.faithful_of_no_images _ _, ⟨?_, ?_⟩, fun h hh => hsize.symm ▸ hlt h hh⟩
    · intro k hk hn
      rw [hfirst] at hn
      exact absurd (List.mem_map.mpr ⟨k.index, List.mem_range.mpr (hsize ▸ hk), rfl⟩) hn
    · intro k m hm
      rw [get?_ofSlots_none] at hm
      cases hm
  obtain ⟨s, hs, hwhole, hle, -, hfills⟩ := exists_fillRoots hcomplete hground hnodup hempty (by
      intro e he
      exact ⟨hsize.symm ▸ hlt e.1 (List.of_mem_zip he).1, get?_ofSlots_none _ _⟩)
  refine ⟨_, bind_eq_ok.mpr ⟨s, hs, rfl⟩, ⟨rfl, hwhole, hsize ▸ hle⟩, ?_⟩
  intro i r hr
  refine hfills (⟨i⟩, r) (List.mem_of_getElem? (List.getElem?_zip_eq_some.mpr ⟨?_, hr⟩))
  rw [List.getElem?_map, List.getElem?_range (List.getElem?_eq_some_iff.mp hr).1]
  rfl

end Probe

end Symex
