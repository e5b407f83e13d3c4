import Mathlib.Data.Finset.Card
import Mathlib.Data.Finset.Range
import Symex.Model.Copy
import Symex.Proofs.Data.Outcome
import Symex.Proofs.Model.Extends

/-!
# What a copy is

Every model that a copy has finished is the model it came from, with every handle renamed to its image. While the
copy is under way, the images of the models it is inside of are reserved slots. In a store where every handle leads
to a model, a copy is never at fault.
-/

namespace Symex

/-- Every handle in a model of the store leads to a model. -/
def Store.Closed (s : Store) : Prop :=
  ∀ {h : Handle} {m : Model}, s.get? h = some m → ∀ k ∈ m.children, (s.get? k).isSome

/-- Some models are there, and refer to each other only. -/
def Store.ClosedOn (s : Store) (reached : Handle → Prop) : Prop :=
  ∀ {h : Handle}, reached h → ∃ m, s.get? h = some m ∧ ∀ k ∈ m.children, reached k

theorem Store.Closed.closedOn {s : Store} (hs : s.Closed) : s.ClosedOn fun h => (s.get? h).isSome := by
  intro h hh
  obtain ⟨m, hm⟩ := Option.isSome_iff_exists.mp hh
  exact ⟨m, hm, hs hm⟩

theorem Model.mapHandles_self (x : Model) : (x.mapHandles fun h => h) = x := by
  cases x with
  | container k c => simp [mapHandles]
  | assembly t creation changes => cases creation <;> simp [mapHandles]
  | _ => rfl

theorem Model.mapHandles_congr {f g : Handle → Handle} {m : Model} (h : ∀ k ∈ m.children, f k = g k) :
    m.mapHandles f = m.mapHandles g := by
  cases m with
  | sameAs t k =>
    have hk := h k (List.mem_singleton_self k)
    simp only [mapHandles, hk]
  | container k c =>
    have hl := h c.length List.mem_cons_self
    have he : c.entries.map (fun e => (f e.1, f e.2)) = c.entries.map fun e => (g e.1, g e.2) := by
      apply List.map_congr_left
      intro e hm
      have h₁ := h e.1 (List.mem_cons_of_mem _ (List.mem_flatMap.mpr ⟨e, hm, List.mem_cons_self⟩))
      have h₂ := h e.2
        (List.mem_cons_of_mem _ (List.mem_flatMap.mpr ⟨e, hm, List.mem_cons_of_mem _ List.mem_cons_self⟩))
      rw [h₁, h₂]
    simp only [mapHandles, hl, he]
  | assembly t c cs =>
    have hcall : ∀ k ∈ c.toList ++ cs, ({ k with args := k.args.map f } : Call) = { k with args := k.args.map g } := by
      intro k hk
      have : k.args.map f = k.args.map g := by
        apply List.map_congr_left
        intro a ha
        exact h a (List.mem_flatMap.mpr ⟨k, hk, ha⟩)
      rw [this]
    have hc : c.map (fun k : Call => { k with args := k.args.map f }) =
        c.map fun k : Call => { k with args := k.args.map g } := by
      cases c with
      | none => rfl
      | some k => exact congrArg some (hcall k (List.mem_append_left _ (by simp)))
    have hcs : cs.map (fun k : Call => { k with args := k.args.map f }) =
        cs.map fun k : Call => { k with args := k.args.map g } :=
      List.map_congr_left fun k hk => hcall k (List.mem_append_right _ hk)
    simp only [mapHandles, hc, hcs]
  | _ => rfl

namespace Copying

/-- What a copy does: the slots there were stay, and so do the images. -/
structure Grows (c c' : Copying) : Prop where
  store : c.store.Extends c'.store
  images : ∀ {h k : Handle}, c.images.find? h = some k → c'.images.find? h = some k

namespace Grows

theorem refl (c : Copying) : Grows c c := ⟨.refl _, fun h => h⟩

theorem trans {a b c : Copying} (h : Grows a b) (k : Grows b c) : Grows a c :=
  ⟨h.store.trans k.store, fun hf => k.images (h.images hf)⟩

theorem isSome {c c' : Copying} (h : Grows c c') {x : Handle} (hx : (c.images.find? x).isSome) :
    (c'.images.find? x).isSome := by
  obtain ⟨k, hk⟩ := Option.isSome_iff_exists.mp hx
  rw [h.images hk]
  rfl

theorem image_eq {c c' : Copying} (h : Grows c c') {x : Handle} (hx : (c.images.find? x).isSome) :
    c'.image x = c.image x := by
  obtain ⟨k, hk⟩ := Option.isSome_iff_exists.mp hx
  simp only [image, hk, h.images hk]

end Grows

/-- The models that have images are copied, apart from the pending ones. -/
structure Faithful (source : Store) (pending : List Handle) (c : Copying) : Prop where
  lt : ∀ {h k : Handle}, c.images.find? h = some k → k.index < c.store.size
  copied : ∀ {h k : Handle}, c.images.find? h = some k → h ∉ pending →
    ∃ m, source.get? h = some m ∧ c.store.get? k = some (m.mapHandles c.image) ∧
      ∀ j ∈ m.children, (c.images.find? j).isSome

theorem faithful_of_no_images (source store : Store) : Faithful source [] { store } :=
  ⟨(fun h => by cases h), (fun h => by cases h)⟩

/-- Setting a slot aside for a model that has no image. -/
def begin (c : Copying) (h : Handle) : Copying :=
  { store := c.store.reserve.2, images := c.images.insert h c.store.reserve.1 }

section Begin

variable {source : Store} {pending : List Handle} {c : Copying} {h : Handle}

theorem grows_begin (hn : c.images.find? h = none) : Grows c (c.begin h) := by
  refine ⟨Store.extends_reserve c.store, ?_⟩
  intro x k hk
  have hne : x ≠ h := by
    rintro rfl
    rw [hn] at hk
    cases hk
  show (c.images.insert h c.store.reserve.1).find? x = some k
  rw [Table.find?_insert_ne _ _ _ _ hne]
  exact hk

theorem Faithful.begin (hf : Faithful source pending c) (hn : c.images.find? h = none) :
    Faithful source (h :: pending) (c.begin h) := by
  have hg := grows_begin hn
  have hcases : ∀ {x k : Handle}, (c.begin h).images.find? x = some k → x ≠ h → c.images.find? x = some k := by
    intro x k hk hx
    have hk' : (c.images.insert h c.store.reserve.1).find? x = some k := hk
    rwa [Table.find?_insert_ne _ _ _ _ hx] at hk'
  constructor
  · intro x k hk
    by_cases hx : x = h
    · have hk' : (c.images.insert h c.store.reserve.1).find? x = some k := hk
      rw [hx, Table.find?_insert_self] at hk'
      rw [← Option.some.inj hk']
      show c.store.size < c.store.reserve.2.size
      rw [Store.size_reserve]
      exact Nat.lt_succ_self _
    · exact hg.store.lt (hf.lt (hcases hk hx))
  · intro x k hk hx
    have hxh : x ≠ h := fun e => hx (e ▸ List.mem_cons_self)
    obtain ⟨m, hm, hs, hc⟩ := hf.copied (hcases hk hxh) fun hp => hx (List.mem_cons_of_mem _ hp)
    refine ⟨m, hm, ?_, fun j hj => hg.isSome (hc j hj)⟩
    rw [hg.store.get?_some hs]
    exact congrArg some (Model.mapHandles_congr fun j hj => (hg.image_eq (hc j hj)).symm)

end Begin

/-- Filling the slot that was set aside, when all that the model refers to has images. -/
theorem Faithful.finish {source : Store} {pending : List Handle} {c : Copying} {h new : Handle} {m : Model}
    (hf : Faithful source (h :: pending) c) (hi : c.images.find? h = some new) (hm : source.get? h = some m)
    (hc : ∀ j ∈ m.children, (c.images.find? j).isSome) (hn : c.store.get? new = none) :
    Faithful source pending { c with store := c.store.fill new (m.mapHandles c.image) } := by
  constructor
  · intro x k hk
    show k.index < (c.store.fill new _).size
    rw [Store.size_fill]
    exact hf.lt hk
  · intro x k hk hx
    by_cases hxh : x = h
    · subst hxh
      have hk' : c.images.find? x = some k := hk
      have hkn : k = new := Option.some.inj (hk'.symm.trans hi)
      refine ⟨m, hm, ?_, hc⟩
      show (c.store.fill new _).get? k = _
      rw [Store.get?_fill, hkn, if_pos ⟨rfl, hf.lt hi⟩]
      rfl
    · obtain ⟨m', hm', hs, hc'⟩ := hf.copied hk fun hp => by
        rcases List.mem_cons.mp hp with e | e
        · exact hxh e
        · exact hx e
      refine ⟨m', hm', ?_, hc'⟩
      have hne : new ≠ k := by
        rintro rfl
        rw [hn] at hs
        cases hs
      show (c.store.fill new _).get? k = _
      rw [Store.get?_fill, if_neg fun e => hne e.1, hs]
      rfl

theorem copyWithin_succ (source : Store) (n : Nat) (c : Copying) (h : Handle) :
    copyWithin source (n + 1) c h =
      if c.images.contains h then .ok c
      else (do
        let model ← source.get h
        let c' ← model.children.foldlM (copyWithin source n) (c.begin h)
        let store ← c'.store.set c.store.reserve.1 (model.mapHandles c'.image)
        .ok { c' with store }) := rfl

section CopyWithin

variable {source : Store}

/-- What a fold of copies does, if each of them does it. -/
theorem foldlM_spec {pending : List Handle} {copy : Copying → Handle → Except Fault Copying}
    (hcopy : ∀ {c c' : Copying} {h : Handle}, copy c h = .ok c' → Faithful source pending c →
      Grows c c' ∧ Faithful source pending c' ∧ (c'.images.find? h).isSome)
    {hs : List Handle} {c c' : Copying} (h : hs.foldlM copy c = .ok c') (hf : Faithful source pending c) :
    Grows c c' ∧ Faithful source pending c' ∧ ∀ x ∈ hs, (c'.images.find? x).isSome := by
  induction hs generalizing c with
  | nil =>
    have hcc : c = c' := pure_eq_ok.mp h
    exact hcc ▸ ⟨.refl c, hf, fun x hx => by cases hx⟩
  | cons x hs ih =>
    rw [List.foldlM_cons] at h
    obtain ⟨b, hb, h⟩ := bind_eq_ok.mp h
    obtain ⟨hg₁, hf₁, hx⟩ := hcopy hb hf
    obtain ⟨hg₂, hf₂, hxs⟩ := ih h hf₁
    refine ⟨hg₁.trans hg₂, hf₂, ?_⟩
    intro y hy
    rcases List.mem_cons.mp hy with rfl | hy
    · exact hg₂.isSome hx
    · exact hxs y hy

theorem copyWithin_spec {n : Nat} {pending : List Handle} {c c' : Copying} {h : Handle}
    (hc : copyWithin source n c h = .ok c') (hf : Faithful source pending c) :
    Grows c c' ∧ Faithful source pending c' ∧ (c'.images.find? h).isSome := by
  induction n generalizing pending c c' h with
  | zero => cases hc
  | succ n ih =>
    rw [copyWithin_succ] at hc
    split at hc
    next hin =>
      have hcc : c = c' := Except.ok.inj hc
      exact hcc ▸ ⟨.refl c, hf, hin⟩
    next hin =>
      have hnone : c.images.find? h = none := by simpa [Table.contains] using hin
      obtain ⟨m, hm, hc⟩ := bind_eq_ok.mp hc
      obtain ⟨b, hb, hc⟩ := bind_eq_ok.mp hc
      obtain ⟨s, hset, hc⟩ := bind_eq_ok.mp hc
      obtain ⟨hlt, hempty, rfl⟩ := Store.set_eq_ok.mp hset
      have hg₀ := grows_begin hnone
      obtain ⟨hg₁, hf₁, hch⟩ := foldlM_spec (fun hc hf => ih hc hf) hb (hf.begin hnone)
      have himg : b.images.find? h = some c.store.reserve.1 := hg₁.images (Table.find?_insert_self _ _ _)
      rw [← Except.ok.inj hc]
      refine ⟨⟨?_, (hg₀.trans hg₁).images⟩, hf₁.finish himg (Store.get_eq_ok.mp hm) hch hempty, ?_⟩
      · exact (hg₀.trans hg₁).store.fill (Nat.le_refl _) _
      · show (b.images.find? h).isSome
        rw [himg]
        rfl

/-- The number of handles of the source that have no image yet. -/
def missing (source : Store) (c : Copying) : Nat :=
  ((Finset.range source.size).filter fun i => c.images.find? ⟨i⟩ = none).card

theorem Grows.missing_le {c c' : Copying} (h : Grows c c') (source : Store) : missing source c' ≤ missing source c := by
  apply Finset.card_le_card
  intro i hi
  simp only [Finset.mem_filter] at hi ⊢
  refine ⟨hi.1, ?_⟩
  cases hf : c.images.find? ⟨i⟩ with
  | none => rfl
  | some k => exact absurd (h.images hf) (by rw [hi.2]; simp)

theorem missing_begin_lt {c : Copying} {h : Handle} (hn : c.images.find? h = none) (hlt : h.index < source.size) :
    missing source (c.begin h) < missing source c := by
  have hself : (c.begin h).images.find? h = some c.store.reserve.1 := Table.find?_insert_self _ _ _
  apply Finset.card_lt_card
  rw [Finset.ssubset_iff_of_subset]
  · refine ⟨h.index, ?_, ?_⟩
    · simp only [Finset.mem_filter, Finset.mem_range]
      exact ⟨hlt, hn⟩
    · simp only [Finset.mem_filter, hself, reduceCtorEq, and_false, not_false_eq_true]
  · intro i hi
    simp only [Finset.mem_filter] at hi ⊢
    refine ⟨hi.1, ?_⟩
    cases hf : c.images.find? ⟨i⟩ with
    | none => rfl
    | some k => exact absurd ((grows_begin hn).images hf) (by rw [hi.2]; simp)

/-- A copy succeeds if each step goes to a model that is there and to one more handle than before. -/
theorem exists_copyWithin {reached : Handle → Prop} (hclosed : source.ClosedOn reached) {n : Nat}
    {pending : List Handle} {c : Copying} {h : Handle} (hh : reached h) (hf : Faithful source pending c) (hn : missing source c < n) :
    ∃ c', copyWithin source n c h = .ok c' := by
  induction n generalizing pending c h with
  | zero => exact absurd hn (Nat.not_lt_zero _)
  | succ n ih =>
    rw [copyWithin_succ]
    split
    · exact ⟨c, rfl⟩
    next hin =>
      have hnone : c.images.find? h = none := by simpa [Table.contains] using hin
      obtain ⟨m, hm, hchildren⟩ := hclosed hh
      have hlt := missing_begin_lt hnone (Store.lt_size_of_get? hm)
      have hfold : ∀ (hs : List Handle) (b : Copying), (∀ x ∈ hs, reached x) →
          Faithful source (h :: pending) b → missing source b < n →
          ∃ b', hs.foldlM (copyWithin source n) b = .ok b' := by
        intro hs
        induction hs with
        | nil => exact fun b _ _ _ => ⟨b, rfl⟩
        | cons x hs ihs =>
          intro b hxs hb hbn
          obtain ⟨b₁, hb₁⟩ := ih (hxs x List.mem_cons_self) hb hbn
          obtain ⟨hg₁, hf₁, -⟩ := copyWithin_spec hb₁ hb
          have hle := hg₁.missing_le source
          obtain ⟨b₂, hb₂⟩ := ihs b₁ (fun y hy => hxs y (List.mem_cons_of_mem _ hy)) hf₁ (by omega)
          exact ⟨b₂, by rw [List.foldlM_cons]; exact bind_eq_ok.mpr ⟨b₁, hb₁, hb₂⟩⟩
      obtain ⟨b, hb⟩ := hfold m.children (c.begin h) hchildren (hf.begin hnone) (by omega)
      obtain ⟨hg, hfb, -⟩ := foldlM_spec (fun hc hf => copyWithin_spec hc hf) hb (hf.begin hnone)
      have hnew : c.store.reserve.1.index < (c.begin h).store.size :=
        (hf.begin hnone).lt (Table.find?_insert_self _ _ _)
      have hempty : b.store.get? c.store.reserve.1 = none := by
        rw [hg.store.get?_eq hnew]
        exact (Store.get?_reserve c.store _).trans (Store.get?_eq_none_of_le (Nat.le_refl _))
      have hset := Store.set_eq_ok.mpr
        ⟨hg.store.lt hnew, hempty, (rfl : b.store.fill c.store.reserve.1 (m.mapHandles b.image) = _)⟩
      exact ⟨_, bind_eq_ok.mpr ⟨m, Store.get_eq_ok.mpr hm, bind_eq_ok.mpr ⟨b, hb, bind_eq_ok.mpr ⟨_, hset, rfl⟩⟩⟩⟩

theorem copy_spec {pending : List Handle} {c c' : Copying} {h k : Handle} (hc : c.copy source h = .ok (k, c'))
    (hf : Faithful source pending c) :
    Grows c c' ∧ Faithful source pending c' ∧ c'.images.find? h = some k := by
  unfold copy at hc
  obtain ⟨b, hb, hc⟩ := bind_eq_ok.mp hc
  obtain ⟨hg, hfb, hsome⟩ := copyWithin_spec hb hf
  obtain ⟨j, hj⟩ := Option.isSome_iff_exists.mp hsome
  have hpair := Except.ok.inj hc
  have hbc : b = c' := congrArg Prod.snd hpair
  have hk : b.image h = k := congrArg Prod.fst hpair
  subst hbc
  refine ⟨hg, hfb, ?_⟩
  rw [← hk, image, hj]
  rfl

theorem exists_copy {reached : Handle → Prop} (hclosed : source.ClosedOn reached) {pending : List Handle}
    {c : Copying} {h : Handle} (hh : reached h) (hf : Faithful source pending c) : ∃ k c', c.copy source h = .ok (k, c') := by
  have hle : missing source c < source.size + 1 := by
    have h1 := Finset.card_filter_le (Finset.range source.size) fun i => c.images.find? ⟨i⟩ = none
    rw [Finset.card_range] at h1
    exact Nat.lt_succ_of_le h1
  obtain ⟨b, hb⟩ := exists_copyWithin hclosed hh hf hle
  exact ⟨_, _, bind_eq_ok.mpr ⟨b, hb, rfl⟩⟩

end CopyWithin

end Copying

/-- `k` leads to a finished copy of what `h` leads to. -/
def Store.Copied (source : Store) (h : Handle) (target : Store) (k : Handle) : Prop :=
  ∃ c : Copying, c.Faithful source [] ∧ c.images.find? h = some k ∧ c.store.Extends target

namespace Store.Copied

variable {source target : Store} {h k : Handle}

theorem extend (hc : source.Copied h target k) {s : Store} (he : target.Extends s) : source.Copied h s k := by
  obtain ⟨c, hf, hk, hext⟩ := hc
  exact ⟨c, hf, hk, hext.trans he⟩

/-- A copy is the model with its handles renamed to copies. -/
theorem exists_get? (hc : source.Copied h target k) {m : Model} (hm : source.get? h = some m) :
    ∃ f, target.get? k = some (m.mapHandles f) ∧ ∀ j ∈ m.children, source.Copied j target (f j) := by
  obtain ⟨c, hf, hk, hext⟩ := hc
  obtain ⟨x, hx, hstore, hchildren⟩ := hf.copied hk List.not_mem_nil
  rw [hm] at hx
  cases hx
  refine ⟨c.image, hext.get?_some hstore, ?_⟩
  intro j hj
  obtain ⟨i, hi⟩ := Option.isSome_iff_exists.mp (hchildren j hj)
  refine ⟨c, hf, ?_, hext⟩
  rw [Copying.image, hi]
  rfl

end Store.Copied

end Symex
