import Mathlib.Logic.Relation
import Symex.Proofs.Model.Copied

/-!
# Exact copies

A copy adds one slot for each handle that it reaches, and no other. So it leaves nothing unbuilt, and two copies of the
same models differ in their handles only.
-/

namespace Symex

namespace Copying

variable {source : Store} {reached : Handle → Prop} {P : List Handle → Copying → Prop}

/-- What is kept when a slot is set aside for a model that is reached, and when the slot is filled. -/
structure Kept (source : Store) (reached : Handle → Prop) (P : List Handle → Copying → Prop) : Prop where
  begin : ∀ {pending : List Handle} {c : Copying} {h : Handle}, Faithful source pending c → P pending c → reached h →
    c.images.find? h = none → P (h :: pending) (c.begin h)
  finish : ∀ {pending : List Handle} {c : Copying} {h new : Handle} {m : Model}, Faithful source (h :: pending) c →
    P (h :: pending) c → c.images.find? h = some new → (∀ j ∈ m.children, (c.images.find? j).isSome) →
    P pending { c with store := c.store.fill new (m.mapHandles c.image) }

theorem Kept.foldlM {n : Nat} {pending : List Handle}
    (hstep : ∀ {c c' : Copying} {h : Handle}, copyWithin source n c h = .ok c' → Faithful source pending c → reached h →
      P pending c → P pending c')
    {hs : List Handle} {c c' : Copying} (hc : hs.foldlM (copyWithin source n) c = .ok c') (hf : Faithful source pending c)
    (hhs : ∀ h ∈ hs, reached h) (hp : P pending c) : P pending c' := by
  induction hs generalizing c with
  | nil => exact pure_eq_ok.mp hc ▸ hp
  | cons h hs ih =>
    rw [List.foldlM_cons] at hc
    obtain ⟨b, hb, hc⟩ := bind_eq_ok.mp hc
    exact ih hc (copyWithin_spec hb hf).2.1 (fun k hk => hhs k (List.mem_cons_of_mem _ hk))
      (hstep hb hf (hhs h List.mem_cons_self) hp)

theorem Kept.copyWithin (hP : Kept source reached P)
    (hreached : ∀ {h : Handle} {m : Model}, reached h → source.get? h = some m → ∀ k ∈ m.children, reached k) {n : Nat}
    {pending : List Handle} {c c' : Copying} {h : Handle} (hc : copyWithin source n c h = .ok c')
    (hf : Faithful source pending c) (hh : reached h) (hp : P pending c) : P pending c' := by
  induction n generalizing pending c c' h with
  | zero => cases hc
  | succ n ih =>
    rw [copyWithin_succ] at hc
    split at hc
    · exact Except.ok.inj hc ▸ hp
    next hin =>
      have hnone : c.images.find? h = none := by simpa [Table.contains] using hin
      obtain ⟨m, hm, hc⟩ := bind_eq_ok.mp hc
      obtain ⟨b, hb, hc⟩ := bind_eq_ok.mp hc
      obtain ⟨s, hset, hc⟩ := bind_eq_ok.mp hc
      obtain ⟨-, -, rfl⟩ := Store.set_eq_ok.mp hset
      have hbegun := hf.begin hnone
      obtain ⟨hg, hfb, hchildren⟩ := foldlM_spec (fun hc hf => copyWithin_spec hc hf) hb hbegun
      have hpb := Kept.foldlM (fun hc hf hh hp => ih hc hf hh hp) hb hbegun
        (hreached hh (Store.get_eq_ok.mp hm)) (hP.begin hf hp hh hnone)
      rw [← Except.ok.inj hc]
      exact hP.finish hfb hpb (hg.images (Table.find?_insert_self _ _ _)) hchildren

theorem Kept.copy (hP : Kept source reached P)
    (hreached : ∀ {h : Handle} {m : Model}, reached h → source.get? h = some m → ∀ k ∈ m.children, reached k)
    {pending : List Handle} {c c' : Copying} {h k : Handle} (hc : c.copy source h = .ok (k, c'))
    (hf : Faithful source pending c) (hh : reached h) (hp : P pending c) : P pending c' := by
  obtain ⟨b, hb, hc⟩ := bind_eq_ok.mp hc
  cases hc
  exact hP.copyWithin hreached hb hf hh hp

theorem find?_begin (c : Copying) (h x : Handle) :
    (c.begin h).images.find? x = if x = h then some ⟨c.store.size⟩ else c.images.find? x :=
  Table.find?_insert _ _ _ _

theorem size_begin (c : Copying) (h : Handle) : (c.begin h).store.size = c.store.size + 1 := Store.size_reserve c.store

/-! ### The images and the new slots -/

/-- The slots from `base` on are images, each of one handle, and only handles that are reached have images. -/
structure Exact (base : Nat) (reached : Handle → Prop) (c : Copying) : Prop where
  inj : ∀ {h j k : Handle}, c.images.find? h = some k → c.images.find? j = some k → h = j
  onto : ∀ {k : Handle}, base ≤ k.index → k.index < c.store.size → ∃ h, c.images.find? h = some k
  reached : ∀ {h k : Handle}, c.images.find? h = some k → reached h

theorem exact_of_no_images (store : Store) (reached : Handle → Prop) : Exact store.size reached { store } := by
  refine ⟨(fun h => by cases h), ?_, (fun h => by cases h)⟩
  intro k hle hlt
  exact absurd hlt (Nat.not_lt.mpr hle)

theorem kept_exact (source : Store) (base : Nat) (reached : Handle → Prop) :
    Kept source reached fun _ c => Exact base reached c := by
  constructor
  · intro pending c h hf he hh hnone
    -- The new slot is past all images there were.
    have hnew : ∀ {x : Handle}, c.images.find? x ≠ some ⟨c.store.size⟩ :=
      fun hx => Nat.lt_irrefl _ (hf.lt hx)
    refine ⟨?_, ?_, ?_⟩
    · intro x y k hx hy
      rw [find?_begin] at hx hy
      split at hx
      next hxh =>
        cases hx
        split at hy
        next hyh => exact hxh.trans hyh.symm
        next => exact absurd hy hnew
      next =>
        split at hy
        next =>
          cases hy
          exact absurd hx hnew
        next => exact he.inj hx hy
    · intro k hle hlt
      rw [size_begin] at hlt
      by_cases hk : k.index = c.store.size
      · refine ⟨h, ?_⟩
        rw [find?_begin, if_pos rfl, ← hk]
      · obtain ⟨x, hx⟩ := he.onto hle (by omega)
        refine ⟨x, ?_⟩
        rw [find?_begin, if_neg, hx]
        rintro rfl
        rw [hnone] at hx
        cases hx
    · intro x k hx
      rw [find?_begin] at hx
      split at hx
      next hxh => exact hxh ▸ hh
      next => exact he.reached hx
  · intro pending c h new m _ he _ _
    refine ⟨he.inj, ?_, he.reached⟩
    intro k hle hlt
    have hsize : (c.store.fill new (m.mapHandles c.image)).size = c.store.size := Store.size_fill _ _ _
    exact he.onto hle (hsize ▸ hlt)

end Copying

/-! ### Two copies of the same models -/

/-- `k` is `h`, or a handle that the models from `h` on lead to. -/
def Store.Reaches (s : Store) : Handle → Handle → Prop :=
  Relation.ReflTransGen fun h k => ∃ m, s.get? h = some m ∧ k ∈ m.children

/-- The models of `s` are models of `t` once their handles are renamed, and different ones stay different. -/
structure Store.Renames (f : Handle → Handle) (s t : Store) : Prop where
  inj : ∀ {h k : Handle}, h.index < s.size → k.index < s.size → f h = f k → h = k
  get? : ∀ {h : Handle}, h.index < s.size → ∃ m, s.get? h = some m ∧ t.get? (f h) = some (m.mapHandles f)

theorem Model.mapHandles_mapHandles (f g : Handle → Handle) (m : Model) :
    (m.mapHandles g).mapHandles f = m.mapHandles fun h => f (g h) := by
  cases m with
  | container k c => simp [mapHandles]
  | assembly t creation changes => cases creation <;> simp [mapHandles]
  | _ => rfl

namespace Copying

variable {source : Store} {c d : Copying}

theorem image_of_find? {h k : Handle} (hk : c.images.find? h = some k) : c.image h = k := by
  rw [image, hk]
  rfl

theorem Faithful.isSome_of_reaches (hf : c.Faithful source []) {h k : Handle} (hr : source.Reaches h k)
    (hh : (c.images.find? h).isSome) : (c.images.find? k).isSome := by
  induction hr with
  | refl => exact hh
  | tail _ hstep ih =>
    obtain ⟨m, hm, hk⟩ := hstep
    obtain ⟨x, hx⟩ := Option.isSome_iff_exists.mp ih
    obtain ⟨m', hm', -, hchildren⟩ := hf.copied hx List.not_mem_nil
    rw [hm] at hm'
    cases hm'
    exact hchildren _ hk

/-- Of two copies the one is the other renamed, if the one into an empty store reached no more. -/
theorem Faithful.exists_renames {reached reached' : Handle → Prop} {base : Nat} (hc : c.Faithful source [])
    (hec : c.Exact 0 reached) (hd : d.Faithful source []) (hed : d.Exact base reached')
    (hdom : ∀ {h : Handle}, (c.images.find? h).isSome → (d.images.find? h).isSome) {t : Store}
    (ht : d.store.Extends t) :
    ∃ f, Store.Renames f c.store t ∧ ∀ {h k : Handle}, c.images.find? h = some k → d.images.find? h = some (f k) := by
  have hsource : ∀ k : Handle, ∃ h, k.index < c.store.size → c.images.find? h = some k := by
    intro k
    by_cases hk : k.index < c.store.size
    · exact (hec.onto (Nat.zero_le _) hk).imp fun h hh _ => hh
    · exact ⟨k, fun hlt => absurd hlt hk⟩
  choose g hg using hsource
  have hgo : ∀ {h k : Handle}, c.images.find? h = some k → g k = h := fun hk => hec.inj (hg _ (hc.lt hk)) hk
  have himage : ∀ {h k : Handle}, c.images.find? h = some k → d.images.find? h = some (d.image h) := by
    intro h k hk
    obtain ⟨x, hx⟩ := Option.isSome_iff_exists.mp (hdom (Option.isSome_iff_exists.mpr ⟨k, hk⟩))
    rw [image_of_find? hx, hx]
  refine ⟨fun k => d.image (g k), ⟨?_, ?_⟩, ?_⟩
  · intro h k hh hk he
    have hsame := hed.inj (himage (hg h hh)) (he ▸ himage (hg k hk))
    have hgh := hg h hh
    rw [hsame, hg k hk] at hgh
    exact (Option.some.inj hgh).symm
  · intro k hk
    obtain ⟨m, hm, hstore, hchildren⟩ := hc.copied (hg k hk) List.not_mem_nil
    obtain ⟨m', hm', hstore', -⟩ := hd.copied (himage (hg k hk)) List.not_mem_nil
    rw [hm] at hm'
    cases hm'
    refine ⟨_, hstore, ?_⟩
    rw [ht.get?_some hstore', Model.mapHandles_mapHandles]
    refine congrArg some (Model.mapHandles_congr fun j hj => ?_)
    obtain ⟨x, hx⟩ := Option.isSome_iff_exists.mp (hchildren j hj)
    rw [image_of_find? hx, hgo hx]
  · intro h k hk
    dsimp only
    rw [hgo hk]
    exact himage hk

end Copying

/-! ### Nothing is left unbuilt -/

/-- Every slot is built, apart from spare ones, and every handle in a model is one of the store. -/
structure Store.Whole (spare : Handle → Prop) (s : Store) : Prop where
  built : ∀ {k : Handle}, k.index < s.size → ¬ spare k → (s.get? k).isSome
  within : ∀ {k : Handle} {m : Model}, s.get? k = some m → ∀ j ∈ m.children, j.index < s.size

namespace Store.Whole

variable {spare spare' : Handle → Prop} {s : Store}

theorem mono (h : s.Whole spare) (hs : ∀ k, spare k → spare' k) : s.Whole spare' :=
  ⟨fun hk hn => h.built hk fun hspare => hn (hs _ hspare), h.within⟩

theorem closed (h : s.Whole fun _ => False) : s.Closed := fun hm k hk => h.built (h.within hm k hk) id

theorem reserve (h : s.Whole spare) : s.reserve.2.Whole fun k => k = s.reserve.1 ∨ spare k := by
  constructor
  · intro k hk hn
    rw [size_reserve] at hk
    have hne : k.index ≠ s.size := fun e => hn (Or.inl (congrArg Handle.mk e))
    rw [get?_reserve]
    exact h.built (by omega) fun hspare => hn (Or.inr hspare)
  · intro k m hm j hj
    rw [get?_reserve] at hm
    rw [size_reserve]
    exact Nat.lt_succ_of_lt (h.within hm j hj)

theorem alloc (h : s.Whole spare) {m : Model} (hm : ∀ j ∈ m.children, j.index < s.size) :
    (s.alloc m).2.Whole spare := by
  constructor
  · intro k hk hspare
    rw [size_alloc] at hk
    rw [get?_alloc]
    split
    · rfl
    · exact h.built (by omega) hspare
  · intro k x hx j hj
    rw [get?_alloc] at hx
    rw [size_alloc]
    split at hx
    · cases hx
      exact Nat.lt_succ_of_lt (hm j hj)
    · exact Nat.lt_succ_of_lt (h.within hx j hj)

theorem fill {h : Handle} (hs : s.Whole fun k => k = h ∨ spare k) (hlt : h.index < s.size) {m : Model}
    (hm : ∀ j ∈ m.children, j.index < s.size) : (s.fill h m).Whole spare := by
  constructor
  · intro k hk hspare
    rw [size_fill] at hk
    rw [get?_fill]
    split
    · rfl
    next hne => exact hs.built hk fun hor => hor.elim (fun e => hne ⟨e.symm, hlt⟩) hspare
  · intro k x hx j hj
    rw [get?_fill] at hx
    rw [size_fill]
    split at hx
    · cases hx
      exact hm j hj
    · exact hs.within hx j hj

end Store.Whole

namespace Copying

/-- The slots set aside for pending models are spare until they are filled. -/
theorem kept_whole (source : Store) (spare : Handle → Prop) : Kept source (fun _ => True) fun pending c =>
    c.store.Whole fun k => spare k ∨ ∃ h ∈ pending, c.images.find? h = some k := by
  constructor
  · intro pending c h _ hw _ hnone
    refine hw.reserve.mono ?_
    rintro k (rfl | hspare | ⟨x, hx, hk⟩)
    · exact Or.inr ⟨h, List.mem_cons_self, (find?_begin c h h).trans (if_pos rfl)⟩
    · exact Or.inl hspare
    · refine Or.inr ⟨x, List.mem_cons_of_mem _ hx, ?_⟩
      rw [find?_begin, if_neg, hk]
      rintro rfl
      rw [hnone] at hk
      cases hk
  · intro pending c h new m hf hw hnew hchildren
    refine Store.Whole.fill (hw.mono ?_) (hf.lt hnew) ?_
    · rintro k (hspare | ⟨x, hx, hk⟩)
      · exact Or.inr (Or.inl hspare)
      · rcases List.mem_cons.mp hx with rfl | hx
        · exact Or.inl (Option.some.inj (hk.symm.trans hnew))
        · exact Or.inr (Or.inr ⟨x, hx, hk⟩)
    · intro j hj
      rw [Model.children_mapHandles] at hj
      obtain ⟨x, hx, rfl⟩ := List.mem_map.mp hj
      obtain ⟨k, hk⟩ := Option.isSome_iff_exists.mp (hchildren x hx)
      rw [image, hk]
      exact hf.lt hk

theorem whole_copy {source : Store} {spare : Handle → Prop} {c c' : Copying} {h k : Handle}
    (hc : c.copy source h = .ok (k, c')) (hf : c.Faithful source []) (hw : c.store.Whole spare) :
    c'.store.Whole spare := by
  refine ((kept_whole source spare).copy (fun _ _ _ _ => trivial) hc hf trivial (hw.mono fun _ => Or.inl)).mono ?_
  rintro k (hspare | ⟨x, hx, -⟩)
  · exact hspare
  · cases hx

end Copying

end Symex
