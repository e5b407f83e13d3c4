import Symex.Proofs.Resolve.Actions

/-!
# What a pass builds

The slots that are reserved and not yet filled are the ones that a pass is inside of. Containers hold only what is
built before them, so they are in no cycle; an alias leads to an object or a container, or to a slot that will be one.
At the end nothing is open, and the store is well-formed.
-/

namespace Symex.Resolve

/-- A slot of the store that is still open, or holds an object or a container. -/
def Work.Leads (w : Work) (k : Handle) : Prop :=
  k.index < w.store.size ∧ ∀ m, w.store.get? k = some m → m.isSubject = true

/-- What a store under construction looks like. -/
structure Work.Sound (w : Work) : Prop where
  children : ∀ {h : Handle} {m : Model}, w.store.get? h = some m →
    ∀ k ∈ m.children, w.Has k ∨ ∃ t, m = .sameAs t k
  length : ∀ {h : Handle} {m : Model}, w.store.get? h = some m → m.HasLength w.store
  known : ∀ {a : Address} {k : Handle}, w.known.find? a = some k → w.Leads k
  aliased : ∀ {h k : Handle} {t : Term}, w.store.get? h = some (.sameAs t k) → w.Leads k
  acyclic : w.store.Acyclic

theorem Work.sound_empty : ({} : Work).Sound := by
  have hn : ∀ {h : Handle} {m : Model}, ({} : Work).store.get? h ≠ some m := by
    intro h m hm
    rw [Store.get?_eq_none_of_le (Nat.zero_le _)] at hm
    cases hm
  refine ⟨fun hm => absurd hm hn, fun hm => absurd hm hn, nofun, fun hm => absurd hm hn, ?_⟩
  intro h hc
  obtain ⟨k, ⟨kind, c, hm, -⟩, -⟩ := Relation.TransGen.head'_iff.mp hc
  exact hn hm

namespace Work.Sound

variable {w w' : Work} {h : Handle} {m : Model}

theorem has_of_offers (hs : w.Sound) {k : Handle} (hk : w.store.Offers k) : w.Has k := by
  rcases hk with hk | ⟨x, kind, c, hc, hk⟩
  · exact hk
  · rcases hs.children hc k hk with hk | ⟨t, ht⟩
    · exact hk
    · cases ht

theorem primitive_of_offers (hs : w.Sound) {k : Handle} (hk : w.store.OffersLength k) :
    ∃ t v as, w.store.get? k = some (.primitive t v as) := by
  rcases hk with hk | ⟨x, kind, c, hc, rfl⟩
  · exact hk
  · exact hs.length hc

/-- One more model: it holds what is built, or is an alias of what leads to an object or a container. In a slot that
was set aside it is an object or a container itself. -/
theorem gain (hs : w.Sound) (hg : w.store.Gains w'.store h m) (hknown : w'.known = w.known)
    (hm : (∀ k ∈ m.children, w.Has k) ∧ (∀ t k, m ≠ .sameAs t k) ∨ ∃ t k, m = .sameAs t k ∧ w.Leads k)
    (hlength : m.HasLength w.store) (hslot : w.store.size ≤ h.index ∨ m.isSubject = true) : w'.Sound := by
  have hleads : ∀ {k : Handle}, w.Leads k → w'.Leads k := by
    intro k hk
    refine ⟨Nat.lt_of_lt_of_le hk.1 hg.size_le, ?_⟩
    intro x hx
    rcases hg.cases_get? hx with ⟨rfl, rfl⟩ | hx
    · have hlt := hk.1
      exact hslot.resolve_left (by omega)
    · exact hk.2 x hx
  constructor
  · intro k x hx j hj
    rcases hg.cases_get? hx with ⟨rfl, rfl⟩ | hx
    · rcases hm with ⟨hm, -⟩ | ⟨t, i, rfl, -⟩
      · exact Or.inl (hg.isSome (hm j hj))
      · exact Or.inr ⟨t, by rw [List.mem_singleton.mp hj]⟩
    · exact (hs.children hx j hj).imp_left hg.isSome
  · intro k x hx
    rcases hg.cases_get? hx with ⟨rfl, rfl⟩ | hx
    · exact hlength.mono fun _ _ => hg.get?_some
    · exact (hs.length hx).mono fun _ _ => hg.get?_some
  · intro a k hk
    rw [hknown] at hk
    exact hleads (hs.known hk)
  · intro k j t hx
    rcases hg.cases_get? hx with ⟨rfl, rfl⟩ | hx
    · rcases hm with ⟨-, hm⟩ | ⟨u, i, he, hi⟩
      · exact absurd rfl (hm t j)
      · cases he
        exact hleads hi
    · exact hleads (hs.aliased hx)
  · refine hg.acyclic hs.acyclic ?_
    rintro x k ⟨kind, c, hc, hk⟩
    rcases hg.cases_get? hc with ⟨rfl, rfl⟩ | hc
    · rcases hm with ⟨hm, -⟩ | ⟨t, i, he, -⟩
      · exact hm k hk
      · cases he
    · rcases hs.children hc k hk with hk | ⟨t, ht⟩
      · exact hk
      · cases ht

/-- A slot that is set aside is open, so that it leads to whatever will be there. -/
theorem reserve (hs : w.Sound) (a : Address) : (w.reserve a).2.Sound := by
  have hsize : (w.reserve a).2.store.size = w.store.size + 1 := Store.size_reserve w.store
  have hget : ∀ k, (w.reserve a).2.store.get? k = w.store.get? k := Store.get?_reserve w.store
  have hleads : ∀ {k : Handle}, w.Leads k → (w.reserve a).2.Leads k := by
    intro k hk
    refine ⟨by have := hk.1; omega, ?_⟩
    intro m hm
    exact hk.2 m (hget k ▸ hm)
  constructor
  · intro k m hm j hj
    rw [hget] at hm
    refine (hs.children hm j hj).imp_left fun hj => ?_
    rw [Work.Has, hget]
    exact hj
  · intro k m hm
    rw [hget] at hm
    exact (hs.length hm).mono fun j x hx => (hget j).trans hx
  · intro b k hk
    have hk' : (w.known.insert a (w.reserve a).1).find? b = some k := hk
    rw [Table.find?_insert] at hk'
    split at hk'
    · cases hk'
      refine ⟨hsize ▸ Nat.lt_succ_self _, ?_⟩
      intro m hm
      rw [hget] at hm
      exact absurd (Store.lt_size_of_get? hm) (Nat.lt_irrefl _)
    · exact hleads (hs.known hk')
  · intro k j t hm
    rw [hget] at hm
    exact hleads (hs.aliased hm)
  · have hc : ∀ x k, (w.reserve a).2.store.Contains x k → w.store.Contains x k := by
      rintro x k ⟨kind, c, hc, hk⟩
      rw [hget] at hc
      exact ⟨kind, c, hc, hk⟩
    intro x hx
    exact hs.acyclic x (Relation.TransGen.mono hc _ _ hx)


/-- What is put into a new slot. -/
theorem alloc (hs : w.Sound) (hstore : w'.store = (w.store.alloc m).2) (hknown : w'.known = w.known)
    (hm : m.children = [] ∨ ∃ t k, m = .sameAs t k ∧ w.Leads k) : w'.Sound := by
  have hg : w.store.Gains w'.store (w.store.alloc m).1 m := hstore ▸ Store.gains_alloc w.store m
  refine hs.gain hg hknown ?_ ?_ (Or.inl (Nat.le_refl _))
  · rcases hm with hm | hm
    · refine Or.inl ⟨fun k hk => ?_, ?_⟩
      · rw [hm] at hk
        cases hk
      · rintro t k rfl
        cases hm
    · exact Or.inr hm
  · rcases hm with hm | ⟨t, k, rfl, -⟩
    · cases m with
      | container kind c => cases hm
      | _ => trivial
    · trivial

theorem fill (hs : w.Sound) (hlt : h.index < w.store.size) (hn : w.store.get? h = none) (hm : m.Fits w.store) :
    (w.fill h m).Sound := by
  have hg : w.store.Gains (w.fill h m).store h m := Store.gains_fill hlt hn m
  cases m with
  | object t as => exact hs.gain hg rfl (Or.inl ⟨nofun, nofun⟩) trivial (Or.inr rfl)
  | container kind c =>
    obtain ⟨t, v, as, hl⟩ := hs.primitive_of_offers hm.length
    refine hs.gain hg rfl (Or.inl ⟨?_, nofun⟩) ⟨t, v, as, hl⟩ (Or.inr rfl)
    intro k hk
    rcases List.mem_cons.mp hk with rfl | hk
    · exact Option.isSome_iff_exists.mpr ⟨_, hl⟩
    · obtain ⟨e, he, hke⟩ := List.mem_flatMap.mp hk
      obtain ⟨h₁, h₂⟩ := hm.entries e he
      rcases List.mem_cons.mp hke with rfl | hke
      · exact hs.has_of_offers h₁
      · rw [List.mem_singleton.mp hke]
        exact hs.has_of_offers h₂
  | _ => exact hm.elim

end Work.Sound

theorem Action.sound {p : Pass} {ample : Prop} {w w' : Work} (h : Action p ample w w') (hs : w.Sound) : w'.Sound := by
  cases h with
  | standIn array n hx => exact ⟨hs.children, hs.length, hs.known, hs.aliased, hs.acyclic⟩
  | @put m hm =>
    refine hs.alloc rfl rfl (Or.inl ?_)
    cases m with
    | null => rfl
    | primitive => rfl
    | _ => cases hm
  | giveUp t h => exact hs.alloc rfl rfl (Or.inl rfl)
  | unplaced as ha => exact hs.alloc rfl rfl (Or.inl rfl)
  | null ha hn => exact hs.alloc rfl rfl (Or.inl rfl)
  | again ha hn hk => exact hs.alloc rfl rfl (Or.inr ⟨_, _, rfl, hs.known hk⟩)
  | reserve ha hn hk => exact hs.reserve _
  | fill hlt hn hm _ => exact hs.fill hlt hn hm

/-- A step from nothing leaves nothing open, so what leads somewhere leads to an object or a container. -/
theorem Step.wellFormed {p : Pass} {ample : Prop} {w : Work} (h : Step p ample {} w) : w.store.WellFormed := by
  have hs : w.Sound := h.keep (fun ha => ha.sound) Work.sound_empty
  have hbuilt : ∀ {k : Handle}, k.index < w.store.size → (w.store.get? k).isSome := fun hk => h.built (Nat.zero_le _) hk
  refine ⟨hbuilt, ?_, hs.length, ?_, hs.acyclic⟩
  · intro k m hm j hj
    rcases hs.children hm j hj with hj | ⟨t, rfl⟩
    · obtain ⟨x, hx⟩ := Option.isSome_iff_exists.mp hj
      exact Store.lt_size_of_get? hx
    · exact (hs.aliased hm).1
  · intro k j t hm
    obtain ⟨hlt, hsub⟩ := hs.aliased hm
    obtain ⟨x, hx⟩ := Option.isSome_iff_exists.mp (hbuilt hlt)
    exact ⟨x, hx, hsub x hx⟩

theorem wellFormed_resolveValues (p : Pass) (vs : List Sym) : (resolveValues p vs {}).2.store.WellFormed :=
  (resolveValues_ok p vs {}).1.wellFormed

theorem lt_of_mem_resolveValues (p : Pass) (vs : List Sym) {h : Handle} (hh : h ∈ (resolveValues p vs {}).1) :
    h.index < (resolveValues p vs {}).2.store.size := by
  obtain ⟨m, hm⟩ := Option.isSome_iff_exists.mp ((resolveValues_ok p vs {}).2 h hh)
  exact Store.lt_size_of_get? hm

/-! ### Results -/

/-- A well-formed store, with one handle in it for each value. -/
structure Resolved.WellFormed (r : Resolved) (values : List Sym) : Prop where
  store : r.store.WellFormed
  params_length : r.params.length = values.length
  params : ∀ h ∈ r.params, h.index < r.store.size
  statics : ∀ e ∈ r.statics, e.2.index < r.store.size

theorem resolveValues_append (p : Pass) (vs us : List Sym) (w : Work) :
    resolveValues p (vs ++ us) w =
      ((resolveValues p vs w).1 ++ (resolveValues p us (resolveValues p vs w).2).1,
        (resolveValues p us (resolveValues p vs w).2).2) := by
  induction vs generalizing w with
  | nil => rfl
  | cons v vs ih =>
    have hcons : ∀ us, resolveValues p (v :: us) w = ((resolveValue p v w).1 :: (resolveValues p us
        (resolveValue p v w).2).1, (resolveValues p us (resolveValue p v w).2).2) := fun us => rfl
    rw [List.cons_append, hcons, hcons, ih, List.cons_append]

theorem length_resolveValues (p : Pass) (vs : List Sym) (w : Work) : (resolveValues p vs w).1.length = vs.length := by
  induction vs generalizing w with
  | nil => rfl
  | cons v vs ih => exact congrArg (· + 1) (ih _)

/-- The static fields are resolved like values that follow the others. -/
theorem wellFormed_run (p : Pass) (values : List Sym) (statics : List (Field × Sym)) :
    (p.run values statics).WellFormed values := by
  have happ := resolveValues_append p values (statics.map (·.2)) {}
  have hstore : (p.run values statics).store = (resolveValues p (values ++ statics.map (·.2)) {}).2.store :=
    congrArg (fun r => r.2.store) happ.symm
  have hmem : ∀ h ∈ (p.run values statics).params ++ (p.run values statics).statics.map (·.2),
      h.index < (p.run values statics).store.size := by
    intro h hh
    rw [hstore]
    refine lt_of_mem_resolveValues p _ ?_
    rw [happ]
    rcases List.mem_append.mp hh with hh | hh
    · exact List.mem_append_left _ hh
    · obtain ⟨e, he, rfl⟩ := List.mem_map.mp hh
      exact List.mem_append_right _ (List.of_mem_zip he).2
  refine ⟨hstore ▸ wellFormed_resolveValues p _, length_resolveValues p values {}, ?_, ?_⟩
  · exact fun h hh => hmem h (List.mem_append_left _ hh)
  · exact fun e he => hmem e.2 (List.mem_append_right _ (List.mem_map_of_mem he))

/-- Whatever is resolved, in one snapshot or in both, is well-formed, and so nothing that looks at it is at fault. -/
theorem resolve_wellFormed (settings : Settings) (s : State) (m : Assignment) (values : List Sym) :
    (∀ snapshot, (resolve settings s m snapshot values).WellFormed values ∧
      (resolve settings s m snapshot values).store.Faultless) ∧
    ((resolveBoth settings s m values).before.WellFormed values ∧
      (resolveBoth settings s m values).before.store.Faultless) ∧
    ((resolveBoth settings s m values).after.WellFormed values ∧
      (resolveBoth settings s m values).after.store.Faultless) := by
  have hrun : ∀ (p : Pass) (statics : List (Field × Sym)),
      (p.run values statics).WellFormed values ∧ (p.run values statics).store.Faultless :=
    fun p statics => ⟨wellFormed_run p values statics, (wellFormed_run p values statics).store.faultless⟩
  exact ⟨fun snapshot => hrun _ [], hrun _ _, hrun _ _⟩

end Symex.Resolve
