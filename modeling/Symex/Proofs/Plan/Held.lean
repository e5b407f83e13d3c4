import Symex.Proofs.Data.Lookup
import Symex.Proofs.Plan.Typed

/-!
# What the containers of a draft hold

Drafts may hold any plans, with containers in them that hold other models. If no container is needed for itself, over
however many levels, then lowering from the outside in ends. It succeeds where all that is held has a plan, and plans
that are another root's value name a root.
-/

namespace Symex

namespace Draft

/-- `x` is the length, a key or a value of a container in the plan for `h`. -/
def Holds (d : Draft) (h x : Handle) : Prop :=
  ∃ p k t n es, d.plan h = .ok p ∧ Plan.Part (.container k t n es) p ∧ x ∈ n :: es.flatMap fun e => [e.1, e.2]

/-- No model is held by itself. -/
def Acyclic (d : Draft) : Prop := ∀ h, ¬ Relation.TransGen d.Holds h h

/-- A plan that is another root's value names a root. -/
def Referring (d : Draft) : Prop :=
  ∀ {h : Handle} {p : Plan} {t : Ty} {i : Nat}, d.plan h = .ok p → Plan.Part (.root t i) p → i < d.roots.length

/-- Everything that is needed for the roots has a plan. -/
def Planned (d : Draft) : Prop := ∀ h ∈ d.roots, ∀ x, Relation.ReflTransGen d.Holds h x → ∃ p, d.plan x = .ok p

variable {d : Draft}

/-! ### Levels -/

/-- The models that may have plans. -/
def candidates (d : Draft) : Finset Handle :=
  (d.plans.entries.map Prod.fst).toFinset ∪ (Finset.range d.targets.size).image Handle.mk

theorem card_candidates_le (d : Draft) : d.candidates.card ≤ d.plans.size + d.targets.size := by
  refine (Finset.card_union_le _ _).trans (Nat.add_le_add ?_ ?_)
  · exact (List.toFinset_card_le _).trans (List.length_map _).le
  · exact Finset.card_image_le.trans (Finset.card_range _).le

theorem mem_candidates {h : Handle} {p : Plan} (hp : d.plan h = .ok p) : h ∈ d.candidates := by
  rw [candidates, Finset.mem_union, List.mem_toFinset, Finset.mem_image]
  unfold plan at hp
  split at hp
  next q hq => exact Or.inl (List.mem_map_of_mem (mem_of_lookup hq))
  next =>
    obtain ⟨m, hm, -⟩ := suggested_ty hp
    exact Or.inr ⟨h.index, Finset.mem_range.mpr (Store.lt_size_of_get? hm), rfl⟩

open Classical in
/-- The number of models with containers that are needed for a model. -/
noncomputable def rank (d : Draft) (h : Handle) : Nat :=
  (d.candidates.filter fun x => Relation.ReflTransGen d.Holds h x ∧ ∃ y, d.Holds x y).card

theorem rank_lt_nesting (d : Draft) (h : Handle) : d.rank h < d.nesting := by
  classical
  have hle : d.rank h ≤ d.candidates.card := Finset.card_filter_le _ _
  have hcard := d.card_candidates_le
  rw [nesting]
  omega

theorem Acyclic.rank_lt (ha : d.Acyclic) {h x : Handle} (hx : d.Holds h x) : d.rank x < d.rank h := by
  classical
  apply Finset.card_lt_card
  rw [Finset.ssubset_iff_of_subset]
  · obtain ⟨p, _, _, _, _, hp, -⟩ := id hx
    refine ⟨h, Finset.mem_filter.mpr ⟨mem_candidates hp, .refl, x, hx⟩, ?_⟩
    intro hmem
    -- The model would be held by itself.
    exact ha h (Relation.TransGen.head' hx (Finset.mem_filter.mp hmem).2.1)
  · intro y hy
    obtain ⟨hcandidate, hreach, hholds⟩ := Finset.mem_filter.mp hy
    exact Finset.mem_filter.mpr ⟨hcandidate, .head hx hreach, hholds⟩

end Draft

/-! ### Lowering succeeds -/

namespace Plan

open Lowering (Works)

/-- What the containers in the plan hold can be made, and it refers to roots below `n` only. -/
structure Workable (n : Nat) (inside : Handle → Except Fault Lowering.Making) (p : Plan) : Prop where
  contents : ∀ {k : ContainerKind} {t : Ty} {l : Handle} {es : List (Handle × Handle)}, Part (container k t l es) p →
    ∀ x ∈ l :: es.flatMap fun e => [e.1, e.2], ∃ make, inside x = .ok make ∧ Works n make
  roots : ∀ {t : Ty} {i : Nat}, Part (root t i) p → i < n

variable {n : Nat} {inside : Handle → Except Fault Lowering.Making}

theorem Workable.operand {m : Method} {ps : List Plan} {p : Plan} (h : (call m ps).Workable n inside) (hp : p ∈ ps) :
    p.Workable n inside :=
  ⟨fun hpart => h.contents (.operand hp hpart), fun hpart => h.roots (.operand hp hpart)⟩

mutual

theorem works_lowerVia : ∀ p : Plan, p.Workable n inside → ∀ self, Works n (p.lowerVia inside self)
  | null t, _, self => fun w _ => ⟨_, _, _, rfl, .of_eq rfl List.prefix_rfl, .null _ _⟩
  | hole t, _, self => fun w _ => ⟨_, _, _, rfl, .of_eq rfl (List.prefix_append _ _), .param _⟩
  | root t i, hp, self => works_root (hp.roots .self) self
  | container k t l es, hp, self =>
    Draft.works_container (b := ⟨.null, l, es, .empty⟩) (fun x hx => hp.contents .self x hx) t self
  | call m [], hp, self => by
    intro w hw
    by_cases hm : m.kind = .modifier
    · have hnull : (call m []).lowerVia inside self w = .ok (w.null m.produced) := by
        rw [lowerVia, lowerOr, if_pos hm]
        rfl
      exact ⟨_, _, _, hnull, .of_eq rfl List.prefix_rfl, .null _ _⟩
    · exact ⟨_, _, _, lowerVia_create hm [], .of_eq rfl List.prefix_rfl, .create _ _ (fun r hr => by cases hr)⟩
  | call m (p :: ps), hp, self => by
    intro w hw
    by_cases hm : m.kind = .modifier
    · obtain ⟨x, r, u, hu, hkeeps, hr⟩ := works_lowerVia p (hp.operand List.mem_cons_self) none w hw
      obtain ⟨xs, rs, v, hv, hkeeps', hrs⟩ := works_lowerAllVia ps
        (fun q hq => hp.operand (List.mem_cons_of_mem _ hq)) u (hkeeps.length_eq.trans hw)
      exact ⟨x, .change x m r rs, v.emit (.invoke x m xs), lowerVia_change hm hu hv,
        (hkeeps.trans hkeeps').trans (.of_eq rfl List.prefix_rfl), .change _ _ hr hrs⟩
    · obtain ⟨xs, rs, u, hu, hkeeps, hrs⟩ := works_lowerAllVia (p :: ps) (fun q hq => hp.operand hq) w hw
      have hmade : (call m (p :: ps)).lowerVia inside self w = .ok (u.create m xs rs) := by
        rw [lowerVia_create hm, hu]
        rfl
      exact ⟨_, _, _, hmade, hkeeps.trans (.of_eq rfl List.prefix_rfl), .create _ _ hrs⟩

theorem works_lowerAllVia : ∀ ps : List Plan, (∀ p ∈ ps, p.Workable n inside) → ∀ w : Lowering, w.locals.length = n →
    ∃ xs rs w', lowerAllVia inside ps w = .ok ((xs, rs), w') ∧ w.Keeps w' ∧ ∀ r ∈ rs, r.Grounded n
  | [], _, w, _ => ⟨[], [], w, rfl, .of_eq rfl List.prefix_rfl, nofun⟩
  | p :: ps, hps, w, hw => by
    obtain ⟨x, r, u, hu, hkeeps, hr⟩ := works_lowerVia p (hps p List.mem_cons_self) none w hw
    obtain ⟨xs, rs, v, hv, hkeeps', hrs⟩ := works_lowerAllVia ps (fun q hq => hps q (List.mem_cons_of_mem _ hq)) u
      (hkeeps.length_eq.trans hw)
    exact ⟨x :: xs, r :: rs, v, lowerAllVia_cons hu hv, hkeeps.trans hkeeps', List.forall_mem_cons.mpr ⟨hr, hrs⟩⟩

end

end Plan

namespace Draft

variable {d : Draft}

theorem Referring.workable (hr : d.Referring) {n : Nat} {h : Handle} {p : Plan} (hp : d.plan h = .ok p)
    (hin : ∀ x, d.Holds h x → ∃ make, d.lowerWithin n x = .ok make ∧ Lowering.Works d.roots.length make) :
    p.Workable d.roots.length (d.lowerWithin n) :=
  ⟨fun hpart x hx => hin x ⟨p, _, _, _, _, hp, hpart, hx⟩, fun hpart => hr hp hpart⟩

/-- A model is lowered if everything that is needed for it has a plan. -/
theorem Acyclic.works_lowerWithin (ha : d.Acyclic) (hr : d.Referring) {n : Nat} {h : Handle} (hn : d.rank h < n)
    (hplans : ∀ x, Relation.ReflTransGen d.Holds h x → ∃ p, d.plan x = .ok p) :
    ∃ make, d.lowerWithin n h = .ok make ∧ Lowering.Works d.roots.length make := by
  induction n generalizing h with
  | zero => exact absurd hn (Nat.not_lt_zero _)
  | succ n ih =>
    obtain ⟨p, hp⟩ := hplans h .refl
    refine ⟨p.lowerVia (d.lowerWithin n) none, ?_, Plan.works_lowerVia p ?_ none⟩
    · rw [lowerWithin, lowerWithinOr, hp]
      rfl
    · refine hr.workable hp fun x hx => ih ?_ fun y hy => hplans y (.head hx hy)
      have := ha.rank_lt hx
      omega

/-- A draft is lowered if everything that is needed for its roots has a plan. -/
theorem Acyclic.exists_probe (ha : d.Acyclic) (hr : d.Referring) (hp : d.Planned) (name : String) :
    ∃ p, d.probe name = .ok p := by
  obtain ⟨plans, hplans⟩ : ∃ plans, d.rootPlans = .ok plans := exists_mapM fun h hh => hp h hh h .refl
  have hworks : ∀ e ∈ order plans, e.1 < d.roots.length ∧
      ∀ self, Lowering.Works d.roots.length (e.2.lowerVia (d.lowerWithin d.nesting) self) := by
    intro e he
    have hget := mem_order.mp he
    obtain ⟨h, hh, hq⟩ := mem_of_mapM hplans (List.mem_of_getElem? hget)
    refine ⟨?_, Plan.works_lowerVia e.2 (hr.workable hq fun x hx => ?_)⟩
    · rw [(mapM_eq_ok.mp hplans).length_eq]
      exact (List.getElem?_eq_some_iff.mp hget).1
    · exact ha.works_lowerWithin hr (d.rank_lt_nesting x) fun y hy => hp h hh y (.head hx hy)
  obtain ⟨rs, w, hlow, -⟩ := works_roots hworks { locals := plans.map fun _ => none }
    (by rw [List.length_map, (mapM_eq_ok.mp hplans).length_eq])
  exact ⟨_, bind_eq_ok.mpr ⟨_, hplans, bind_eq_ok.mpr ⟨_, hlow, rfl⟩⟩⟩

/-! ### Drafts that refinement reaches -/

section Sane

variable {c : Catalog} {targets : Store} {roots : List Handle} (hs : Sane c targets roots d)

include hs

theorem Sane.contains_of_holds {h x : Handle} (hx : d.Holds h x) : targets.Contains h x := by
  obtain ⟨p, k, t, n, es, hp, hpart, hmem⟩ := hx
  obtain ⟨b, hb, rfl, rfl⟩ := hs.part_container hp hpart
  exact ⟨k, b, hb, hmem⟩

theorem Sane.acyclic (ha : targets.Acyclic) : d.Acyclic :=
  fun h hh => ha h (Relation.TransGen.mono (fun _ _ => hs.contains_of_holds) h h hh)

theorem Sane.referring : d.Referring := by
  intro h p t i hp hpart
  rw [hs.roots_eq]
  exact hs.part_root hp hpart

theorem Sane.planned (hl : Legible targets roots) : d.Planned := by
  intro h hh x hx
  have hwithin : Relation.ReflTransGen targets.Contains h x :=
    Relation.ReflTransGen.mono (fun _ _ => hs.contains_of_holds) h x hx
  obtain ⟨p, hp⟩ := exists_suggested_iff.mpr (hl x ⟨h, hs.roots_eq ▸ hh, hwithin⟩)
  rw [← hs.suggested_eq] at hp
  exact ⟨_, plan_of_suggested hp⟩

end Sane

end Draft

end Symex
