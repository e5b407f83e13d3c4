import Symex.Proofs.Plan.Language
import Symex.Proofs.Plan.Reach

/-!
# All ways to decide a draft

Refinement goes through the models from left to right. The drafts where it ends are the complete ones, and they are
all ways to give every placeholder that is undecided at first a closed plan of its type.
-/

namespace Symex

/-- The models at and inside some roots. -/
def Store.Within (s : Store) (roots : List Handle) (h : Handle) : Prop :=
  ∃ r ∈ roots, Relation.ReflTransGen s.Contains r h

theorem Store.mem_flatMap_leaves_iff {s : Store} (ha : s.Acyclic) {roots : List Handle} {h : Handle} :
    h ∈ roots.flatMap s.leaves ↔ s.Within roots h ∧ ∀ k b, s.get? h ≠ some (.container k b) := by
  simp only [List.mem_flatMap, mem_leaves_iff ha, Within]
  constructor
  · rintro ⟨r, hr, hreach, hne⟩
    exact ⟨⟨r, hr, hreach⟩, hne⟩
  · rintro ⟨⟨r, hr, hreach⟩, hne⟩
    exact ⟨r, hr, hreach, hne⟩

namespace Draft

/-- The models for which a value is to be made, with its type. An alias of a root is none of them: it has the value
of the root. -/
inductive Placeholder (targets : Store) (roots : List Handle) (h : Handle) : Ty → Prop
  | primitive {t : Term} {v : Value} {as : OrderedSet Atom} (hg : targets.get? h = some (.primitive t v as)) :
    Placeholder targets roots h t.ty
  | object {t : Term} {as : OrderedSet Atom} (hg : targets.get? h = some (.object t as)) :
    Placeholder targets roots h t.ty
  | assembly {t : Term} {k : Option Call} {cs : List Call} (hg : targets.get? h = some (.assembly t k cs)) :
    Placeholder targets roots h t.ty
  | sameAs {t : Term} {k j : Handle} (hg : targets.get? h = some (.sameAs t k)) (hd : targets.deref k = .ok j)
    (hj : j ∉ roots) : Placeholder targets roots h t.ty

/-- A placeholder at or inside the roots whose type is not primitive. -/
structure Undecided (targets : Store) (roots : List Handle) (h : Handle) (t : Ty) : Prop where
  within : targets.Within roots h
  placeholder : Placeholder targets roots h t
  not_primitive : t.isPrimitive = false

/-- Every model at and inside the roots is there, and the aliases among them lead to a model. -/
def Legible (targets : Store) (roots : List Handle) : Prop :=
  ∀ h, targets.Within roots h →
    ∃ m, targets.get? h = some m ∧ ∀ t k, m = .sameAs t k → ∃ j, targets.deref k = .ok j

/-- The draft has decided on a closed plan for each of the undecided placeholders, and on nothing else. -/
structure Assigns (nullable : Ty → Prop) (c : Catalog) (targets : Store) (roots : List Handle) (d : Draft) : Prop where
  targets_eq : d.targets = targets
  roots_eq : d.roots = roots
  closed : ∀ {h : Handle} {p : Plan}, d.plans.find? h = some p →
    ∃ t, Undecided targets roots h t ∧ p.Closed nullable c t
  total : ∀ {h : Handle} {t : Ty}, Undecided targets roots h t → ∃ p, d.plans.find? h = some p

/-- The same plans for the same roots. -/
structure Agrees (d e : Draft) : Prop where
  targets_eq : d.targets = e.targets
  roots_eq : d.roots = e.roots
  find?_eq : ∀ h, d.plans.find? h = e.plans.find? h

variable {c : Catalog} {d e : Draft} {targets : Store} {roots : List Handle} {h : Handle} {t : Ty}

/-! ### What models suggest -/

theorem findIdx?_eq_none_iff {j : Handle} : roots.findIdx? (· = j) = none ↔ j ∉ roots := by
  simp only [List.findIdx?_eq_none_iff, decide_eq_false_iff_not]
  exact ⟨fun h hj => h j hj rfl, fun h x hx he => h (he ▸ hx)⟩

theorem suggested_eq_hole_iff : suggested { targets, roots } h = .ok (.hole t) ↔ Placeholder targets roots h t := by
  constructor
  · intro hs
    unfold suggested at hs
    obtain ⟨m, hm, hs⟩ := bind_eq_ok.mp hs
    have hg := Store.get_eq_ok.mp hm
    cases m with
    | null u => cases hs
    | container k b => cases hs
    | primitive u v as =>
      cases hs
      exact .primitive hg
    | object u as =>
      cases hs
      exact .object hg
    | assembly u k cs =>
      cases hs
      exact .assembly hg
    | sameAs u k =>
      obtain ⟨j, hj, hs⟩ := bind_eq_ok.mp hs
      split at hs
      next => cases hs
      next hnone =>
        cases hs
        exact .sameAs hg hj (findIdx?_eq_none_iff.mp hnone)
  · intro hp
    unfold suggested
    cases hp with
    | primitive hg => rw [Store.get_eq_ok.mpr hg]; rfl
    | object hg => rw [Store.get_eq_ok.mpr hg]; rfl
    | assembly hg => rw [Store.get_eq_ok.mpr hg]; rfl
    | @sameAs u k j hg hd hj =>
      simp [Store.get_eq_ok.mpr hg, hd, findIdx?_eq_none_iff.mpr hj, bind, Except.bind, pure, Except.pure]

theorem exists_suggested_iff : (∃ p, suggested { targets, roots } h = .ok p) ↔
    ∃ m, targets.get? h = some m ∧ ∀ t k, m = .sameAs t k → ∃ j, targets.deref k = .ok j := by
  constructor
  · rintro ⟨p, hp⟩
    unfold suggested at hp
    obtain ⟨m, hm, hp⟩ := bind_eq_ok.mp hp
    refine ⟨m, Store.get_eq_ok.mp hm, ?_⟩
    rintro t k rfl
    obtain ⟨j, hj, -⟩ := bind_eq_ok.mp hp
    exact ⟨j, hj⟩
  · rintro ⟨m, hg, halias⟩
    unfold suggested
    rw [Store.get_eq_ok.mpr hg]
    cases m with
    | sameAs t k =>
      obtain ⟨j, hj⟩ := halias t k rfl
      cases hi : roots.findIdx? (· = j) <;> simp [hj, hi, bind, Except.bind, pure, Except.pure]
    | _ => exact ⟨_, rfl⟩

/-- A placeholder is no container. -/
theorem Placeholder.not_container (hp : Placeholder targets roots h t) (k : ContainerKind) (b : Container) :
    targets.get? h ≠ some (.container k b) := by
  intro hg
  cases hp with
  | primitive hg' | object hg' | assembly hg' | sameAs hg' =>
    rw [hg] at hg'
    cases hg'

theorem Undecided.mem_leaves (ha : targets.Acyclic) (hu : Undecided targets roots h t) :
    h ∈ roots.flatMap targets.leaves :=
  (Store.mem_flatMap_leaves_iff ha).mpr ⟨hu.within, hu.placeholder.not_container⟩

theorem ready_iff_legible (ha : targets.Acyclic) : Ready targets roots ↔ Legible targets roots := by
  constructor
  · intro hr h hw
    by_cases hc : ∃ k b, targets.get? h = some (.container k b)
    · obtain ⟨k, b, hg⟩ := hc
      exact ⟨_, hg, fun t k' he => by cases he⟩
    · have hne : ∀ k b, targets.get? h ≠ some (.container k b) := fun k b hg => hc ⟨k, b, hg⟩
      exact exists_suggested_iff.mp (hr h ((Store.mem_flatMap_leaves_iff ha).mpr ⟨hw, hne⟩))
  · intro hl h hh
    exact exists_suggested_iff.mpr (hl h ((Store.mem_flatMap_leaves_iff ha).mp hh).1)

/-! ### Walks that meet no open hole -/

theorem forall_of_firstSome {give : Handle → Except Fault (List Draft)} {hs : List Handle}
    (h : firstSome give hs = .ok []) : ∀ k ∈ hs, give k = .ok [] := by
  induction hs with
  | nil => exact fun k hk => by cases hk
  | cons k hs ih =>
    rw [firstSome] at h
    obtain ⟨ds, hds, h⟩ := bind_eq_ok.mp h
    cases ds with
    | nil => exact List.forall_mem_cons.mpr ⟨hds, ih h⟩
    | cons d ds => cases h

theorem firstNonempty_eq_nil_iff {ls : List (List Draft)} : firstNonempty ls = [] ↔ ∀ l ∈ ls, l = [] := by
  induction ls with
  | nil => simp [firstNonempty]
  | cons l ls ih =>
    rw [firstNonempty_cons, List.forall_mem_cons, ← ih]
    split <;> simp_all

section Sane

variable (hs : Sane c targets roots d) (ha : targets.Acyclic)

include hs ha

/-- A walk that looks at all models inside a container looks at all leaves. -/
theorem Sane.suggested_of_walk (walk : Nat → Handle → Prop) (hzero : ∀ h, ¬ walk 0 h)
    (hplan : ∀ n h, walk (n + 1) h → ∃ p, d.plan h = .ok p)
    (hin : ∀ n h k b, targets.get? h = some (.container k b) → walk (n + 1) h →
      ∀ x ∈ (Model.container k b).children, walk n x) {n : Nat} {h : Handle} (hw : walk n h) :
    ∀ x ∈ targets.leaves h, ∃ p, d.suggested x = .ok p := by
  induction n generalizing h with
  | zero => exact absurd hw (hzero h)
  | succ n ih =>
    intro x hx
    by_cases hc : ∃ k b, targets.get? h = some (.container k b)
    · obtain ⟨k, b, hg⟩ := hc
      rw [Store.leaves_container ha hg] at hx
      obtain ⟨y, hy, hxy⟩ := List.mem_flatMap.mp hx
      exact ih (hin n h k b hg hw y hy) x hxy
    · have hne : ∀ k b, targets.get? h ≠ some (.container k b) := fun k b hg => hc ⟨k, b, hg⟩
      rw [Store.leaves_of_not_container hne] at hx
      rw [List.mem_singleton.mp hx]
      obtain ⟨p, hp⟩ := hplan n h hw
      exact hs.exists_suggested hp

theorem Sane.suggested_of_definedWithin {n : Nat} {h : Handle} (hd : d.definedWithin n h = .ok true) :
    ∀ x ∈ targets.leaves h, ∃ p, d.suggested x = .ok p := by
  have hzero : ∀ h, ¬ d.definedWithin 0 h = .ok true := fun h hd => by cases hd
  have hplan : ∀ n h, d.definedWithin (n + 1) h = .ok true → ∃ p, d.plan h = .ok p := by
    intro n h hd
    rw [definedWithin] at hd
    obtain ⟨p, hp, -⟩ := bind_eq_ok.mp hd
    exact ⟨p, hp⟩
  refine hs.suggested_of_walk ha (fun n h => d.definedWithin n h = .ok true) hzero hplan ?_ hd
  intro n h k b hg hd
  rw [definedWithin, hs.plan_container hg] at hd
  exact forall_of_allM hd

theorem Sane.suggested_of_refineWithin {n : Nat} {h : Handle} (hd : d.refineWithin c n h = .ok []) :
    ∀ x ∈ targets.leaves h, ∃ p, d.suggested x = .ok p := by
  have hzero : ∀ h, ¬ d.refineWithin c 0 h = .ok [] := fun h hd => by cases hd
  have hplan : ∀ n h, d.refineWithin c (n + 1) h = .ok [] → ∃ p, d.plan h = .ok p := by
    intro n h hd
    rw [refineWithin] at hd
    obtain ⟨p, hp, -⟩ := bind_eq_ok.mp hd
    exact ⟨p, hp⟩
  refine hs.suggested_of_walk ha (fun n h => d.refineWithin c n h = .ok []) hzero hplan ?_ hd
  intro n h k b hg hd
  rw [refineWithin, hs.plan_container hg] at hd
  exact forall_of_firstSome hd

theorem Sane.ready_of_isComplete (hd : d.isComplete = .ok true) : Ready targets roots := by
  rw [isComplete, hs.roots_eq] at hd
  intro x hx
  obtain ⟨r, hr, hxr⟩ := List.mem_flatMap.mp hx
  rw [← hs.suggested_eq]
  exact hs.suggested_of_definedWithin ha (forall_of_allM hd r hr) x hxr

theorem Sane.ready_of_refine (hd : d.refine c = .ok []) : Ready targets roots := by
  rw [refine, hs.roots_eq] at hd
  intro x hx
  obtain ⟨r, hr, hxr⟩ := List.mem_flatMap.mp hx
  rw [← hs.suggested_eq]
  exact hs.suggested_of_refineWithin ha (forall_of_firstSome hd r hr) x hxr

variable (hl : targets.PrimitiveLengths)

include hl

theorem Sane.isComplete_iff : d.isComplete = .ok true ↔
    Ready targets roots ∧ ∀ x ∈ roots.flatMap targets.leaves, (d.planAt x).holes = 0 := by
  constructor
  · intro hd
    have hr := hs.ready_of_isComplete ha hd
    rw [hs.isComplete_eq ha hl hr, Except.ok.injEq] at hd
    simp only [List.all_eq_true, beq_iff_eq] at hd
    exact ⟨hr, hd⟩
  · rintro ⟨hr, hx⟩
    rw [hs.isComplete_eq ha hl hr, Except.ok.injEq]
    simp only [List.all_eq_true, beq_iff_eq]
    exact hx

theorem Sane.refine_eq_nil_iff : d.refine c = .ok [] ↔
    Ready targets roots ∧ ∀ x ∈ roots.flatMap targets.leaves, (d.planAt x).holes = 0 := by
  have hleaves : (∀ l ∈ (roots.flatMap targets.leaves).map (d.refinements c), l = []) ↔
      ∀ x ∈ roots.flatMap targets.leaves, (d.planAt x).holes = 0 := by
    simp only [List.forall_mem_map, refinements, List.map_eq_nil_iff, Plan.refine_eq_nil_iff]
  constructor
  · intro hd
    have hr := hs.ready_of_refine ha hd
    rw [hs.refine_eq ha hl hr] at hd
    exact ⟨hr, hleaves.mp (firstNonempty_eq_nil_iff.mp (Except.ok.inj hd))⟩
  · rintro ⟨hr, hx⟩
    rw [hs.refine_eq ha hl hr]
    exact congrArg Except.ok (firstNonempty_eq_nil_iff.mpr (hleaves.mpr hx))

end Sane

/-! ### What is decided was made from a hole -/

theorem planAt_of_find? {p : Plan} (hf : d.plans.find? h = some p) : d.planAt h = p := by
  simp [planAt, plan, hf]

theorem planAt_of_find?_eq_none {p : Plan} (hf : d.plans.find? h = none) (hp : d.suggested h = .ok p) :
    d.planAt h = p := by
  simp [planAt, plan, hf, hp]

/-- Every plan that was decided on was made from the hole of a leaf. -/
def Grown (c : Catalog) (targets : Store) (roots : List Handle) (d : Draft) : Prop :=
  ∀ h p, d.plans.find? h = some p → h ∈ roots.flatMap targets.leaves ∧
    ∃ t, Placeholder targets roots h t ∧ t.isPrimitive = false ∧ Plan.Derives c (.hole t) p

theorem Grown.decide (hs : Sane c targets roots d) (hd : Grown c targets roots d)
    (hr : Ready targets roots) {x : Handle} {q : Plan} (hx : x ∈ roots.flatMap targets.leaves)
    (hq : q ∈ (d.planAt x).refine c) : Grown c targets roots (d.decide x q) := by
  intro h p hp
  rw [find?_decide] at hp
  split at hp
  next he =>
    subst he
    cases hp
    refine ⟨hx, ?_⟩
    cases hf : d.plans.find? h with
    | some r =>
      obtain ⟨-, t, ht, hprim, hder⟩ := hd h r hf
      rw [planAt_of_find? hf] at hq
      exact ⟨t, ht, hprim, hder.tail hq⟩
    | none =>
      obtain ⟨r, hsug⟩ := hr h hx
      rw [planAt_of_find?_eq_none hf (hs.suggested_eq ▸ hsug)] at hq
      obtain ⟨t, rfl, hprim⟩ := hole_of_suggested hsug hq
      exact ⟨t, suggested_eq_hole_iff.mp hsug, hprim, .single hq⟩
  next => exact hd h p hp

theorem grown_of_reaches (ha : targets.Acyclic) (hl : targets.PrimitiveLengths) (hr : Ready targets roots)
    (hreach : Reaches c { targets, roots } d) : Grown c targets roots d := by
  induction hreach with
  | refl => exact fun h p hf => by cases hf
  | step hreach hds he ih =>
    have hs := (sane_start c targets roots).of_reaches hreach
    obtain ⟨x, hx, q, hq, rfl⟩ := hs.exists_leaf ha hl hr hds he
    exact ih.decide hs hr hx hq

/-- A complete draft that refinement reaches has closed plans for everything that was undecided. -/
theorem assigns_of_reaches (ha : targets.Acyclic) (hl : targets.PrimitiveLengths)
    (hreach : Reaches c { targets, roots } d) (hd : d.isComplete = .ok true) :
    Ready targets roots ∧ d.Assigns Plan.Nullable c targets roots := by
  have hs := (sane_start c targets roots).of_reaches hreach
  obtain ⟨hr, hclosed⟩ := (hs.isComplete_iff ha hl).mp hd
  have hgrown := grown_of_reaches ha hl hr hreach
  refine ⟨hr, hs.targets_eq, hs.roots_eq, ?_, ?_⟩
  · intro h p hf
    obtain ⟨hx, t, ht, hprim, hder⟩ := hgrown h p hf
    have hholes := hclosed h hx
    rw [planAt_of_find? hf] at hholes
    exact ⟨t, ⟨((Store.mem_flatMap_leaves_iff ha).mp hx).1, ht, hprim⟩, Plan.closed_of_derives hder hholes⟩
  · intro h t hu
    cases hf : d.plans.find? h with
    | some p => exact ⟨p, rfl⟩
    | none =>
      have hsug : d.suggested h = .ok (.hole t) := by
        rw [hs.suggested_eq]
        exact suggested_eq_hole_iff.mpr hu.placeholder
      have hholes := hclosed h (hu.mem_leaves ha)
      rw [planAt_of_find?_eq_none hf hsug, Plan.holes, hu.not_primitive] at hholes
      cases hholes

/-! ### Reaching an assignment -/

/-- Where an assignment is followed, no hole is open. -/
theorem Assigns.holes_planAt (he : e.Assigns Plan.Nullable c targets roots) (hs : Sane c targets roots d)
    (hr : Ready targets roots) (ha : targets.Acyclic) {x : Handle} (hx : x ∈ roots.flatMap targets.leaves)
    (hf : d.plans.find? x = e.plans.find? x) : (d.planAt x).holes = 0 := by
  cases hfe : e.plans.find? x with
  | some p =>
    obtain ⟨t, -, hp⟩ := he.closed hfe
    rw [planAt_of_find? (hf.trans hfe)]
    exact (Plan.closed_iff_derives.mp hp).2
  | none =>
    obtain ⟨p, hsug⟩ := hr x hx
    rw [planAt_of_find?_eq_none (hf.trans hfe) (hs.suggested_eq ▸ hsug), ← Plan.refine_eq_nil_iff c]
    by_contra hne
    obtain ⟨q, hq⟩ := List.exists_mem_of_ne_nil _ hne
    -- An open hole would be an undecided placeholder.
    obtain ⟨t, rfl, hprim⟩ := hole_of_suggested hsug hq
    obtain ⟨p, hp⟩ := he.total
      ⟨((Store.mem_flatMap_leaves_iff ha).mp hx).1, suggested_eq_hole_iff.mp hsug, hprim⟩
    rw [hfe] at hp
    cases hp

section Ready

variable (ha : targets.Acyclic) (hl : targets.PrimitiveLengths) (hr : Ready targets roots)

include ha hl hr

/-- The first leaf with an open hole is refined. -/
theorem Sane.decide_mem_refine (hs : Sane c targets roots d) {done rest : List Handle} {x : Handle} {q : Plan}
    (hsplit : roots.flatMap targets.leaves = done ++ x :: rest) (hdone : ∀ y ∈ done, (d.planAt y).holes = 0)
    (hq : q ∈ (d.planAt x).refine c) : ∃ ds, d.refine c = .ok ds ∧ d.decide x q ∈ ds := by
  have hmem : d.decide x q ∈ d.refinements c x := List.mem_map_of_mem hq
  have hnil : firstNonempty (done.map (d.refinements c)) = [] := by
    rw [firstNonempty_eq_nil_iff, List.forall_mem_map]
    intro y hy
    rw [refinements, (Plan.refine_eq_nil_iff c _).mpr (hdone y hy), List.map_nil]
  refine ⟨_, hs.refine_eq ha hl hr, ?_⟩
  rw [hsplit, List.map_append, firstNonempty_append, if_pos hnil, List.map_cons, firstNonempty_cons,
    if_neg (List.ne_nil_of_mem hmem)]
  exact hmem

/-- What can be made of the plan of a leaf is made of it, once the leaves before it have no open hole. -/
theorem Sane.exists_reaches_of_derives (hs : Sane c targets roots d) {done rest : List Handle} {x : Handle}
    (hsplit : roots.flatMap targets.leaves = done ++ x :: rest) (hdone : ∀ y ∈ done, (d.planAt y).holes = 0)
    (hx : x ∉ done) {p q : Plan} (hp : d.planAt x = p) (hder : Plan.Derives c p q) :
    ∃ e, Reaches c d e ∧ e.planAt x = q ∧ ∀ y, y ≠ x → e.plans.find? y = d.plans.find? y := by
  induction hder using Relation.ReflTransGen.head_induction_on generalizing d with
  | refl => exact ⟨d, .refl, hp, fun y _ => rfl⟩
  | @head p r hstep _ ih =>
    obtain ⟨ds, hds, hmem⟩ := hs.decide_mem_refine ha hl hr hsplit hdone (by rwa [hp])
    have hone : Reaches c d (d.decide x r) := .step .refl hds hmem
    have hdone' : ∀ y ∈ done, ((d.decide x r).planAt y).holes = 0 := by
      intro y hy
      have hne : y ≠ x := fun heq => hx (heq ▸ hy)
      rw [planAt_decide, if_neg hne]
      exact hdone y hy
    obtain ⟨e, hreach, hplan, hsame⟩ := ih (hs.of_reaches hone) hdone' (by rw [planAt_decide, if_pos rfl])
    refine ⟨e, hone.trans hreach, hplan, ?_⟩
    intro y hy
    rw [hsame y hy, find?_decide, if_neg hy]

/-- An assignment is followed leaf by leaf. -/
theorem Assigns.exists_reaches (he : e.Assigns Plan.Nullable c targets roots) (done rest : List Handle)
    (hsplit : roots.flatMap targets.leaves = done ++ rest) :
    ∃ d, Reaches c { targets, roots } d ∧
      ∀ h, d.plans.find? h = if h ∈ done then e.plans.find? h else none := by
  induction done using List.reverseRecOn generalizing rest with
  | nil => exact ⟨_, .refl, fun h => rfl⟩
  | append_singleton done x ih =>
    rw [List.append_assoc, List.singleton_append] at hsplit
    obtain ⟨d, hreach, hfind⟩ := ih (x :: rest) hsplit
    have hs := (sane_start c targets roots).of_reaches hreach
    by_cases hx : x ∈ done
    · refine ⟨d, hreach, fun h => ?_⟩
      rw [hfind h]
      by_cases heq : h = x <;> simp [heq, hx]
    cases hfe : e.plans.find? x with
    | none =>
      refine ⟨d, hreach, fun h => ?_⟩
      rw [hfind h]
      by_cases heq : h = x <;> simp [heq, hx, hfe]
    | some p =>
      obtain ⟨t, hu, hp⟩ := he.closed hfe
      have hnone : d.plans.find? x = none := by rw [hfind, if_neg hx]
      have hsug : d.suggested x = .ok (.hole t) := by
        rw [hs.suggested_eq]
        exact suggested_eq_hole_iff.mpr hu.placeholder
      have hdone : ∀ y ∈ done, (d.planAt y).holes = 0 := by
        intro y hy
        have hyl : y ∈ roots.flatMap targets.leaves := hsplit ▸ List.mem_append_left _ hy
        exact he.holes_planAt hs hr ha hyl (by rw [hfind, if_pos hy])
      obtain ⟨d', hreach', hplan, hsame⟩ := hs.exists_reaches_of_derives ha hl hr hsplit hdone hx
        (planAt_of_find?_eq_none hnone hsug) hp.derives.1
      refine ⟨d', hreach.trans hreach', fun h => ?_⟩
      by_cases heq : h = x
      · subst heq
        have hne : p ≠ .hole t := by
          rintro rfl
          cases hp with
          | hole ht => exact absurd ht (by simp [hu.not_primitive])
        have hs' := hs.of_reaches hreach'
        cases hfd : d'.plans.find? h with
        | none =>
          rw [planAt_of_find?_eq_none hfd (by rw [hs'.suggested_eq, ← hs.suggested_eq, hsug])] at hplan
          exact absurd hplan.symm hne
        | some q =>
          rw [planAt_of_find? hfd] at hplan
          simp [hplan, hfe]
      · rw [hsame h heq, hfind h]
        simp [heq]

end Ready

theorem Assigns.of_agrees {nullable : Ty → Prop} (hd : d.Assigns nullable c targets roots) (h : d.Agrees e) :
    e.Assigns nullable c targets roots where
  targets_eq := h.targets_eq ▸ hd.targets_eq
  roots_eq := h.roots_eq ▸ hd.roots_eq
  closed hf := hd.closed ((h.find?_eq _).trans hf)
  total hu := by
    obtain ⟨p, hp⟩ := hd.total hu
    exact ⟨p, (h.find?_eq _).symm.trans hp⟩

/-- Refinement of a draft ends exactly where the draft is complete. The complete drafts that it reaches are those that
give every undecided placeholder a closed plan of its type, and it reaches them all. -/
theorem refine_enumerates (c : Catalog) (targets : Store) (roots : List Handle) (hl : targets.PrimitiveLengths)
    (ha : targets.Acyclic) :
    (∀ d, Reaches c { targets, roots } d → (d.refine c = .ok [] ↔ d.isComplete = .ok true)) ∧
      (Legible targets roots → ∀ d, Reaches c { targets, roots } d →
        (∃ ds, d.refine c = .ok ds) ∧ ∃ b, d.isComplete = .ok b) ∧
      ∀ e : Draft, (∃ d, Reaches c { targets, roots } d ∧ d.isComplete = .ok true ∧ d.Agrees e) ↔
        Legible targets roots ∧ e.Assigns Plan.Nullable c targets roots := by
  have hstart := sane_start c targets roots
  refine ⟨?_, ?_, fun e => ⟨?_, ?_⟩⟩
  · intro d hreach
    have hs := hstart.of_reaches hreach
    rw [hs.refine_eq_nil_iff ha hl, hs.isComplete_iff ha hl]
  · intro hlegible d hreach
    have hs := hstart.of_reaches hreach
    have hr := (ready_iff_legible ha).mpr hlegible
    exact ⟨⟨_, hs.refine_eq ha hl hr⟩, ⟨_, hs.isComplete_eq ha hl hr⟩⟩
  · rintro ⟨d, hreach, hd, hagrees⟩
    obtain ⟨hr, hassigns⟩ := assigns_of_reaches ha hl hreach hd
    exact ⟨(ready_iff_legible ha).mp hr, hassigns.of_agrees hagrees⟩
  · rintro ⟨hlegible, he⟩
    have hr := (ready_iff_legible ha).mpr hlegible
    obtain ⟨d, hreach, hfind⟩ := he.exists_reaches ha hl hr _ [] (List.append_nil _).symm
    have hs := hstart.of_reaches hreach
    -- Nothing is decided outside of the leaves.
    have hfind' : ∀ h, d.plans.find? h = e.plans.find? h := by
      intro h
      rw [hfind h]
      split
      next => rfl
      next hmem =>
        cases hf : e.plans.find? h with
        | none => rfl
        | some p =>
          obtain ⟨t, hu, -⟩ := he.closed hf
          exact absurd (hu.mem_leaves ha) hmem
    refine ⟨d, hreach, ?_, hs.targets_eq.trans he.targets_eq.symm, hs.roots_eq.trans he.roots_eq.symm, hfind'⟩
    rw [hs.isComplete_iff ha hl]
    exact ⟨hr, fun x hx => he.holes_planAt hs hr ha hx (hfind' x)⟩

/-- The draft that has decided on one plan. -/
def deciding (targets : Store) (roots : List Handle) (x : Handle) (p : Plan) : Draft :=
  { targets, roots, plans := Table.insert {} x p }

theorem assigns_deciding {nullable : Ty → Prop} {x : Handle} {p : Plan}
    (hu : ∀ h u, Undecided targets roots h u ↔ h = x ∧ u = t) (hp : p.Closed nullable c t) :
    (deciding targets roots x p).Assigns nullable c targets roots := by
  have hfind : ∀ h, (deciding targets roots x p).plans.find? h = if h = x then some p else none :=
    fun h => Table.find?_insert ({} : Table Handle Plan) x h p
  refine ⟨rfl, rfl, ?_, ?_⟩
  · intro h q hq
    rw [hfind] at hq
    split at hq
    next he =>
      cases hq
      exact ⟨t, (hu h t).mpr ⟨he, rfl⟩, hp⟩
    next => cases hq
  · intro h u hx
    rw [hfind, if_pos ((hu h u).mp hx).1]
    exact ⟨p, rfl⟩

/-- A list with an alias of a box in it. -/
def crate : Store :=
  .ofSlots
    [some (.object (.param "box" (.object "Box")) .empty),
     some (.container .list ⟨.param "crate" (.object "List"), ⟨2⟩, [(⟨3⟩, ⟨4⟩)], .empty⟩),
     some (.primitive (.param "n" .int) (.int 1) .empty),
     some (.primitive (.param "i" .int) (.int 0) .empty),
     some (.sameAs (.param "other" (.object "Box")) ⟨0⟩)]

/-- A box is made with a number and can be filled with a box. -/
def boxes : Catalog := { methods := [.constructor "Box" [.int], .modifier "Box" "fill" [.object "Box"] .void] }

theorem container_crate {k : ContainerKind} {b : Container} (hg : crate.get? h = some (.container k b)) :
    h = ⟨1⟩ ∧ b.length = ⟨2⟩ ∧ b.entries = [(⟨3⟩, ⟨4⟩)] := by
  obtain ⟨i⟩ := h
  match i with
  | 1 =>
    cases hg
    exact ⟨rfl, rfl, rfl⟩
  | 0 | 2 | 3 | 4 => cases hg
  | i + 5 => cases hg

theorem contains_crate {x : Handle} (hc : crate.Contains h x) : h = ⟨1⟩ ∧ (x = ⟨2⟩ ∨ x = ⟨3⟩ ∨ x = ⟨4⟩) := by
  obtain ⟨k, b, hg, hx⟩ := hc
  obtain ⟨rfl, hlen, hes⟩ := container_crate hg
  rw [Model.children, hlen, hes] at hx
  exact ⟨rfl, by simpa using hx⟩

theorem primitiveLengths_crate : crate.PrimitiveLengths := by
  intro h k b hg
  obtain ⟨-, hlen, -⟩ := container_crate hg
  rw [hlen]
  exact ⟨.param "n" .int, .int 1, .empty, rfl, rfl⟩

theorem acyclic_crate : crate.Acyclic := by
  apply Store.acyclic_of_index_lt
  intro a b hc
  obtain ⟨rfl, rfl | rfl | rfl⟩ := contains_crate hc <;> decide

theorem within_crate (hw : crate.Within [⟨1⟩] h) : h = ⟨1⟩ ∨ h = ⟨2⟩ ∨ h = ⟨3⟩ ∨ h = ⟨4⟩ := by
  obtain ⟨r, hr, hreach⟩ := hw
  rcases hreach.cases_tail with rfl | ⟨x, -, hx⟩
  · exact Or.inl (List.mem_singleton.mp hr)
  · exact Or.inr (contains_crate hx).2

theorem legible_crate : Legible crate [⟨1⟩] := by
  intro h hw
  rcases within_crate hw with rfl | rfl | rfl | rfl
  · exact ⟨_, rfl, fun t k he => by cases he⟩
  · exact ⟨_, rfl, fun t k he => by cases he⟩
  · exact ⟨_, rfl, fun t k he => by cases he⟩
  · refine ⟨_, rfl, ?_⟩
    rintro t k he
    cases he
    exact ⟨⟨0⟩, rfl⟩

theorem undecided_crate_iff (h : Handle) (t : Ty) : Undecided crate [⟨1⟩] h t ↔ h = ⟨4⟩ ∧ t = .object "Box" := by
  constructor
  · rintro ⟨hw, hp, hprim⟩
    have hsug := suggested_eq_hole_iff.mpr hp
    rcases within_crate hw with rfl | rfl | rfl | rfl
    · cases hsug
    · cases hsug
      cases hprim
    · cases hsug
      cases hprim
    · cases hsug
      exact ⟨rfl, rfl⟩
  · rintro ⟨rfl, rfl⟩
    refine ⟨⟨⟨1⟩, List.mem_singleton_self _, .single ⟨.list, _, rfl, ?_⟩⟩, suggested_eq_hole_iff.mp rfl, rfl⟩
    decide

/-- The box in the crate is made with some number and then filled with null. -/
theorem refine_enumerates_crate :
    crate.PrimitiveLengths ∧ crate.Acyclic ∧ Legible crate [⟨1⟩] ∧
      ∃ d, Reaches boxes { targets := crate, roots := [⟨1⟩] } d ∧ d.isComplete = .ok true ∧ d.refine boxes = .ok [] ∧
        d.Agrees (deciding crate [⟨1⟩] ⟨4⟩ (.call (.modifier "Box" "fill" [.object "Box"] .void)
          [.call (.constructor "Box" [.int]) [.hole .int], .null (.object "Box")])) := by
  obtain ⟨hends, -, hall⟩ := refine_enumerates boxes crate [⟨1⟩] primitiveLengths_crate acyclic_crate
  have hmade : Plan.Closed Plan.Nullable boxes (.object "Box") (.call (.constructor "Box" [.int]) [.hole .int]) := by
    refine .call ⟨by decide, "Box", rfl, rfl⟩ rfl ?_
    intro x hx
    rw [List.mem_singleton.mp hx]
    exact .hole rfl
  have hfilled : Plan.Closed Plan.Nullable boxes (.object "Box")
      (.call (.modifier "Box" "fill" [.object "Box"] .void)
        [.call (.constructor "Box" [.int]) [.hole .int], .null (.object "Box")]) := by
    refine .call ⟨by decide, "Box", rfl, rfl⟩ rfl ?_
    intro x hx
    rcases List.mem_cons.mp hx with rfl | hx
    · exact hmade
    · rw [List.mem_singleton.mp hx]
      exact .null rfl
  obtain ⟨d, hreach, hd, hagrees⟩ := (hall _).mpr ⟨legible_crate, assigns_deciding undecided_crate_iff hfilled⟩
  exact ⟨primitiveLengths_crate, acyclic_crate, legible_crate, d, hreach, hd, (hends d hreach).mpr hd, hagrees⟩

/-- A box alone. -/
def lone : Store := .ofSlots [some (.object (.param "box" (.object "Box")) .empty)]

theorem get?_lone {m : Model} (hg : lone.get? h = some m) :
    h = ⟨0⟩ ∧ m = .object (.param "box" (.object "Box")) .empty := by
  obtain ⟨i⟩ := h
  match i with
  | 0 =>
    cases hg
    exact ⟨rfl, rfl⟩
  | i + 1 => cases hg

theorem not_contains_lone {x : Handle} : ¬ lone.Contains h x := by
  rintro ⟨k, b, hg, -⟩
  cases (get?_lone hg).2

theorem primitiveLengths_lone : lone.PrimitiveLengths := by
  intro h k b hg
  cases (get?_lone hg).2

theorem acyclic_lone : lone.Acyclic :=
  Store.acyclic_of_index_lt fun _ _ hc => absurd hc not_contains_lone

theorem within_lone (hw : lone.Within [⟨0⟩] h) : h = ⟨0⟩ := by
  obtain ⟨r, hr, hreach⟩ := hw
  rcases hreach.cases_tail with rfl | ⟨x, -, hx⟩
  · exact List.mem_singleton.mp hr
  · exact absurd hx not_contains_lone

theorem legible_lone : Legible lone [⟨0⟩] := by
  intro h hw
  obtain rfl := within_lone hw
  exact ⟨_, rfl, fun t k he => by cases he⟩

theorem undecided_lone_iff (h : Handle) (t : Ty) : Undecided lone [⟨0⟩] h t ↔ h = ⟨0⟩ ∧ t = .object "Box" := by
  constructor
  · rintro ⟨hw, hp, -⟩
    obtain rfl := within_lone hw
    have hsug := suggested_eq_hole_iff.mpr hp
    cases hsug
    exact ⟨rfl, rfl⟩
  · rintro ⟨rfl, rfl⟩
    exact ⟨⟨⟨0⟩, List.mem_singleton_self _, .refl⟩, suggested_eq_hole_iff.mp rfl, rfl⟩

/-- Null is not tried for a number. If null were a closed plan for every type, then the box made with null in place of
its number would be missing. -/
theorem not_reaches_null_number :
    lone.PrimitiveLengths ∧ lone.Acyclic ∧
      ¬ ∀ e : Draft,
        (∃ d, Reaches { methods := [.constructor "Box" [.int]] } { targets := lone, roots := [⟨0⟩] } d ∧
          d.isComplete = .ok true ∧ d.Agrees e) ↔
        Legible lone [⟨0⟩] ∧ e.Assigns (fun _ => True) { methods := [.constructor "Box" [.int]] } lone [⟨0⟩] := by
  refine ⟨primitiveLengths_lone, acyclic_lone, fun hall => ?_⟩
  have hmade : Plan.Closed (fun _ => True) { methods := [.constructor "Box" [.int]] } (.object "Box")
      (.call (.constructor "Box" [.int]) [.null .int]) := by
    refine .call ⟨by decide, "Box", rfl, rfl⟩ rfl ?_
    intro x hx
    rw [List.mem_singleton.mp hx]
    exact .null trivial
  obtain ⟨d, hreach, hd, hagrees⟩ := (hall _).mpr ⟨legible_lone, assigns_deciding undecided_lone_iff hmade⟩
  obtain ⟨-, hassigns⟩ := assigns_of_reaches acyclic_lone primitiveLengths_lone hreach hd
  obtain ⟨t, -, hclosed⟩ := (hassigns.of_agrees hagrees).closed
    (show (deciding lone [⟨0⟩] ⟨0⟩ _).plans.find? ⟨0⟩ = some _ from rfl)
  cases hclosed with
  | call _ _ hps =>
    cases hps (.int, .null .int) (List.mem_singleton_self _) with
    | null hint => cases hint

end Draft

end Symex
