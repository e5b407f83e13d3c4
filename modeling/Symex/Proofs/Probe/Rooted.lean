import Symex.Proofs.Probe.Lowered

/-!
# How roots are lowered

The roots of a draft are lowered one after the other, and those that are other roots' values come last. So the root
that such a value is taken from has a local by then, and the recipe is about that root. No other plan is lowered to
such a recipe, and only holes become parameters.
-/

namespace Symex

/-- A plan that is not another root's value has no recipe for one. Its recipe is a parameter only if it is a hole. -/
theorem Plan.recipe_of_not_root {inside : Handle → Except Fault Lowering.Making} {self : Option Nat} {plan : Plan}
    {u v : Lowering} {x : String} {r : Recipe} (h : plan.lowerVia inside self u = .ok ((x, r), v))
    (hroot : plan.isRoot = false) :
    (∀ y t i, r ≠ .root y t i) ∧
      ∀ n, r = .param n → ∃ t name, plan = .hole t ∧ v.params[n]? = some ⟨name, t⟩ := by
  cases plan with
  | root t i => cases hroot
  | null t =>
    cases h
    exact ⟨nofun, nofun⟩
  | hole t =>
    cases h
    refine ⟨nofun, ?_⟩
    rintro n ⟨⟩
    exact ⟨t, _, rfl, List.getElem?_concat_length⟩
  | call m ps =>
    rcases lowerVia_call_cases h with ⟨-, -, hmade⟩ | ⟨_, _, _, _, -, -, rfl, -⟩ | ⟨_, _, _, -, -, hmade⟩
    · cases hmade
      exact ⟨nofun, nofun⟩
    · exact ⟨nofun, nofun⟩
    · cases hmade
      exact ⟨nofun, nofun⟩
  | container k t n es =>
    obtain ⟨_, _, _, _, _, -, -, -, -, rfl⟩ := lowerVia_container_cases h
    exact ⟨nofun, nofun⟩

namespace Draft

/-! ### The order of the roots -/

theorem order_perm (ps : List Plan) : (order ps).Perm (ps.mapIdx fun i p => (i, p)) := by
  refine List.perm_append_comm.trans ?_
  simpa using List.filter_append_perm (fun e : Nat × Plan => e.2.isRoot) (ps.mapIdx fun i p => (i, p))

theorem map_fst_order_perm (ps : List Plan) : ((order ps).map Prod.fst).Perm (List.range ps.length) := by
  have hfst : (ps.mapIdx fun i p => (i, p)).map Prod.fst = List.range ps.length := by
    refine List.ext_getElem (by simp) fun i hi _ => ?_
    simp
  have hperm := (order_perm ps).map Prod.fst
  rwa [hfst] at hperm

theorem map_snd_order_perm (ps : List Plan) : ((order ps).map Prod.snd).Perm ps := by
  have hsnd : (ps.mapIdx fun i p => (i, p)).map Prod.snd = ps := by
    refine List.ext_getElem (by simp) fun i hi _ => ?_
    simp
  have hperm := (order_perm ps).map Prod.snd
  rwa [hsnd] at hperm

theorem nodup_order (ps : List Plan) : ((order ps).map Prod.fst).Nodup :=
  (map_fst_order_perm ps).nodup_iff.mpr List.nodup_range

theorem pairwise_order (ps : List Plan) : (order ps).Pairwise fun e f => e.2.isRoot = true → f.2.isRoot = true := by
  refine List.pairwise_append.mpr ⟨?_, ?_, ?_⟩
  · refine List.pairwise_of_forall_mem_list fun e he f _ hroot => ?_
    simp [hroot] at he
  · exact List.pairwise_of_forall_mem_list fun e _ f hf _ => (List.mem_filter.mp hf).2
  · exact fun e _ f hf _ => (List.mem_filter.mp hf).2

/-- Roots that are other roots' values come after all that are not. -/
theorem mem_of_order_eq {ps : List Plan} {l₁ l₂ : List (Nat × Plan)} {e f : Nat × Plan}
    (h : order ps = l₁ ++ e :: l₂) (he : e.2.isRoot = true) (hf : f ∈ order ps) (hroot : f.2.isRoot = false) :
    f ∈ l₁ := by
  rw [h] at hf
  have hafter := pairwise_order ps
  rw [h] at hafter
  obtain ⟨-, hafter, -⟩ := List.pairwise_append.mp hafter
  rcases List.mem_append.mp hf with hf | hf
  · exact hf
  · rcases List.mem_cons.mp hf with rfl | hf
    · rw [he] at hroot
      cases hroot
    · rw [(List.pairwise_cons.mp hafter).1 f hf he] at hroot
      cases hroot

/-! ### The run through the roots -/

/-- Each root is lowered at a point where the roots before it have locals. -/
theorem lowerRoots_eq_ok {d : Draft} {n : Nat} {l₁ l₂ : List (Nat × Plan)} {e : Nat × Plan}
    (hps : ∀ f ∈ l₁ ++ e :: l₂, f.1 < n ∧ ∀ self, Lowering.Works n (f.2.lowerVia (d.lowerWithin d.nesting) self))
    (hnodup : ((l₁ ++ e :: l₂).map Prod.fst).Nodup) {w w' : Lowering} (hw : w.locals.length = n)
    {rs : Table Nat Recipe} (h : d.lowerRoots (l₁ ++ e :: l₂) w = .ok (rs, w')) :
    ∃ u x r v, e.2.lowerVia (d.lowerWithin d.nesting) (some e.1) u = .ok ((x, r), v) ∧ rs.find? e.1 = some r ∧
      w.Keeps u ∧ (∀ f ∈ l₁, ∃ y, u.locals[f.1]? = some (some y)) ∧ v.params <+: w'.params := by
  induction l₁ generalizing w rs with
  | nil =>
    obtain ⟨x, r, v, rs', hv, hrest, rfl⟩ := lowerRoots_cons_cases h
    obtain ⟨hlt, hwork⟩ := hps e List.mem_cons_self
    obtain ⟨x', r', v', hv', hkeeps, -⟩ := hwork (some e.1) w hw
    rw [hv] at hv'
    cases hv'
    obtain ⟨_, _, hrest', hkeeps', -⟩ := works_roots (fun f hf => hps f (List.mem_cons_of_mem _ hf))
      { v with locals := v.locals.set e.1 (some x) } ((List.length_set).trans (hkeeps.length_eq.trans hw))
    rw [hrest] at hrest'
    cases hrest'
    exact ⟨w, x, r, v, hv, Table.find?_insert_self _ _ _, .of_eq rfl List.prefix_rfl, nofun, hkeeps'.params⟩
  | cons f l₁ ih =>
    obtain ⟨y, s, z, rs', hz, hrest, rfl⟩ := lowerRoots_cons_cases h
    obtain ⟨hlt, hwork⟩ := hps f List.mem_cons_self
    obtain ⟨y', s', z', hz', hkeeps, -⟩ := hwork (some f.1) w hw
    rw [hz] at hz'
    cases hz'
    have hset : z.Keeps { z with locals := z.locals.set f.1 (some y) } := .set rfl rfl
    have hlen : z.locals.length = n := hkeeps.length_eq.trans hw
    rw [List.cons_append, List.map_cons, List.nodup_cons] at hnodup
    obtain ⟨u, x, r, v, hv, hfind, hkeeps', hbefore, hparams⟩ :=
      ih (fun g hg => hps g (List.mem_cons_of_mem _ hg)) hnodup.2 (hset.length_eq.trans hlen) hrest
    refine ⟨u, x, r, v, hv, ?_, hkeeps.trans (hset.trans hkeeps'), ?_, hparams⟩
    · rw [Table.find?_insert, if_neg, hfind]
      intro he
      exact hnodup.1 (he ▸ List.mem_map_of_mem (List.mem_append_right _ List.mem_cons_self))
    · refine List.forall_mem_cons.mpr ⟨?_, hbefore⟩
      exact hkeeps'.isSome (List.getElem?_set_self (hlen.symm ▸ hlt))

variable {c : Catalog} {d : Draft} {targets : Store} {roots : List Handle}

/-- The probe of a draft is what its roots are lowered to, with a recipe and a local for each of them. -/
theorem Sane.exists_lowering (hs : Sane c targets roots d) (ha : targets.Acyclic) (hr : Ready targets roots)
    {name : String} {p : Probe} (hp : d.probe name = .ok p) :
    ∃ plans rs w, d.lowerRoots (order plans) { locals := plans.map fun _ => none } = .ok (rs, w) ∧
      plans.length = roots.length ∧
      (∀ e ∈ order plans, e.1 < roots.length ∧
        ∀ self, Lowering.Works roots.length (e.2.lowerVia (d.lowerWithin d.nesting) self)) ∧
      (∀ e : Nat × Plan, e ∈ order plans ↔ ∃ h, roots[e.1]? = some h ∧ d.plan h = .ok e.2) ∧
      p.params = w.params ∧ p.body = w.body ∧ (∀ i, i < roots.length → p.recipes[i]? = rs.find? i) ∧
      ∀ (i : Nat) (l : String), w.locals[i]? = some (some l) → p.locals[i]? = some l := by
  obtain ⟨plans, hplans, hcount, hwork⟩ := hs.exists_rootPlans ha hr
  have hall : List.Forall₂ (fun h p => d.plan h = .ok p) roots plans := by
    rw [rootPlans, hs.roots_eq] at hplans
    exact mapM_eq_ok.mp hplans
  have hmem : ∀ e : Nat × Plan, e ∈ order plans ↔ ∃ h, roots[e.1]? = some h ∧ d.plan h = .ok e.2 := by
    intro e
    rw [mem_order]
    constructor
    · intro he
      obtain ⟨hlt, hget⟩ := List.getElem?_eq_some_iff.mp he
      have hlt' : e.1 < roots.length := hcount ▸ hlt
      refine ⟨roots[e.1], List.getElem?_eq_getElem hlt', ?_⟩
      rw [← hget]
      exact hall.get hlt' hlt
    · rintro ⟨h, hh, hq⟩
      obtain ⟨hlt, rfl⟩ := List.getElem?_eq_some_iff.mp hh
      have hlt' : e.1 < plans.length := hcount.symm ▸ hlt
      have hget := hall.get hlt hlt'
      rw [List.get_eq_getElem, List.get_eq_getElem, hq] at hget
      rw [List.getElem?_eq_getElem hlt', Except.ok.inj hget]
  have hlen : (plans.map fun _ => (none : Option String)).length = roots.length := by rw [List.length_map, hcount]
  obtain ⟨rs, w, hlow, hkeep, hloc, hrec, -⟩ := works_roots hwork { locals := plans.map fun _ => none } hlen
  have hindex : ∀ k, k < plans.length → ∃ q, (k, q) ∈ order plans := fun k hk =>
    ⟨plans[k], mem_order.mpr (List.getElem?_eq_getElem hk)⟩
  refine ⟨plans, rs, w, hlow, hcount, hwork, hmem, ?_⟩
  obtain ⟨plans', rs', w', hplans', hlow', rfl⟩ := probe_eq_ok hp
  cases hplans.symm.trans hplans'
  cases hlow.symm.trans hlow'
  refine ⟨rfl, rfl, ?_, ?_⟩
  · intro i hi
    have hsome : ∀ k ∈ List.range plans.length, (rs.find? k).isSome := by
      intro k hk
      obtain ⟨q, hq⟩ := hindex k (List.mem_range.mp hk)
      obtain ⟨r, hr'⟩ := hrec (k, q) hq
      rw [hr']
      rfl
    show ((List.range plans.length).filterMap rs.find?)[i]? = rs.find? i
    rw [getElem?_filterMap_of_isSome hsome, List.getElem?_range (hcount.symm ▸ hi)]
    rfl
  · intro i l hl
    have hsome : ∀ o ∈ w.locals, (id o : Option String).isSome := by
      intro o ho
      obtain ⟨k, hk, rfl⟩ := List.mem_iff_getElem.mp ho
      obtain ⟨q, hq⟩ := hindex k (by rw [hcount, ← hlen, ← hkeep.length_eq]; exact hk)
      obtain ⟨x, hx⟩ := hloc (k, q) hq
      rw [List.getElem?_eq_getElem hk] at hx
      rw [Option.some.inj hx]
      rfl
    show (w.locals.filterMap id)[i]? = some l
    rw [getElem?_filterMap_of_isSome hsome, hl]
    rfl

/-- The recipe of a root is what its plan is lowered to. If it is another root's value, all roots that are not have
locals by then. -/
theorem Sane.exists_recipe (hs : Sane c targets roots d) (ha : targets.Acyclic) (hr : Ready targets roots)
    {name : String} {p : Probe} (hp : d.probe name = .ok p) {i : Nat} {h : Handle} {plan : Plan}
    (hi : roots[i]? = some h) (hplan : d.plan h = .ok plan) :
    ∃ u x r v, p.recipes[i]? = some r ∧
      plan.lowerVia (d.lowerWithin d.nesting) (some i) u = .ok ((x, r), v) ∧ v.params <+: p.params ∧
      (plan.isRoot = true → ∀ (k : Nat) (g : Handle) (q : Plan), roots[k]? = some g → d.plan g = .ok q →
        q.isRoot = false → ∃ y, u.locals[k]? = some (some y)) := by
  obtain ⟨plans, rs, w, hlow, hcount, hwork, hmem, hparams, -, hrecipes, -⟩ := hs.exists_lowering ha hr hp
  have hlen : (plans.map fun _ => (none : Option String)).length = roots.length := by rw [List.length_map, hcount]
  obtain ⟨l₁, l₂, hsplit⟩ := List.append_of_mem ((hmem (i, plan)).mpr ⟨h, hi, hplan⟩)
  have hnodup := nodup_order plans
  rw [hsplit] at hlow hnodup
  obtain ⟨u, x, r, v, hv, hfind, -, hbefore, hprefix⟩ := lowerRoots_eq_ok (hsplit ▸ hwork) hnodup hlen hlow
  refine ⟨u, x, r, v, ?_, hv, hparams ▸ hprefix, ?_⟩
  · rw [hrecipes i (List.getElem?_eq_some_iff.mp hi).1]
    exact hfind
  · intro hroot k g q hk hq hqroot
    exact hbefore (k, q) (mem_of_order_eq hsplit hroot ((hmem (k, q)).mpr ⟨g, hk, hq⟩) hqroot)

end Draft

end Symex
