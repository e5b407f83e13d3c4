import Symex.Proofs.Probe.Rooted
import Symex.Proofs.Synthesis.Independent
import Symex.Proofs.Synthesis.Replayed

/-!
# Aliased roots share their model

A root that is an alias of another root is lowered to a copy of the local of that root, so its recipe is about that
root, and its model is an alias of the model of that root. It stays one when the models of the cluster are copied.
-/

namespace Symex

open Cluster (rootsAt)

/-! ### Plans -/

namespace Draft

variable {c : Catalog} {d : Draft} {targets : Store} {roots : List Handle} (hs : Sane c targets roots d)

include hs

theorem Sane.plan_sameAs {b k a : Handle} {t : Term} {i : Nat} (hg : targets.get? b = some (.sameAs t k))
    (hk : targets.deref k = .ok a) (hi : roots.findIdx? (· = a) = some i) : d.plan b = .ok (.root t.ty i) := by
  have hsug : d.suggested b = .ok (.root t.ty i) := by
    rw [hs.suggested_eq]
    refine bind_eq_ok.mpr ⟨_, Store.get_eq_ok.mpr hg, bind_eq_ok.mpr ⟨a, hk, ?_⟩⟩
    dsimp only
    rw [hi]
    rfl
  unfold plan
  split
  next p hp =>
    obtain ⟨u, hu, -⟩ := hs.decided hp
    rw [hsug] at hu
    cases hu
  next => exact hsug

/-- The holes of a complete draft are of primitive types. -/
theorem Sane.isPrimitive_of_complete (hc : d.isComplete = .ok true) {a : Handle} (ha : a ∈ roots) {t : Ty}
    (hp : d.plan a = .ok (.hole t)) : t.isPrimitive = true := by
  rw [isComplete, hs.roots_eq] at hc
  have hdefined := forall_of_allM hc a ha
  rw [definedWithin, hp] at hdefined
  exact Except.ok.inj hdefined

end Draft

/-! ### Models -/

/-- A primitive value is resolved to a primitive. -/
theorem Resolve.exists_primitive (settings : Settings) (s : State) (m : Assignment) (snapshot : Snapshot)
    {values : List Sym} {i : Nat} {t : Term} (ht : values[i]? = some (.prim t)) :
    ∃ h v as, (resolve settings s m snapshot values).params[i]? = some h ∧
      (resolve settings s m snapshot values).store.get? h = some (.primitive t v as) := by
  obtain ⟨hget, hext⟩ := resolveValues_get (Pass.start settings s m snapshot) ht {}
  exact ⟨_, _, _, hget, hext.get?_some (get?_alloc_fst _ _)⟩

theorem Recipe.Fills.sameAs {p : Supplies} {x : String} {t : Ty} {i : Nat} {h k : Handle} {s : Store}
    (hf : (Recipe.root x t i).Fills p h s) (hk : p.roots[i]? = some k) :
    s.get? h = some (.sameAs (.localVar x t) k) := by
  obtain ⟨_, c, m, c', -, hm, hs, -⟩ := hf
  rw [model, hk] at hm
  cases hm
  exact hs

/-- Only a recipe for another root's value gives an alias, if no parameter is one. -/
theorem Recipe.Fills.ne_sameAs {p : Supplies} {r : Recipe} {h : Handle} {s : Store} (hf : r.Fills p h s)
    (hroot : ∀ y t i, r ≠ .root y t i)
    (hparam : ∀ n, r = .param n → ∃ x t v as, p.params[n]? = some x ∧ p.source.get? x = some (.primitive t v as)) :
    ∃ m, s.get? h = some m ∧ ∀ t k, m ≠ .sameAs t k := by
  obtain ⟨_, c, m, c', hbuilding, hm, hs, -⟩ := hf
  refine ⟨m, hs, ?_⟩
  cases r with
  | param n =>
    obtain ⟨x, t, v, as, hx, hprim⟩ := hparam n rfl
    rw [model, Supplies.param, hx] at hm
    obtain ⟨⟨k, c₁⟩, hcopy, hm⟩ := bind_eq_ok.mp hm
    obtain ⟨-, hf₁, himage⟩ := Copying.copy_spec hcopy hbuilding.faithful
    obtain ⟨m', hm', hstore, -⟩ := hf₁.copied himage List.not_mem_nil
    rw [hprim] at hm'
    cases hm'
    obtain ⟨m₁, hm₁, hend⟩ := bind_eq_ok.mp hm
    rw [Store.get_eq_ok, hstore] at hm₁
    cases hm₁
    cases hend
    rintro t k ⟨⟩
  | null x t =>
    cases hm
    rintro t k ⟨⟩
  | root x t i => exact absurd rfl (hroot x t i)
  | create x method args =>
    rw [model] at hm
    obtain ⟨_, -, hm⟩ := bind_eq_ok.mp hm
    cases hm
    rintro t k ⟨⟩
  | change x method receiver args =>
    rw [model] at hm
    obtain ⟨_, -, hm⟩ := bind_eq_ok.mp hm
    obtain ⟨_, -, hm⟩ := bind_eq_ok.mp hm
    cases hm
    unfold changed
    split <;> rintro t k ⟨⟩
  | container x k t n es =>
    rw [model] at hm
    obtain ⟨_, -, hm⟩ := bind_eq_ok.mp hm
    obtain ⟨_, -, hm⟩ := bind_eq_ok.mp hm
    cases hm
    rintro t k ⟨⟩

namespace Workshop

variable {w : Workshop} {c : Catalog} {d : Draft} {targets : Store} {roots : List Handle}

/-- The parameter of a primitive hole is supplied as a primitive. -/
theorem Witnessed.exists_primitive {p : Probe} {g : Goal} {s : State} {atoms : List Atom} {t : Witness}
    (h : w.Witnessed p g s atoms t) {n : Nat} {q : Param} (hq : p.params[n]? = some q)
    (hprim : q.ty.isPrimitive = true) :
    ∃ x u v as, (Resolve.resolve w.settings t.state t.assignment .initial t.state.inputs).params[n]? = some x ∧
      (Resolve.resolve w.settings t.state t.assignment .initial t.state.inputs).store.get? x =
        some (.primitive u v as) := by
  have hinputs : t.state.inputs = (Machine.enter p 0).inputs := by
    rw [h.state_eq]
    exact (h.tracks.runs h.returned).2
  have hvalue : t.state.inputs[n]? = some (.prim (.param q.name q.ty)) := by
    rw [hinputs, Machine.enter, List.getElem?_map, hq, Option.map_some, Lowering.not_isReference hprim]
    rfl
  obtain ⟨x, v, as, hx, hget⟩ :=
    Resolve.exists_primitive w.settings t.state t.assignment .initial hvalue
  exact ⟨x, _, v, as, hx, hget⟩

/-- In what a verification finds, the model of a root that is an alias of another root is an alias of the model of
that root, and this is not an alias itself. -/
theorem verify_shares (hs : d.Sane c targets roots) (ha : targets.Acyclic) (hr : Draft.Ready targets roots)
    (hm : Goal.Measured targets roots) {time : Option Nat} {v v' : Verifier} {found : Store × List Handle}
    (hv : w.verify d time v = .ok (some found, v')) {i j : Nat} {a b k : Handle} {t : Term}
    (hb : roots[j]? = some b) (hg : targets.get? b = some (.sameAs t k)) (hk : targets.deref k = .ok a)
    (hi : roots.findIdx? (· = a) = some i) :
    (∃ u, found.1.get? ⟨j⟩ = some (.sameAs u ⟨i⟩)) ∧
      ∃ m, found.1.get? ⟨i⟩ = some m ∧ ∀ u x, m ≠ .sameAs u x := by
  obtain ⟨name, p, s, atoms, witness, hcomplete, hprobe, -, hw, hassemble⟩ := verify_some hs hr hm hv
  obtain ⟨ps, bs, ls, rs, hprobe', -, hcount, hgrounded⟩ := hs.exists_probe ha hr
  have hp : p = ⟨name, ps, bs, ls, rs⟩ := Except.ok.inj (hprobe.symm.trans (hprobe' name))
  have hrecipes : p.recipes.length = roots.length := by rw [hp, hcount]
  obtain ⟨out, hout, -, hfills⟩ := Probe.exists_assemble (p := p)
    (Store.Closed.closedOn
      (Resolve.closed_resolve w.settings witness.state witness.assignment .initial witness.state.inputs))
    (fun h hh => Resolve.isSome_resolve w.settings witness.state witness.assignment .initial witness.state.inputs hh)
    (by rw [hp, hcount]; exact hgrounded)
  rw [hassemble] at hout
  cases hout
  -- The other root: it is not an alias, so it is a root's own value, and a parameter only if it is primitive.
  have hroot : roots[i]? = some a := by
    obtain ⟨hlt, hai, -⟩ := List.findIdx?_eq_some_iff_getElem.mp hi
    rw [List.getElem?_eq_getElem hlt, of_decide_eq_true hai]
  obtain ⟨m, hma, hne⟩ := Store.get_of_derefWithin hk
  obtain ⟨plan, hplan, -⟩ := hs.exists_plan ha hr (List.mem_of_getElem? hroot)
  have hown := hs.not_isRoot (Store.get_eq_ok.mp hma) hne hplan
  obtain ⟨u, x, r, v₁, hri, hlow, hparams, -⟩ := hs.exists_recipe ha hr hprobe hroot hplan
  obtain ⟨hnotroot, hparam⟩ := Plan.recipe_of_not_root hlow hown
  refine ⟨?_, (hfills i r hri).ne_sameAs hnotroot ?_⟩
  · -- The alias: the other root has a local when it is lowered.
    have hplan' := hs.plan_sameAs hg hk hi
    obtain ⟨u', x', r', v₂, hrj, hlow', -, hlocals⟩ := hs.exists_recipe ha hr hprobe hb hplan'
    obtain ⟨y, hy⟩ := hlocals rfl i a plan hroot hplan hown
    rw [Plan.lowerVia, Plan.lowerOr, Lowering.root, hy] at hlow'
    cases hlow'
    have hlt : i < p.recipes.length := hrecipes ▸ (List.getElem?_eq_some_iff.mp hroot).1
    exact ⟨_, (hfills j _ hrj).sameAs (by rw [List.getElem?_map, List.getElem?_range hlt]; rfl)⟩
  · intro n hn
    obtain ⟨ty, name, rfl, hv₁⟩ := hparam n hn
    have hprim := hs.isPrimitive_of_complete hcomplete (List.mem_of_getElem? hroot) hplan
    obtain ⟨hlt, hget⟩ := List.getElem?_eq_some_iff.mp hv₁
    exact hw.exists_primitive (hget ▸ List.prefix_iff_getElem?.mp hparams n hlt) hprim

end Workshop

/-! ### Positions -/

theorem findIdx?_eq_iff_getElem? {α : Type} [DecidableEq α] {l : List α} {a : α} {i : Nat} :
    l.findIdx? (· = a) = some i ↔ l[i]? = some a ∧ ∀ j < i, l[j]? ≠ some a := by
  rw [List.findIdx?_eq_some_iff_getElem]
  constructor
  · rintro ⟨hlt, ha, hbefore⟩
    rw [decide_eq_true_eq] at ha
    refine ⟨List.getElem?_eq_some_iff.mpr ⟨hlt, ha⟩, fun j hj hja => hbefore j hj ?_⟩
    exact decide_eq_true (List.getElem?_eq_some_iff.mp hja).2
  · rintro ⟨ha, hbefore⟩
    obtain ⟨hlt, ha⟩ := List.getElem?_eq_some_iff.mp ha
    refine ⟨hlt, decide_eq_true ha, fun j hj hja => hbefore j hj ?_⟩
    exact List.getElem?_eq_some_iff.mpr ⟨Nat.lt_trans hj hlt, of_decide_eq_true hja⟩

/-- The roots of a cluster stand in the order of all roots, so what comes first among all roots comes first here. -/
theorem Cluster.findIdx?_rootsAt {roots : List Handle} {cs : List (List Nat)} (hparts : Partitions roots.length cs)
    {cluster : List Nat} (hc : cluster ∈ cs) {a : Handle} {i : Nat} (hi : roots.findIdx? (· = a) = some i) {p : Nat}
    (hp : cluster[p]? = some i) : (rootsAt roots cluster).findIdx? (· = a) = some p := by
  have hlt : ∀ k ∈ cluster, k < roots.length := fun k hk => hparts.lt hc hk
  obtain ⟨ha, hbefore⟩ := findIdx?_eq_iff_getElem?.mp hi
  refine findIdx?_eq_iff_getElem?.mpr ⟨(getElem?_rootsAt hlt hp).trans ha, ?_⟩
  intro q hq
  obtain ⟨hpc, rfl⟩ := List.getElem?_eq_some_iff.mp hp
  have hqc : q < cluster.length := Nat.lt_trans hq hpc
  rw [getElem?_rootsAt hlt (List.getElem?_eq_getElem hqc)]
  exact hbefore cluster[q] (List.pairwise_iff_getElem.mp (hparts.sorted cluster hc) q p hqc hpc hq)

/-! ### Results -/

namespace Synthesizer

/-- An alias of another root is given an alias of the model that the first position of that root is given, wherever
the two stand among the roots. -/
theorem synthesizeWithin_shares (s : Synthesizer) {targets : Store} {roots : List Handle}
    (hp : WellPosed targets roots) (depth time : Nat) :
    ∃ s' r, s.synthesizeWithin targets roots depth time = .ok (s', r) ∧
      ∀ (i j : Nat) (a b k y : Handle) (t : Term), roots[j]? = some b → targets.get? b = some (.sameAs t k) →
        targets.deref b = .ok a → roots.findIdx? (· = a) = some i → r.models[j]? = some (some y) →
          (∀ l : Nat, roots[l]? = some a → ∃ x, r.models[l]? = some (some x)) ∧
          ∃ x u, r.models[i]? = some (some x) ∧ r.store.get? y = some (.sameAs u x) ∧ r.store.deref y = .ok x := by
  obtain ⟨cs, hpart⟩ := hp.exists_partition
  obtain ⟨s', r, hsynth, hsettled⟩ := hp.exists_synthesizeWithin s depth hpart time
  obtain ⟨hparts, hsame⟩ := Cluster.partition_spec hpart
  refine ⟨s', r, hsynth, ?_⟩
  intro i j a b k y t hb hg hd hi hy
  have hk : targets.deref k = .ok a := by
    rw [Store.deref, Store.derefWithin, Store.get_eq_ok.mpr hg] at hd
    exact Store.derefWithin_succ hd
  have hjr : j < roots.length := (List.getElem?_eq_some_iff.mp hb).1
  obtain ⟨cluster, hc, hjc, -⟩ := (hsame hjr hjr).mpr .refl
  have hlt : ∀ l ∈ cluster, l < roots.length := fun l hl => hparts.lt hc hl
  -- The alias mentions the other root, so all positions of that are in its cluster.
  have hmem : ∀ {l : Nat}, roots[l]? = some a → l ∈ cluster := by
    intro l hl
    obtain ⟨c', hc', hjc', hlc'⟩ := (hsame hjr (List.getElem?_eq_some_iff.mp hl).1).mpr
      (.single ⟨b, a, hb, hl, Or.inl (Or.inl ⟨t, k, hg, hk⟩)⟩)
    rwa [hparts.eq_of_mem hc' hc hjc' hjc] at hlc'
  have hp' := hp.of_subset (Cluster.rootsAt_subset roots cluster)
  obtain ⟨left, -, answer, hanswer, hsettles⟩ := hsettled cluster hc
  obtain ⟨answer', hanswer', hfound⟩ := hp'.exists_answer s depth left
  rw [hanswer'.unique (hanswer left (Or.inl rfl))] at hfound
  cases answer with
  | none =>
    rw [hsettles j hjc] at hy
    cases hy
  | some out =>
    obtain ⟨base, copied, hadopts⟩ := hsettles
    obtain ⟨hassembled, d, t, u, u', hs, hverify⟩ := hfound out rfl
    have hhandle : ∀ {p l : Nat}, cluster[p]? = some l → out.2[p]? = some ⟨p⟩ := by
      intro p l hpl
      have hpc : p < (rootsAt roots cluster).length := Cluster.length_rootsAt hlt ▸ (List.getElem?_eq_some_iff.mp hpl).1
      rw [hassembled.handles_eq, List.getElem?_map, List.getElem?_range hpc]
      rfl
    refine ⟨?_, ?_⟩
    · intro l hl
      obtain ⟨p, hpl⟩ := List.mem_iff_getElem?.mp (hmem hl)
      obtain ⟨x, -, hx⟩ := hadopts.exists_image hpl (hhandle hpl)
      exact ⟨x, hx⟩
    · obtain ⟨p, hpi⟩ := List.mem_iff_getElem?.mp (hmem (findIdx?_eq_iff_getElem?.mp hi).1)
      obtain ⟨q, hqj⟩ := List.mem_iff_getElem?.mp hjc
      have hfirst := Cluster.findIdx?_rootsAt hparts hc hi hpi
      obtain ⟨⟨v, hv⟩, m, hm, hne⟩ := Workshop.verify_shares hs hp'.acyclic hp'.ready hp'.measured hverify
        ((Cluster.getElem?_rootsAt hlt hqj).trans hb) hg hk hfirst
      obtain ⟨x, hxi, hx⟩ := hadopts.exists_image hpi (hhandle hpi)
      obtain ⟨z, hzi, hz⟩ := hadopts.exists_image hqj (hhandle hqj)
      rw [hy] at hz
      cases hz
      have hget : r.store.get? y = some (.sameAs v x) := by
        rw [hadopts.get?_image hzi hv, Model.mapHandles, Copying.image_of_find? hxi]
      have hplain : ∀ v z, m.mapHandles copied.image ≠ .sameAs v z := by
        intro v z hmz
        cases m with
        | sameAs v' z' => exact hne v' z' rfl
        | _ => cases hmz
      exact ⟨x, v, hx, hget, Store.deref_of_sameAs hget (hadopts.get?_image hxi hm) hplain⟩

/-- The alias stands before the object, and another cluster between them. -/
theorem synthesizeWithin_shares_twins :
    WellPosed twins [⟨2⟩, ⟨1⟩, ⟨0⟩] ∧ ∃ s' r x y u,
      (Demo.synthesizer {} Solver.defaultLimit).synthesizeWithin twins [⟨2⟩, ⟨1⟩, ⟨0⟩] 2 1000 = .ok (s', r) ∧
      r.models = [some y, none, some x] ∧ r.store.get? y = some (.sameAs u x) ∧ r.store.deref y = .ok x := by
  obtain ⟨s', r, hr, hshares⟩ :=
    synthesizeWithin_shares (Demo.synthesizer {} Solver.defaultLimit) wellPosed_twins 2 1000
  have hmodels : (((Demo.synthesizer {} Solver.defaultLimit).synthesizeWithin twins [⟨2⟩, ⟨1⟩, ⟨0⟩] 2 1000).toOption.map
      fun e => e.2.models) = some [some ⟨0⟩, none, some ⟨1⟩] := by
    decide +kernel
  rw [hr] at hmodels
  have hmodels : r.models = [some ⟨0⟩, none, some ⟨1⟩] := Option.some.inj hmodels
  obtain ⟨-, x, u, hx, hget, hderef⟩ := hshares 2 0 ⟨0⟩ ⟨2⟩ ⟨0⟩ ⟨0⟩ (.param "twin" (.object "Foo")) rfl (by decide)
    (by decide) (by decide) (by rw [hmodels]; rfl)
  rw [hmodels] at hx
  cases hx
  exact ⟨wellPosed_twins, s', r, ⟨1⟩, ⟨0⟩, u, hr, hmodels, hget, hderef⟩

end Synthesizer

end Symex
