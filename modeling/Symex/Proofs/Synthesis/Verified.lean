import Symex.Proofs.Explore.Bounded
import Symex.Proofs.Explore.Run
import Symex.Proofs.Machine.Degree
import Symex.Proofs.Plan.Reach
import Symex.Proofs.Probe.Assembled
import Symex.Proofs.Resolve.Built
import Symex.Synthesis.Verifier

/-!
# Verification has an answer

A draft that was made by refinement is verified without fault, whatever the verifier has done before, and the answer
does not depend on that. The reasons are that the resolver leaves no loose ends in the store it builds, so that what
it found can be compared with the targets and copied, and that every root of the draft leads to a model.

The time that a verification is given matters only if it takes all of it, and no verification takes more than the step
limit of its exploration allows for.
-/

namespace Symex

/-- Every root of a draft that can be planned leads to a model. -/
theorem Draft.Ready.exists_derefModel {targets : Store} {roots : List Handle} (hr : Ready targets roots) {h : Handle}
    (hh : h ∈ roots) : ∃ m, targets.derefModel h = .ok m := by
  by_cases hc : ∃ k b, targets.get? h = some (.container k b)
  · obtain ⟨k, b, hg⟩ := hc
    have hget : targets.get h = .ok (.container k b) := Store.get_eq_ok.mpr hg
    refine ⟨.container k b, bind_eq_ok.mpr ⟨h, ?_, hget⟩⟩
    rw [Store.deref, Store.derefWithin, hget]
  · have hleaf : targets.leaves h = [h] := Store.leaves_of_not_container fun k b hg => hc ⟨k, b, hg⟩
    obtain ⟨p, hp⟩ := hr h (List.mem_flatMap.mpr ⟨h, hh, by rw [hleaf]; exact List.mem_singleton_self h⟩)
    obtain ⟨m, hm, hrest⟩ := bind_eq_ok.mp hp
    cases m with
    | sameAs t target =>
      obtain ⟨k, hk, -⟩ := bind_eq_ok.mp hrest
      obtain ⟨m, hmk, -⟩ := Store.get_of_derefWithin hk
      refine ⟨m, bind_eq_ok.mpr ⟨k, ?_, hmk⟩⟩
      -- The alias itself is one more link of the chain, which is still no longer than the store.
      rw [Store.deref, Store.derefWithin, hm]
      exact Store.deref_of_derefWithin hk
    | _ =>
      refine ⟨_, bind_eq_ok.mpr ⟨h, ?_, hm⟩⟩
      rw [Store.deref, Store.derefWithin, hm]

namespace Resolve

variable (settings : Settings) (s : State) (m : Assignment) (snapshot : Snapshot) (vs : List Sym)

theorem wellFormed_resolve : (resolve settings s m snapshot vs).WellFormed vs := wellFormed_run _ vs []

theorem closed_resolve : (resolve settings s m snapshot vs).store.Closed :=
  (wellFormed_resolve settings s m snapshot vs).store.closed

theorem isSome_resolve {h : Handle} (hh : h ∈ (resolve settings s m snapshot vs).params) :
    ((resolve settings s m snapshot vs).store.get? h).isSome :=
  (wellFormed_resolve settings s m snapshot vs).store.built
    ((wellFormed_resolve settings s m snapshot vs).params h hh)

/-- A model that was resolved is found behind at most one alias, and has its length if it is a container. -/
theorem exists_derefModel_resolve {h : Handle} (hh : h ∈ (resolve settings s m snapshot vs).params) :
    ∃ x, (resolve settings s m snapshot vs).store.derefModel h = .ok x ∧
      x.HasLength (resolve settings s m snapshot vs).store := by
  have hw := wellFormed_resolve settings s m snapshot vs
  obtain ⟨k, x, hd, hx, -⟩ := hw.store.exists_deref (hw.params h hh)
  exact ⟨x, bind_eq_ok.mpr ⟨k, hd, Store.get_eq_ok.mpr hx⟩, hw.store.length hx⟩

end Resolve

namespace Goal

/-- A root that is a container has a length to compare with. -/
def Measured (targets : Store) (roots : List Handle) : Prop :=
  ∀ h ∈ roots, ∀ k b, targets.derefModel h = .ok (.container k b) → ∃ m, targets.get b.length = .ok m

variable {targets : Store} {roots : List Handle}

theorem measured_of_primitiveLengths (hl : targets.PrimitiveLengths) (roots : List Handle) :
    Measured targets roots := by
  intro h _ k b hd
  obtain ⟨j, -, hj⟩ := bind_eq_ok.mp hd
  obtain ⟨u, v, as, hu, -⟩ := hl (Store.get_eq_ok.mp hj)
  exact ⟨_, Store.get_eq_ok.mpr hu⟩

variable (hl : Measured targets roots) (hr : Draft.Ready targets roots)

section

variable {settings : Settings} {s : State} {a : Assignment} {vs : List Sym} {t h : Handle}

include hl hr in
theorem exists_modelDistance (ht : t ∈ roots) (hh : h ∈ (Resolve.resolve settings s a .current vs).params) :
    ∃ n, modelDistance targets t (Resolve.resolve settings s a .current vs).store h = .ok n := by
  obtain ⟨x, hx⟩ := hr.exists_derefModel ht
  obtain ⟨y, hy, hlen⟩ := Resolve.exists_derefModel_resolve settings s a .current vs hh
  by_cases hc : ∃ k b l e, x = .container k b ∧ y = .container l e
  · obtain ⟨k, b, l, e, rfl, rfl⟩ := hc
    obtain ⟨u, hu⟩ := hl t ht k b hx
    obtain ⟨u', v', as', hu'⟩ := hlen
    rw [modelDistance, hx, hy]
    show ∃ n, (if k = l then targets.get b.length >>= _ else pure 1 : Except Fault Nat) = .ok n
    split
    · rw [hu, Store.get_eq_ok.mpr hu']
      exact ⟨_, rfl⟩
    · exact ⟨_, rfl⟩
  · rw [modelDistance, hx, hy]
    cases x with
    | container k b =>
      cases y with
      | container l e => exact absurd ⟨k, b, l, e, rfl, rfl⟩ hc
      | _ => exact ⟨_, rfl⟩
    | _ => cases y <;> exact ⟨_, rfl⟩

include hr in
theorem exists_violations (ht : t ∈ roots) (hh : h ∈ (Resolve.resolve settings s a .current vs).params) :
    ∃ n, violations targets t (Resolve.resolve settings s a .current vs).store h s a = .ok n := by
  obtain ⟨x, hx⟩ := hr.exists_derefModel ht
  obtain ⟨y, hy⟩ := Option.isSome_iff_exists.mp (Resolve.isSome_resolve settings s a .current vs hh)
  rw [violations, hx]
  cases x with
  | object v atoms =>
    show ∃ n, ((Resolve.resolve settings s a .current vs).store.get h >>= _) = .ok n
    rw [Store.get_eq_ok.mpr hy]
    exact ⟨_, rfl⟩
  | _ => exact ⟨_, rfl⟩

end

include hl hr

theorem exists_judge (settings : Settings) (limit : Nat) {bindings : List Binding}
    (hb : ∀ b ∈ bindings, b.target ∈ roots) (s : State) : ∃ v, judge settings limit targets bindings s = .ok v := by
  unfold judge
  split
  · exact ⟨_, rfl⟩
  next a _ =>
    refine exists_bind (exists_bind (exists_mapM ?_) fun parts => ⟨_, rfl⟩) fun n => ⟨_, rfl⟩
    rintro ⟨t, h⟩ he
    obtain ⟨ht, hh⟩ := List.of_mem_zip he
    have htr : t ∈ roots := by
      obtain ⟨e, hbound, rfl⟩ := List.mem_map.mp ht
      obtain ⟨b, hbm, hv⟩ := List.mem_filterMap.mp hbound
      obtain ⟨v, -, rfl⟩ := Option.map_eq_some_iff.mp hv
      exact hb b hbm
    exact exists_bind (exists_modelDistance hl hr htr hh) fun d =>
      exists_bind (exists_violations hr htr hh) fun n => ⟨_, rfl⟩

omit hl

theorem exists_atoms (locals : List String) (s : State) : ∃ r, atoms ⟨targets, roots, locals⟩ s = .ok r := by
  unfold atoms
  split
  · exact ⟨_, rfl⟩
  next values _ =>
    have hget : ∀ h ∈ roots, ∃ m, targets.get h = .ok m ∧ ∀ t k, m = .sameAs t k → ∃ j, targets.deref k = .ok j := by
      intro h hh
      obtain ⟨m, hm⟩ := hr.exists_derefModel hh
      obtain ⟨j, hj, -⟩ := bind_eq_ok.mp hm
      rw [Store.deref, Store.derefWithin] at hj
      split at hj
      · cases hj
      next t k hk =>
        refine ⟨_, hk, ?_⟩
        rintro _ _ ⟨⟩
        exact ⟨j, Store.derefWithin_succ hj⟩
      next x hne hx => exact ⟨x, hx, fun t k e => absurd e (hne t k)⟩
    obtain ⟨models, hmodels⟩ := exists_mapM fun h hh => (hget h hh).imp fun m hm => hm.1
    have hparts : ∀ e ∈ values.zip models, ∃ as,
        rootAtoms ⟨targets, roots, locals⟩ (Table.ofList ((models.map Model.term).zip values)) values e.1 e.2 = .ok as := by
      rintro ⟨v, m⟩ he
      have hm : m ∈ models := (List.of_mem_zip he).2
      obtain ⟨h, hh, hgm⟩ := mem_of_mapM hmodels hm
      obtain ⟨m', hm', halias⟩ := hget h hh
      rw [hgm] at hm'
      cases hm'
      cases m with
      | sameAs t k =>
        obtain ⟨j, hj⟩ := halias t k rfl
        exact ⟨_, bind_eq_ok.mpr ⟨j, hj, rfl⟩⟩
      | _ => exact ⟨_, rfl⟩
    obtain ⟨parts, hp⟩ := exists_mapM hparts
    exact ⟨_, bind_eq_ok.mpr ⟨models, hmodels, bind_eq_ok.mpr ⟨parts, hp, rfl⟩⟩⟩

end Goal

namespace Workshop

variable {c : Catalog} {d : Draft} {targets : Store} {roots : List Handle} (w : Workshop)

theorem exists_visit (hr : Draft.Ready targets roots) (locals : List String) (s : State) (e : Ends) :
    ∃ e' enough, w.visit ⟨targets, roots, locals⟩ s e = .ok (e', enough) := by
  unfold visit
  split
  · exact ⟨_, _, rfl⟩
  · obtain ⟨r, hat⟩ := Goal.exists_atoms hr locals s
    rw [hat]
    cases r with
    | none => exact ⟨_, _, rfl⟩
    | some atoms =>
      dsimp only [bind, Except.bind]
      split
      · exact ⟨_, _, rfl⟩
      · exact ⟨_, _, rfl⟩

theorem exists_models {p : Probe} (hp : ∀ r ∈ p.recipes, r.Grounded p.recipes.length) (e : Ends) :
    ∃ r, w.models p e = .ok r ∧ ∀ out, r = some out → Probe.Assembled p.recipes.length out := by
  unfold models
  split
  · exact ⟨none, rfl, nofun⟩
  next t _ =>
    obtain ⟨out, hout, hassembled, -⟩ := Probe.exists_assemble
      (Store.Closed.closedOn
        (Resolve.closed_resolve w.settings t.state t.assignment .initial t.state.inputs))
      (fun h hh => Resolve.isSome_resolve w.settings t.state t.assignment .initial t.state.inputs hh) hp
    refine ⟨some out, bind_eq_ok.mpr ⟨out, hout, rfl⟩, ?_⟩
    rintro _ ⟨⟩
    exact hassembled

theorem verify_of_incomplete (hc : d.isComplete = .ok false) (time : Option Nat) (v : Verifier) :
    w.verify d time v = .ok (none, v) := by
  rw [verify, hc]
  rfl

theorem verify_of_probe {time : Option Nat} {v : Verifier} {p : Probe} {g : Goal} (hc : d.isComplete = .ok true)
    (hp : d.probe ("$initializer_" ++ toString v.probes.length) = .ok p)
    (hg : Goal.make d.targets d.roots p.locals = .ok g) :
    w.verify d time v =
      match w.progress d p with
      | .error _ => .ok (none, v)
      | .ok x => do
        let y ← w.explore p g time x
        let r ← w.models p y.result
        return (r, { probes := v.probes ++ [p]
                     steps := v.steps + (y.tally.steps - y.tally.terminated)
                     checks := v.checks + y.tally.checks + y.selector.judged + y.result.checks
                     clock := v.clock + y.tally.rounds }) := by
  rw [verify, hc]
  show (d.probe _ >>= _) = _
  rw [hp]
  show (Goal.make d.targets d.roots p.locals >>= _) = _
  rw [hg]
  rfl

variable (hs : d.Sane c targets roots) (hr : Draft.Ready targets roots)

include hs hr in
/-- A probe is run without fault, and what its run preserves is true in the end. -/
theorem explore_of_preserves (hm : Goal.Measured targets roots) {p : Probe} {x : Explore.Progress Ends}
    (hx : w.progress d p = .ok x) {inv : State → Prop} {res : Ends → Prop}
    (hpres : Explore.Setup.Preserves
      { limit := w.limit, step := w.machine.step p, visit := w.visit ⟨targets, roots, p.locals⟩ } inv res)
    (hinv : inv (Machine.enter p 0)) (hres : res {}) (time : Option Nat) :
    ∃ y, w.explore p ⟨targets, roots, p.locals⟩ time x = .ok y ∧ res y.result := by
  obtain ⟨⟨selector, instruments⟩, hbuild, hstart⟩ := bind_eq_ok.mp hx
  obtain ⟨⟨k, i⟩, -, hattach⟩ := bind_eq_ok.mp hbuild
  rw [pure_eq_ok] at hstart hattach
  have hbind : ∀ b ∈ (d.roots.zip p.locals).map fun e => Goal.Binding.mk e.1 e.2, b.target ∈ roots := by
    intro b hb
    obtain ⟨e, he, rfl⟩ := List.mem_map.mp hb
    rw [← hs.roots_eq]
    exact (List.of_mem_zip he).1
  have hholds : x.Holds inv res := by
    rw [← hstart]
    refine ⟨⟨_, _, (congrArg Prod.fst hattach).symm, ?_, ?_⟩, hres⟩
    · intro s hmem
      cases hmem
    · intro s _
      show ∃ v, Goal.judge w.settings w.limit d.targets _ s = .ok v
      rw [hs.targets_eq]
      exact Goal.exists_judge hm hr w.settings w.limit hbind s
  obtain ⟨y, why, hy, hend⟩ := hholds.run hpres hinv (time.getD (x.rounds w.machine.degree))
  exact ⟨y, bind_eq_ok.mpr ⟨(y, why), hy, rfl⟩, hend.result⟩

include hs hr in
theorem exists_explore (hm : Goal.Measured targets roots) {p : Probe} {x : Explore.Progress Ends}
    (hx : w.progress d p = .ok x) (time : Option Nat) :
    ∃ y, w.explore p ⟨targets, roots, p.locals⟩ time x = .ok y := by
  -- Nothing has to be known of the states: any state can be judged and visited.
  have hpres : Explore.Setup.Preserves
      { limit := w.limit, step := w.machine.step p, visit := w.visit ⟨targets, roots, p.locals⟩ }
      (fun _ => True) (fun _ => True) := by
    refine ⟨fun _ _ _ _ _ => trivial, fun _ => trivial, ?_⟩
    intro s e _ _
    obtain ⟨e', enough, hv⟩ := w.exists_visit hr p.locals s e
    exact ⟨e', enough, hv, trivial⟩
  obtain ⟨y, hy, -⟩ := w.explore_of_preserves hs hr hm hx hpres trivial trivial time
  exact ⟨y, hy⟩

/-! ### Time -/

omit w in
theorem tally_progress {w : Workshop} {p : Probe} {x : Explore.Progress Ends} (hx : w.progress d p = .ok x) :
    x.tally = {} := by
  obtain ⟨built, -, hstart⟩ := bind_eq_ok.mp hx
  cases hstart
  rfl

omit w in
theorem explore_timed {w : Workshop} {p : Probe} {g : Goal} {x y : Explore.Progress Ends} (hx : x.tally = {}) {n : Nat}
    (h : w.explore p g (some n) x = .ok y) : Timed (fun n => w.explore p g (some n) x) n y.tally.rounds := by
  obtain ⟨⟨y', why⟩, hrun, hend⟩ := bind_eq_ok.mp h
  cases hend
  obtain ⟨selector, hpush, hloop⟩ := bind_eq_ok.mp hrun
  obtain ⟨used, hrounds, htimed⟩ := Explore.Progress.loop_timed hloop
  have hused : y.tally.rounds = used := by
    rw [hrounds, hx]
    exact Nat.zero_add used
  rw [hused]
  refine ⟨htimed.le, ?_⟩
  intro hlt m hm
  show (x.selector.push (Machine.enter p 0) >>= _) >>= _ = (x.selector.push (Machine.enter p 0) >>= _) >>= _
  rw [hpush]
  exact congrArg (· >>= fun e => pure e.1) (htimed.more hlt m hm)

omit w in
/-- The clock goes on by the time that a verification takes. -/
theorem verify_timed {w : Workshop} {n : Nat} {v v' : Verifier} {r : Option (Store × List Handle)}
    (h : w.verify d (some n) v = .ok (r, v')) :
    ∃ used, v'.clock = v.clock + used ∧ Timed (fun n => w.verify d (some n) v) n used := by
  obtain ⟨q, hc, hrest⟩ := bind_eq_ok.mp h
  cases q with
  | false =>
    cases hrest
    refine ⟨0, rfl, Nat.zero_le _, fun _ m _ => ?_⟩
    exact (w.verify_of_incomplete hc (some m) v).trans (w.verify_of_incomplete hc (some n) v).symm
  | true =>
    obtain ⟨p, hp, hrest⟩ := bind_eq_ok.mp hrest
    obtain ⟨g, hg, -⟩ := bind_eq_ok.mp hrest
    have hverify (m : Nat) : w.verify d (some m) v = _ := verify_of_probe w hc hp hg
    rw [hverify] at h
    cases hx : w.progress d p with
    | error e =>
      simp only [hx] at h hverify
      cases h
      exact ⟨0, rfl, Nat.zero_le _, fun _ m _ => (hverify m).trans (hverify n).symm⟩
    | ok x =>
      simp only [hx] at h hverify
      obtain ⟨y, hy, hrest⟩ := bind_eq_ok.mp h
      obtain ⟨models, -, hend⟩ := bind_eq_ok.mp hrest
      cases hend
      have htimed := explore_timed (tally_progress hx) hy
      refine ⟨y.tally.rounds, rfl, htimed.le, ?_⟩
      intro hlt m hm
      have hsame : w.explore p g (some m) x = w.explore p g (some n) x := htimed.more hlt m hm
      show w.verify d (some m) v = w.verify d (some n) v
      rw [hverify, hverify, hsame]

/-- More rounds than the exploration of a probe can take. -/
def allowance (w : Workshop) : Nat := w.settings.probeStepLimit + w.machine.degree + 2

include hs hr in
/-- An exploration starts with nothing to pick, and none of its steps used up. -/
theorem exists_progress (hm : Goal.Measured targets roots) (p : Probe) : ∃ x, w.progress d p = .ok x ∧
    x.Fresh w.settings.probeStepLimit ∧ x.nextId = 1 ∧ x.result = {} ∧ w.allowance < x.rounds w.machine.degree := by
  refine ⟨_, rfl, ⟨.single .nil ?_, rfl⟩, rfl, rfl, ?_⟩
  · intro s _
    refine hs.targets_eq ▸ Goal.exists_judge hm hr w.settings w.limit ?_ s
    intro b hb
    obtain ⟨e, he, rfl⟩ := List.mem_map.mp hb
    rw [← hs.roots_eq]
    exact (List.of_mem_zip he).1
  · show w.allowance < 0 + 1 * (w.settings.probeStepLimit + 1 - 0 + w.machine.degree + 1) + 1
    unfold allowance
    omega

include hs hr in
/-- The exploration of a probe ends by itself. -/
theorem exists_explore_of_allowance (hm : Goal.Measured targets roots) {p : Probe} {x : Explore.Progress Ends}
    (hx : w.progress d p = .ok x) : ∃ y, w.explore p ⟨targets, roots, p.locals⟩ none x = .ok y ∧
      ∀ n, w.allowance ≤ n → w.explore p ⟨targets, roots, p.locals⟩ (some n) x = .ok y := by
  obtain ⟨x', hx', hfresh, hnext, -, hlt⟩ := w.exists_progress hs hr hm p
  cases hx.symm.trans hx'
  have hvisit : ∀ s e, ∃ r, w.visit ⟨targets, roots, p.locals⟩ s e = .ok r := by
    intro s e
    obtain ⟨e', enough, hv⟩ := w.exists_visit hr p.locals s e
    exact ⟨(e', enough), hv⟩
  obtain ⟨y, why, turns, hrun, -⟩ := hfresh.exists_run ((Explore.Engine.machine w.machine p).numbers w.limit _)
    (w.machine.length_step_le p) hvisit (hnext ▸ Nat.zero_lt_one : (Machine.enter p 0).id < x.nextId)
  exact ⟨y, bind_eq_ok.mpr ⟨(y, why), (hrun _ hlt.le).1, rfl⟩,
    fun n hn => bind_eq_ok.mpr ⟨(y, why), (hrun n hn).1, rfl⟩⟩

include hs hr in
/-- A draft with a probe is verified. Neither the answer nor the time depends on what was verified before. -/
theorem exists_verify_of_probe (hm : Goal.Measured targets roots) {complete : Bool}
    (hc : d.isComplete = .ok complete) {ps : List Param} {bs : List Stmt} {ls : List String} {rs : List Recipe}
    (hprobe : ∀ name, d.probe name = .ok ⟨name, ps, bs, ls, rs⟩) (hls : ls.length = roots.length)
    (hground : ∀ r ∈ rs, r.Grounded rs.length) (time : Option Nat) :
    ∃ r used, (∀ v, ∃ v', w.verify d time v = .ok (r, v') ∧ v'.clock = v.clock + used) ∧
      ∀ out, r = some out → Probe.Assembled rs.length out := by
  have hgoal : Goal.make d.targets d.roots ls = .ok ⟨targets, roots, ls⟩ := by
    rw [Goal.make, hs.targets_eq, hs.roots_eq, if_pos hls.symm]
  cases complete with
  | false => exact ⟨none, 0, fun v => ⟨v, w.verify_of_incomplete hc time v, rfl⟩, nofun⟩
  | true =>
    -- The name is all that the verifier gives to the probe, and nothing looks at it.
    cases hx : w.progress d ⟨"", ps, bs, ls, rs⟩ with
    | error e =>
      have hx' : ∀ name, w.progress d ⟨name, ps, bs, ls, rs⟩ = .error e := fun _ => hx
      refine ⟨none, 0, fun v => ⟨v, ?_, rfl⟩, nofun⟩
      rw [verify_of_probe w hc (hprobe _) hgoal, hx']
    | ok x =>
      obtain ⟨y, hy⟩ := w.exists_explore hs hr hm hx time
      obtain ⟨r, hr, hassembled⟩ := w.exists_models (p := ⟨"", ps, bs, ls, rs⟩) hground y.result
      have hx' : ∀ name, w.progress d ⟨name, ps, bs, ls, rs⟩ = .ok x := fun _ => hx
      refine ⟨r, y.tally.rounds, fun v => ?_, hassembled⟩
      rw [verify_of_probe w hc (hprobe _) hgoal, hx']
      exact ⟨_, bind_eq_ok.mpr ⟨y, hy, bind_eq_ok.mpr ⟨r, hr, rfl⟩⟩, rfl⟩

include hs hr in
/-- The verification of a draft gives the same answer, and takes the same time, whatever was verified before. -/
theorem exists_verify (ha : targets.Acyclic) (hm : Goal.Measured targets roots) (time : Option Nat) :
    ∃ r used, (∀ v, ∃ v', w.verify d time v = .ok (r, v') ∧ v'.clock = v.clock + used) ∧
      ∀ out, r = some out → Probe.Assembled roots.length out := by
  obtain ⟨complete, hc⟩ := hs.exists_isComplete ha hr
  obtain ⟨ps, bs, ls, rs, hprobe, hls, hrs, hground⟩ := hs.exists_probe ha hr
  rw [← hrs] at hground ⊢
  exact w.exists_verify_of_probe hs hr hm hc hprobe hls hground time

include hs hr in
/-- A deadline that leaves room for an exploration makes no difference. -/
theorem verify_of_allowance (hm : Goal.Measured targets roots) {n : Nat} (hn : w.allowance ≤ n) (v : Verifier) :
    w.verify d (some n) v = w.verify d none v := by
  have hsame : ∀ p g, Goal.make d.targets d.roots p.locals = .ok g → ∀ x, w.progress d p = .ok x →
      w.explore p g (some n) x = w.explore p g none x := by
    intro p g hg x hx
    rw [Goal.make, hs.targets_eq, hs.roots_eq] at hg
    split at hg
    · cases hg
      obtain ⟨y, hnone, hsome⟩ := w.exists_explore_of_allowance hs hr hm hx
      rw [hnone, hsome n hn]
    · cases hg
  unfold verify
  refine bind_congr_ok fun q _ => ?_
  cases q with
  | false => simp only [Bool.not_false, ↓reduceIte]
  | true =>
    refine bind_congr_ok fun p _ => bind_congr_ok fun g hg => ?_
    split
    · rfl
    next x hx => rw [hsame p g hg x hx]

include hs hr in
/-- No verification takes more time than that. -/
theorem clock_verify_le (hm : Goal.Measured targets roots) {time : Option Nat} {v v' : Verifier}
    {r : Option (Store × List Handle)} (h : w.verify d time v = .ok (r, v')) : v'.clock ≤ v.clock + w.allowance := by
  have hfits (n : Nat) (hn : n ≤ w.allowance) (h : w.verify d (some n) v = .ok (r, v')) :
      v'.clock ≤ v.clock + w.allowance := by
    obtain ⟨used, hused, htimed⟩ := verify_timed h
    have hle := htimed.le
    omega
  have hnone (h : w.verify d none v = .ok (r, v')) : v'.clock ≤ v.clock + w.allowance :=
    hfits w.allowance (Nat.le_refl _) ((w.verify_of_allowance hs hr hm (Nat.le_refl _) v).trans h)
  cases time with
  | none => exact hnone h
  | some n =>
    rcases Nat.le_total n w.allowance with hn | hn
    · exact hfits n hn h
    · exact hnone ((w.verify_of_allowance hs hr hm hn v).symm.trans h)

end Workshop

end Symex
