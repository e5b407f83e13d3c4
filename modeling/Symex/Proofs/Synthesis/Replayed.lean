import Symex.Proofs.Probe.Simulated
import Symex.Proofs.Resolve.Snapshot
import Symex.Proofs.Synthesis.Verified

/-!
# What is verified can be replayed

A verified draft has a witness: a state that has returned, with an assignment that satisfies all it assumes and the
goal. The run behind that state is simulated by the recipe of the draft, so the model that is assembled can be
replayed, and the goal is true of the object that the replay makes.
-/

namespace Symex

/-! ### Witnesses -/

namespace Workshop

variable (w : Workshop)

/-- A state that has returned, on a run of the probe, and an assignment for what it assumes together with the goal. -/
structure Witnessed (p : Probe) (g : Goal) (s : State) (atoms : List Atom) (t : Witness) : Prop where
  tracks : Machine.Tracks w.machine p s
  returned : s.status = .returned
  goal : g.atoms s = .ok (some atoms)
  state_eq : t.state = { s with path := atoms.foldl Path.addHard s.path }
  checked : Solver.check w.limit t.state.path false = some t.assignment

variable {w} {p : Probe} {g : Goal}

theorem visit_witness {s : State} {e e' : Ends} {enough : Bool} (hs : Machine.Tracks w.machine p s)
    (hv : w.visit g s e = .ok (e', enough)) :
    e'.witness = e.witness ∨ ∃ t atoms, e'.witness = some t ∧ w.Witnessed p g s atoms t := by
  unfold visit at hv
  split at hv
  next => cases hv; exact Or.inl rfl
  next hstatus =>
    obtain ⟨r, hr, hv⟩ := bind_eq_ok.mp hv
    cases r with
    | none => cases hv; exact Or.inl rfl
    | some atoms =>
      dsimp only at hv
      split at hv
      next m hm =>
        cases hv
        exact Or.inr ⟨_, atoms, rfl, hs, not_not.mp hstatus, hr, rfl, hm⟩
      next => cases hv; exact Or.inl rfl

variable {c : Catalog} {d : Draft} {targets : Store} {roots : List Handle} (hs : d.Sane c targets roots)
  (hr : Draft.Ready targets roots)

include hs hr

theorem explore_witness (hm : Goal.Measured targets roots) {time : Option Nat} {x y : Explore.Progress Ends}
    (hx : w.progress d p = .ok x) (hy : w.explore p ⟨targets, roots, p.locals⟩ time x = .ok y) {t : Witness}
    (ht : y.result.witness = some t) : ∃ s atoms, w.Witnessed p ⟨targets, roots, p.locals⟩ s atoms t := by
  have hpres : Explore.Setup.Preserves
      { limit := w.limit, step := w.machine.step p, visit := w.visit ⟨targets, roots, p.locals⟩ }
      (Machine.Tracks w.machine p)
      (fun e => ∀ t, e.witness = some t → ∃ s atoms, w.Witnessed p ⟨targets, roots, p.locals⟩ s atoms t) := by
    refine ⟨fun n htracks hterm => htracks.step hterm n, fun htracks => htracks.checked, ?_⟩
    intro s e htracks he
    obtain ⟨e', enough, hv⟩ := w.exists_visit hr p.locals s e
    refine ⟨e', enough, hv, ?_⟩
    intro t ht
    rcases visit_witness htracks hv with hsame | ⟨t', atoms, ht', hw⟩
    · exact he t (hsame ▸ ht)
    · rw [ht] at ht'
      cases ht'
      exact ⟨s, atoms, hw⟩
  obtain ⟨y', hy', hres⟩ :=
    w.explore_of_preserves hs hr hm hx hpres (Machine.tracks_enter _ _) (fun t ht => by cases ht) time
  rw [hy] at hy'
  cases hy'
  exact hres t ht

/-- What a verification finds is assembled for a witness. -/
theorem verify_some (hm : Goal.Measured targets roots) {time : Option Nat} {v v' : Verifier}
    {found : Store × List Handle}
    (hv : w.verify d time v = .ok (some found, v')) :
    ∃ name p s atoms t, d.isComplete = .ok true ∧ d.probe name = .ok p ∧ roots.length = p.locals.length ∧
      w.Witnessed p ⟨targets, roots, p.locals⟩ s atoms t ∧
      p.assemble (Resolve.resolve w.settings t.state t.assignment .initial t.state.inputs).store
        (Resolve.resolve w.settings t.state t.assignment .initial t.state.inputs).params = .ok found := by
  obtain ⟨q, hcomplete, hv⟩ := bind_eq_ok.mp hv
  cases q with
  | false => cases hv
  | true =>
    obtain ⟨p, hp, hv⟩ := bind_eq_ok.mp hv
    obtain ⟨g, hg, hv⟩ := bind_eq_ok.mp hv
    obtain ⟨hpaired, hgoal⟩ : roots.length = p.locals.length ∧ g = ⟨targets, roots, p.locals⟩ := by
      unfold Goal.make at hg
      rw [hs.targets_eq, hs.roots_eq] at hg
      split at hg
      next hlen =>
        cases hg
        exact ⟨hlen, rfl⟩
      · cases hg
    subst hgoal
    cases hx : w.progress d p with
    | error e =>
      rw [hx] at hv
      cases hv
    | ok x =>
      rw [hx] at hv
      obtain ⟨y, hy, hv⟩ := bind_eq_ok.mp hv
      obtain ⟨r, hmodels, hv⟩ := bind_eq_ok.mp hv
      cases hv
      unfold models at hmodels
      split at hmodels
      · cases hmodels
      next t ht =>
        obtain ⟨out, hout, hend⟩ := bind_eq_ok.mp hmodels
        cases hend
        obtain ⟨s, atoms, hw⟩ := explore_witness hs hr hm hx hy ht
        exact ⟨_, p, s, atoms, t, hcomplete, hp, hpaired, hw, hout⟩

end Workshop

/-! ### Assembling from primitive parameters -/

namespace Resolve

/-- A parameter has the value that it is assigned, as long as nothing stands in for anything. -/
theorem eval_param (settings : Settings) (s : State) (m : Assignment) {u : Work} (hu : u.standIns = {}) (name : String)
    (ty : Ty) : (Pass.start settings s m .initial).eval u (.param name ty) = m.eval (.param name ty) := by
  have hassign : (Pass.start settings s m .initial).heap.assignment = m := assignment_withReads _ _
  show (Pass.start settings s m .initial).heap.before u.standIns (.param name ty) = _
  rw [hu]
  show ((Pass.start settings s m .initial).heap.assignment.eval (.param name ty)).or none = _
  rw [hassign, Option.or_none]

theorem resolveValues_params (settings : Settings) (s : State) (m : Assignment) (params : List Param) {u : Work}
    (hu : u.standIns = {}) :
    List.Forall₂ (fun h v => ∃ t as,
        (resolveValues (Pass.start settings s m .initial) (params.map fun q => .prim (.param q.name q.ty)) u).2.store.get? h =
          some (.primitive t v as))
      (resolveValues (Pass.start settings s m .initial) (params.map fun q => .prim (.param q.name q.ty)) u).1
      (params.map fun q => (m.eval (.param q.name q.ty)).getD (.default q.ty)) := by
  induction params generalizing u with
  | nil => exact .nil
  | cons q params ih =>
    obtain ⟨as, hhead⟩ : ∃ as,
        (resolveValue (Pass.start settings s m .initial) (.prim (.param q.name q.ty)) u).2.store.get?
            (resolveValue (Pass.start settings s m .initial) (.prim (.param q.name q.ty)) u).1 =
          some (.primitive (.param q.name q.ty) ((m.eval (.param q.name q.ty)).getD (.default q.ty)) as) := by
      rw [← eval_param settings s m hu]
      exact ⟨_, Store.get?_alloc_self u.store _⟩
    -- After the first value nothing stands in for anything either, so the others are resolved in the same way.
    have hrest := ih (u := (resolveValue (Pass.start settings s m .initial) (.prim (.param q.name q.ty)) u).2) hu
    have hkept := (resolveValues_ok (Pass.start settings s m .initial) (params.map fun q => .prim (.param q.name q.ty))
      (resolveValue (Pass.start settings s m .initial) (.prim (.param q.name q.ty)) u).2).1.extended.get?_some hhead
    exact .cons ⟨_, as, hkept⟩ hrest

end Resolve

namespace Probe

/-- What is assembled by the only recipe of a probe. -/
theorem assemble_single {p : Probe} {r : Recipe} (hrecipes : p.recipes = [r]) {source : Store} {params : List Handle}
    {out : Store × List Handle} (hout : p.assemble source params = .ok out) :
    ∃ x c, r.model { source, params, roots := [⟨0⟩] } { store := .ofSlots [none] } = .ok (x, c) ∧ out.2 = [⟨0⟩] ∧
      out.1.get? ⟨0⟩ = some x ∧ ∀ {h : Handle} {y : Model}, c.store.get? h = some y → out.1.get? h = some y := by
  unfold assemble at hout
  rw [hrecipes] at hout
  obtain ⟨store, hfill, hend⟩ := bind_eq_ok.mp hout
  cases hend
  obtain ⟨⟨x, c⟩, hmodel, hfill⟩ := bind_eq_ok.mp hfill
  obtain ⟨filled, hset, hfill⟩ := bind_eq_ok.mp hfill
  cases hfill
  obtain ⟨hlt, hnone, rfl⟩ := Store.set_eq_ok.mp hset
  refine ⟨x, c, hmodel, rfl, ?_, ?_⟩
  · rw [Store.get?_fill, if_pos ⟨rfl, hlt⟩]
  · -- The slot of the root was empty, so no other model is lost when it is filled.
    intro h y hy
    rw [Store.get?_fill, if_neg]
    · exact hy
    · rintro ⟨rfl, -⟩
      rw [hnone] at hy
      cases hy

/-- If the only recipe of a probe makes something of the values of the parameters, then so does the model that is
assembled from primitives with these values. -/
theorem replay_assemble {p : Probe} {m : Machine} {values : List Value} {r : Recipe} {i : Item} {source : Store}
    {params : List Handle} (hrecipes : p.recipes = [r]) (hmakes : Makes m values r i)
    (hgives : Supplies.Gives { source, params, roots := [⟨0⟩] } values) {out : Store × List Handle}
    (hout : p.assemble source params = .ok out) : out.2 = [⟨0⟩] ∧ ∃ n, m.replay out.1 n ⟨0⟩ = some i := by
  obtain ⟨x, c, hmodel, hroots, hroot, hkept⟩ := assemble_single hrecipes hout
  obtain ⟨-, -, n, hn⟩ := hmakes.assembled hgives (Copying.faithful_of_no_images source _) hmodel
  refine ⟨hroots, n + 1, Option.bind_eq_some_iff.mpr ⟨x, hroot, ?_⟩⟩
  exact Machine.replayModel_mono (fun a j hj => Machine.replay_mono hkept (Nat.le_refl n) hj) hn

end Probe

/-! ### Drafts for objects -/

namespace Draft

theorem suggested_object {targets : Store} {h : Handle} {t : Term} {as : OrderedSet Atom}
    (hg : targets.get? h = some (.object t as)) (roots : List Handle) :
    suggested { targets, roots } h = .ok (.hole t.ty) := by
  unfold suggested
  rw [Store.get_eq_ok.mpr hg]
  rfl

section Objects

variable {targets : Store} {roots : List Handle}
  (ho : ∀ h ∈ roots, ∃ t as, targets.get? h = some (.object t as))

include ho

theorem ready_objects : Ready targets roots := by
  intro x hx
  obtain ⟨h, hh, hx⟩ := List.mem_flatMap.mp hx
  obtain ⟨t, as, hg⟩ := ho h hh
  rw [Store.leaves_of_not_container (by rw [hg]; exact fun _ _ => nofun), List.mem_singleton] at hx
  rw [hx]
  exact ⟨_, suggested_object hg roots⟩

theorem measured_objects : Goal.Measured targets roots := by
  intro h hh k b hd
  obtain ⟨t, as, hg⟩ := ho h hh
  rw [Store.derefModel, Store.deref, Store.derefWithin, Store.get_eq_ok.mpr hg] at hd
  have hobject := (Store.get_eq_ok.mpr hg).symm.trans hd
  cases hobject

end Objects

section Object

variable {c : Catalog} {d : Draft} {targets : Store} {h : Handle} {t : Term} {as : OrderedSet Atom}
  (hg : targets.get? h = some (.object t as))

include hg

theorem leaves_object : [h].flatMap targets.leaves = [h] := by
  rw [List.flatMap_singleton]
  exact Store.leaves_of_not_container (by rw [hg]; exact fun _ _ => nofun)

theorem ready_object : Ready targets [h] := ready_objects (List.forall_mem_singleton.mpr ⟨t, as, hg⟩)

theorem measured_object : Goal.Measured targets [h] := measured_objects (List.forall_mem_singleton.mpr ⟨t, as, hg⟩)

theorem Sane.fits_object {roots : List Handle} (hs : d.Sane c targets roots) :
    ∃ p, d.plan h = .ok p ∧ p.Fits c t.ty := by
  have hsug : d.suggested h = .ok (.hole t.ty) := by
    rw [hs.suggested_eq]
    exact suggested_object hg roots
  unfold plan
  split
  next p hp =>
    obtain ⟨ty, hty, -, hfits⟩ := hs.decided hp
    rw [hsug] at hty
    cases hty
    exact ⟨p, rfl, hfits⟩
  next => exact ⟨_, hsug, .hole _⟩

variable (hs : d.Sane c targets [h])

include hs

/-- A draft for one object has a probe, and is complete if the plan for the object has no open hole. -/
theorem Sane.lowered_object : ∃ plan x r w, d.plan h = .ok plan ∧ plan.Fits c t.ty ∧
    d.isComplete = .ok (plan.holes == 0) ∧ Plan.Lowered [plan] { locals := [none] } [x] [r] w ∧
    ∀ name, d.probe name = .ok ⟨name, w.params, w.body, [x], [r]⟩ := by
  obtain ⟨plan, hplan, hfits⟩ := hs.fits_object hg
  have hcomplete : d.isComplete = .ok (plan.holes == 0) := by
    rw [isComplete, hs.roots_eq, allM_of_forall (g := fun _ => plan.holes == 0)]
    · simp
    · intro x hx
      rw [List.mem_singleton.mp hx, definedWithin, hplan]
      exact Plan.isDefinedVia_of_flat _ _ hfits.isFlat
  have hplans : d.rootPlans = .ok [plan] := by
    rw [rootPlans, hs.roots_eq]
    exact mapM_eq_ok.mpr (.cons hplan .nil)
  obtain ⟨x, r, w, hlow, hlowered⟩ :
      ∃ x r w, plan.lowerVia (d.lowerWithin d.nesting) (some 0) { locals := [none] } = .ok ((x, r), w) ∧
        Plan.Lowered [plan] { locals := [none] } [x] [r] w := hfits.lowered (some 0) _
  have hlen : w.locals.length = 1 := by
    rw [hlowered.locals_eq]
    rfl
  exact ⟨plan, x, r, w, hplan, hfits, hcomplete, hlowered, probe_of_single hplans hlow hlen⟩

theorem Sane.cost_object {plan : Plan} (hplan : d.plan h = .ok plan) : d.cost = plan.count := by
  rw [cost, hs.roots_eq, hs.targets_eq, leaves_object hg, List.map_singleton, List.sum_singleton, planAt, hplan]

theorem Sane.exists_calls_object : ∃ n, d.calls = .ok n := by
  obtain ⟨plan, hplan, hfits⟩ := hs.fits_object hg
  have hcalls : d.callsWithin (d.nesting + 1) h = .ok plan.count := by
    rw [callsWithin, hplan]
    exact Plan.callsVia_of_flat _ _ hfits.isFlat
  rw [calls, hs.roots_eq]
  exact exists_bind ⟨_, mapM_eq_ok.mpr (.cons hcalls .nil)⟩ fun ns => ⟨_, rfl⟩

theorem Sane.exists_refine_object : ∃ ds, d.refine c = .ok ds := by
  obtain ⟨plan, hplan, hfits⟩ := hs.fits_object hg
  have hrefine : d.refineWithin c (d.nesting + 1) h = .ok ((plan.refine c).map (d.decide h)) := by
    have hflat := hfits.isFlat
    rw [refineWithin, hplan]
    cases plan with
    | container => cases hflat
    | _ => rfl
  rw [refine, hs.roots_eq]
  exact ⟨_, firstSome_of_forall (g := fun _ => (plan.refine c).map (d.decide h)) fun x hx => by
    rw [List.mem_singleton.mp hx, hrefine]⟩

end Object

end Draft

/-! ### Wishes -/

/-- An object that is wished for: it is known by a parameter of class type, and all that is said of it are comparisons
of its own fields with numbers. -/
structure Wish where
  name : String
  cls : ClassName
  atoms : OrderedSet Atom
  own : ∀ a ∈ atoms.toList, ∃ r f n, a = ⟨r, .field (.param name (.object cls)) f, .int n⟩

namespace Wish

def term (q : Wish) : Term := .param q.name (.object q.cls)

def model (q : Wish) : Model := .object q.term q.atoms

/-- A field is to stand in a relation to a number. -/
def Asks (q : Wish) (r : Relation) (f : Field) (n : Int) : Prop := ⟨r, .field q.term f, .int n⟩ ∈ q.atoms.toList

/-- All comparisons are true of the fields of an object. -/
def Granted (q : Wish) (fields : List (Field × Item)) : Prop :=
  ∀ r f n, q.Asks r f n → ∃ v, fields.lookup f = some (.value v) ∧ r.holds v (.int n) = true

/-- Replaying a model makes an object for which all comparisons are true. -/
def Replays (q : Wish) (m : Machine) (s : Store) (h : Handle) : Prop :=
  ∃ n fields, m.replay s n h = some (.object fields) ∧ q.Granted fields

end Wish

namespace Goal

theorem atoms_single {targets : Store} {h : Handle} {m : Model} (hg : targets.get? h = some m) {s : State} {x : String}
    {v : Sym} (hx : s.find? x = some v) {as : List Atom}
    (has : rootAtoms ⟨targets, [h], [x]⟩ (.ofList [(m.term, v.term)]) [v.term] v.term m = .ok as) :
    atoms ⟨targets, [h], [x]⟩ s = .ok (some (as.map s.memory.readAtom)) := by
  have hlocals : [x].mapM (fun x => (s.find? x).map Sym.term) = some [v.term] := by
    rw [List.mapM_cons, hx]
    rfl
  have hmodels : [h].mapM targets.get = .ok [m] := mapM_eq_ok.mpr (.cons (Store.get_eq_ok.mpr hg) .nil)
  have hparts : [(v.term, m)].mapM (fun e =>
      rootAtoms ⟨targets, [h], [x]⟩ (.ofList [(m.term, v.term)]) [v.term] e.1 e.2) = .ok [as] :=
    mapM_eq_ok.mpr (.cons has .nil)
  unfold atoms
  rw [hlocals]
  refine bind_eq_ok.mpr ⟨[m], hmodels, bind_eq_ok.mpr ⟨[as], hparts, ?_⟩⟩
  rw [List.flatten_singleton]
  rfl

theorem readAtom_field {mem : Memory} {name x : String} {ty y : Ty} {f : Field} {u : Term}
    (hu : mem.lastField (.localVar x y) f = some u) (r : Relation) (n : Int) :
    mem.readAtom (Atom.substitute (.ofList [(.param name ty, .localVar x y)]) ⟨r, .field (.param name ty) f, .int n⟩) =
      ⟨r, u, .int n⟩ := by
  have hfield : Term.substitute (.ofList [(.param name ty, .localVar x y)]) (.field (.param name ty) f) =
      .field (.localVar x y) f := by
    simp [Term.substitute, Table.find?_ofList_singleton]
  have hconst : Term.substitute (.ofList [(.param name ty, .localVar x y)]) (.int n) = .int n := by
    simp [Term.int, Term.substitute, Table.find?_ofList_singleton]
  have hread : mem.read (.field (.localVar x y) f) = u := by
    show (mem.lastField (.localVar x y) f).getD _ = u
    rw [hu]
    rfl
  rw [Atom.substitute, Atom.map, hfield, hconst, Memory.readAtom, Atom.map, hread]
  rfl

end Goal

/-! ### Verified drafts -/

theorem Path.mem_foldl_addHard {as : List Atom} {p : Path} {a : Atom} :
    a ∈ (as.foldl addHard p).hard ↔ a ∈ p.hard ∨ a ∈ as := by
  induction as generalizing p with
  | nil => simp
  | cons b as ih =>
    rw [List.foldl_cons, ih, addHard, mem_addTo, List.mem_cons, or_assoc]

namespace Workshop

variable {w : Workshop}

theorem Witnessed.solved {p : Probe} {g : Goal} {s : State} {atoms : List Atom} {t : Witness}
    (h : w.Witnessed p g s atoms t) :
    Solver.solve w.limit (atoms.foldl Path.addHard s.path).hard = some t.assignment := by
  have hchecked := h.checked
  rwa [Solver.check_hard, h.state_eq] at hchecked

theorem Witnessed.holds {p : Probe} {g : Goal} {s : State} {atoms : List Atom} {t : Witness}
    (h : w.Witnessed p g s atoms t) {a : Atom} (ha : a ∈ s.path.hard ∨ a ∈ atoms) :
    t.assignment.holds a = some true := by
  obtain ⟨v, sol⟩ := Solver.solve_some h.solved
  exact sol.holds (Path.mem_foldl_addHard.mpr ha)

def simulation (w : Workshop) (fields : Field → Prop) (p : Probe) (t : Witness) : Simulation :=
  { machine := w.machine
    fields
    params := p.params
    values := p.params.map fun q => (t.assignment.eval (.param q.name q.ty)).getD (.default q.ty)
    assignment := t.assignment }

theorem fair_simulation {fields : Field → Prop} (hm : w.machine.Disciplined fields) (p : Probe) (t : Witness) :
    (w.simulation fields p t).Fair := by
  refine ⟨hm, List.length_map _, ?_⟩
  intro i q v u hq hv hu
  have hvalue : (p.params.map fun q => (t.assignment.eval (.param q.name q.ty)).getD (.default q.ty))[i]? = some v := hv
  have hparam : p.params[i]? = some q := hq
  have heval : t.assignment.eval (.param q.name q.ty) = some u := hu
  rw [List.getElem?_map, hparam, Option.map_some, heval] at hvalue
  exact (Option.some.inj hvalue).symm

/-- The parameters of a probe are resolved to primitives with the values of the simulation. -/
theorem Witnessed.gives {p : Probe} {g : Goal} {s : State} {atoms : List Atom} {t : Witness}
    (h : w.Witnessed p g s atoms t) (hp : Lowering.Numbered p.params) (fields : Field → Prop) (roots : List Handle) :
    Supplies.Gives
      { source := (Resolve.resolve w.settings t.state t.assignment .initial t.state.inputs).store
        params := (Resolve.resolve w.settings t.state t.assignment .initial t.state.inputs).params, roots }
      (w.simulation fields p t).values := by
  have hinputs : t.state.inputs = p.params.map fun q => .prim (.param q.name q.ty) := by
    rw [h.state_eq, ← hp.inputs_eq]
    exact (h.tracks.runs h.returned).2
  rw [hinputs]
  exact Resolve.resolveValues_params w.settings t.state t.assignment p.params rfl

/-- The recipe of a draft that is verified for an object makes what is wished for. -/
structure Realizes (w : Workshop) (q : Wish) (plan : Plan) (found : Store × List Handle) (x : String) (r : Recipe)
    (u : Lowering) (source : Store) (params : List Handle) (values : List Value) (fields : List (Field × Item)) :
    Prop where
  lowered : Plan.Lowered [plan] { locals := [none] } [x] [r] u
  gives : Supplies.Gives { source, params, roots := [⟨0⟩] } values
  assembled : ∃ name, Probe.assemble ⟨name, u.params, u.body, [x], [r]⟩ source params = .ok found
  makes : Makes w.machine values r (.object fields)
  granted : q.Granted fields

section Wish

variable {c : Catalog} {d : Draft} {targets : Store} {h : Handle} {q : Wish} {fields : Field → Prop}
  (hm : w.machine.Disciplined fields) (hfields : ∀ r f n, q.Asks r f n → fields f)
  (hcat : ∀ m ∈ c.methods, m ∈ w.machine.catalog.methods) (hs : d.Sane c targets [h])
  (hg : targets.get? h = some q.model) {time : Option Nat} {v v' : Verifier} {found : Store × List Handle}
  (hv : w.verify d time v = .ok (some found, v'))

include hm hfields hcat hs hg hv

theorem verify_realizes : ∃ plan x r u source params values fs, d.plan h = .ok plan ∧ plan.Fits c q.term.ty ∧
    w.Realizes q plan found x r u source params values fs := by
  obtain ⟨name, p, s, atoms, t, hcomplete, hprobe, -, hw, hassemble⟩ :=
    verify_some hs (Draft.ready_object hg) (Draft.measured_object hg) hv
  obtain ⟨plan, x, r, u, hplan, hfits, hholes, hlow, hprobe'⟩ := hs.lowered_object hg
  rw [hprobe'] at hprobe
  cases hprobe
  have hz := fair_simulation hm ⟨name, u.params, u.body, [x], [r]⟩ t
  have hclosed : Plan.holesAll [plan] = 0 := by
    rw [hcomplete] at hholes
    simpa [Plan.holesAll] using hholes
  have hnumbered : Lowering.Numbered u.params := hlow.numbered hclosed fun i q hq => by cases hq
  have hrun := (hw.tracks.runs hw.returned).1
  have hfit : List.Forall₂ (Plan.Fits w.machine.catalog) [q.term.ty] [plan] := .cons (hfits.mono hcat) .nil
  obtain ⟨items, hsim⟩ := hlow.simulated hz hfit hclosed rfl List.prefix_rfl hrun
    (Simulation.bound_enter hnumbered rfl) fun a ha => hw.holds (Or.inl ha)
  obtain ⟨-, hstands, hkinds⟩ := hsim
  cases hstands with
  | @cons _ item _ items hstands hnil =>
    cases hnil
    obtain ⟨hkind, -⟩ := List.forall₂_cons.mp hkinds
    obtain ⟨sym, hfind, hshows, -⟩ := hstands.holds
    have hgoal := hw.goal
    rw [Goal.atoms_single hg hfind rfl] at hgoal
    cases hgoal
    cases item with
    | value v => exact absurd (hkind.mpr ⟨v, rfl⟩) Bool.false_ne_true
    | null =>
      have hnull : sym.term = .null := hshows
      have hne := hw.holds (Or.inr List.mem_cons_self)
      rw [hnull] at hne
      cases hne
    | object fs =>
      obtain ⟨⟨y, ty, hlocal⟩, hshown⟩ := hshows
      refine ⟨plan, x, r, u, _, _, _, fs, hplan, hfits, hlow, hw.gives hnumbered fields [⟨0⟩],
        ⟨name, hassemble⟩, hstands.makes, ?_⟩
      intro r f k hask
      obtain ⟨written, v, hlast, hlookup, hdenotes⟩ := hshown f (hfields r f k hask)
      refine ⟨v, hlookup, hz.holds hdenotes (hw.holds (Or.inr ?_))⟩
      refine List.mem_map.mpr ⟨_, List.mem_cons_of_mem _ (List.mem_map_of_mem hask), ?_⟩
      rw [hlocal] at hlast ⊢
      exact Goal.readAtom_field hlast r k

/-- The model that a verification finds for an object can be replayed, and makes what is wished for. -/
theorem verify_replays : ∃ k, found.2 = [k] ∧ q.Replays w.machine found.1 k := by
  obtain ⟨plan, x, r, u, source, params, values, fs, -, -, hreal⟩ := verify_realizes hm hfields hcat hs hg hv
  obtain ⟨name, hassemble⟩ := hreal.assembled
  obtain ⟨hroot, n, hreplay⟩ := Probe.replay_assemble rfl hreal.makes hreal.gives hassemble
  exact ⟨⟨0⟩, hroot, n, fs, hreplay, hreal.granted⟩

end Wish

end Workshop

end Symex
