import Symex.Goal.Basic
import Symex.Proofs.Machine.Bound
import Symex.Proofs.Plan.Held
import Symex.Proofs.Probe.Rooted

/-!
# Names in probes

A probe is lowered with names that are counted up: every parameter and every local is new when it is named, and a
statement reads only parameters and locals that have a value by then. This is so for any draft, in whatever order the
roots come. Each parameter stands for one hole, and so occurs once in the recipes.
-/

namespace Symex

mutual

/-- The parameters in a recipe. -/
def Recipe.params : Recipe → List Nat
  | .param i => [i]
  | .null _ _ => []
  | .root _ _ _ => []
  | .create _ _ args => Recipe.paramsAll args
  | .change _ _ r args => r.params ++ Recipe.paramsAll args
  | .container _ _ _ l es => l.params ++ Recipe.paramsEntries es

def Recipe.paramsAll : List Recipe → List Nat
  | [] => []
  | r :: rs => r.params ++ Recipe.paramsAll rs

def Recipe.paramsEntries : List (Recipe × Recipe) → List Nat
  | [] => []
  | (k, v) :: es => k.params ++ (v.params ++ Recipe.paramsEntries es)

end

theorem Recipe.paramsAll_eq_flatMap (rs : List Recipe) : Recipe.paramsAll rs = rs.flatMap Recipe.params := by
  induction rs with
  | nil => rfl
  | cons r rs ih => rw [Recipe.paramsAll, ih, List.flatMap_cons]

theorem Stmt.Ordered.mono {names names' : List String} {body : List Stmt} (h : Stmt.Ordered names body)
    (hn : names ⊆ names') : Stmt.Ordered names' body :=
  fun i s hs x hx => (h i s hs x hx).imp_left fun hx => hn hx

theorem Stmt.Ordered.concat {names : List String} {body : List Stmt} {s : Stmt} (h : Stmt.Ordered names body)
    (hs : ∀ x ∈ s.operands, x ∈ names ∨ x ∈ body.filterMap Stmt.dst?) : Stmt.Ordered names (body ++ [s]) := by
  intro i t ht x hx
  rcases Nat.lt_trichotomy i body.length with hi | rfl | hi
  · rw [List.getElem?_append_left hi] at ht
    rw [List.take_append_of_le_length hi.le]
    exact h i t ht x hx
  · rw [List.getElem?_concat_length] at ht
    cases ht
    rw [List.take_left]
    exact hs x hx
  · rw [List.getElem?_eq_none (by simp; omega)] at ht
    cases ht

namespace Lowering

/-- The name of a parameter, or of a local that has a value. -/
def Knows (w : Lowering) (x : String) : Prop := x ∈ w.params.map Param.name ∨ x ∈ w.body.filterMap Stmt.dst?

/-- Names are counted up, and each is known before it is read. -/
structure Scoped (w : Lowering) : Prop where
  params : w.params.map Param.name = (List.range w.params.length).map paramName
  dsts : w.body.filterMap Stmt.dst? = (List.range w.named).map localName
  ordered : Stmt.Ordered (w.params.map Param.name) w.body
  locals : ∀ {i : Nat} {x : String}, w.locals[i]? = some (some x) → w.Knows x

/-- From `w` to `w'`, the names `xs` have become known, and the parameters `is` have been added. -/
structure Yields (w : Lowering) (xs : List String) (is : List Nat) (w' : Lowering) : Prop where
  scope : w'.Scoped
  keeps : w.Keeps w'
  body : w.body <+: w'.body
  knows : ∀ x ∈ xs, w'.Knows x
  params : List.range w'.params.length = List.range w.params.length ++ is

variable {u v w : Lowering} {xs ys : List String} {is js : List Nat} {x : String} {s : Stmt}

theorem Knows.mono (h : u.Knows x) (hparams : u.params <+: v.params) (hbody : u.body <+: v.body) : v.Knows x :=
  h.imp (fun hx => (hparams.map _).subset hx) fun hx => (hbody.filterMap _).subset hx

theorem Yields.refl (h : w.Scoped) : w.Yields [] [] w :=
  ⟨h, .of_eq rfl List.prefix_rfl, List.prefix_rfl, nofun, (List.append_nil _).symm⟩

theorem Yields.trans (h : u.Yields xs is v) (k : v.Yields ys js w) : u.Yields (xs ++ ys) (is ++ js) w := by
  refine ⟨k.scope, h.keeps.trans k.keeps, h.body.trans k.body, ?_, ?_⟩
  · intro x hx
    rcases List.mem_append.mp hx with hx | hx
    · exact (h.knows x hx).mono k.keeps.params k.body
    · exact k.knows x hx
  · rw [k.params, h.params, List.append_assoc]

theorem Yields.weaken (h : u.Yields xs is v) (hs : ys ⊆ xs) (hj : is = js) : u.Yields ys js v :=
  ⟨h.scope, h.keeps, h.body, fun x hx => h.knows x (hs hx), hj ▸ h.params⟩

/-! ### Single steps -/

theorem Scoped.param (h : w.Scoped) (t : Ty) : w.Yields [(w.param t).1.1] [w.params.length] (w.param t).2 := by
  have hparams : w.params <+: (w.param t).2.params := List.prefix_append _ _
  have hlength : (w.param t).2.params.length = w.params.length + 1 := List.length_append
  have hnames : (w.param t).2.params.map Param.name = w.params.map Param.name ++ [paramName w.params.length] :=
    List.map_append
  refine ⟨⟨?_, h.dsts, h.ordered.mono (hparams.map _).subset, ?_⟩, .of_eq rfl hparams, List.prefix_rfl, ?_, ?_⟩
  · rw [hnames, hlength, h.params, List.range_succ, List.map_append]
    rfl
  · exact fun hx => (h.locals hx).mono hparams List.prefix_rfl
  · refine List.forall_mem_singleton.mpr (Or.inl ?_)
    rw [hnames]
    exact List.mem_append_right _ (List.mem_singleton_self _)
  · rw [hlength, List.range_succ]

/-- A statement that gives no value to a local. -/
theorem Scoped.emit (h : w.Scoped) (hs : s.dst? = none) (hops : ∀ x ∈ s.operands, w.Knows x) :
    w.Yields [] [] (w.emit s) := by
  have hbody : w.body <+: (w.emit s).body := List.prefix_append _ _
  have hdsts : (w.emit s).body.filterMap Stmt.dst? = w.body.filterMap Stmt.dst? := by
    rw [Lowering.emit, List.filterMap_append, List.filterMap_cons_none hs]
    exact List.append_nil _
  refine ⟨⟨h.params, hdsts.trans h.dsts, h.ordered.concat hops, ?_⟩, .of_eq rfl List.prefix_rfl, hbody, nofun,
    (List.append_nil _).symm⟩
  exact fun hx => (h.locals hx).mono List.prefix_rfl hbody

/-- A statement that gives a value to a new local. -/
theorem Scoped.assign (h : w.Scoped) (hs : s.dst? = some w.fresh.1) (hops : ∀ x ∈ s.operands, w.Knows x) :
    w.Yields [w.fresh.1] [] (w.fresh.2.emit s) := by
  have hbody : w.body <+: (w.fresh.2.emit s).body := List.prefix_append _ _
  have hdsts : (w.fresh.2.emit s).body.filterMap Stmt.dst? = w.body.filterMap Stmt.dst? ++ [w.fresh.1] := by
    rw [Lowering.emit, List.filterMap_append, List.filterMap_cons_some hs]
    rfl
  refine ⟨⟨h.params, ?_, h.ordered.concat hops, ?_⟩, .of_eq rfl List.prefix_rfl, hbody, ?_, (List.append_nil _).symm⟩
  · rw [hdsts, h.dsts]
    exact (List.map_append.symm.trans (congrArg _ (List.range_succ).symm))
  · exact fun hx => (h.locals hx).mono List.prefix_rfl hbody
  · refine List.forall_mem_singleton.mpr (Or.inr ?_)
    rw [hdsts]
    exact List.mem_append_right _ (List.mem_singleton_self _)

theorem Scoped.setLocal (h : w.Scoped) (hx : w.Knows x) (i : Nat) :
    w.Yields [] [] { w with locals := w.locals.set i (some x) } := by
  refine ⟨⟨h.params, h.dsts, h.ordered, ?_⟩, .set rfl rfl, List.prefix_rfl, nofun, (List.append_nil _).symm⟩
  intro j y hy
  rw [List.getElem?_set] at hy
  split at hy
  · split at hy
    · cases hy
      exact hx
    · cases hy
  · exact h.locals hy

theorem Scoped.null (h : w.Scoped) (t : Ty) : w.Yields [(w.null t).1.1] [] (w.null t).2 :=
  h.assign (s := .assignNull w.fresh.1 t) rfl (fun x hx => by cases hx)

theorem Scoped.create (h : w.Scoped) (m : Method) (hys : ∀ y ∈ ys, w.Knows y) (ss : List Recipe) :
    w.Yields [(w.create m ys ss).1.1] [] (w.create m ys ss).2 := by
  refine h.assign ?_ ?_
  · split <;> rfl
  · split <;> exact hys

theorem Scoped.allocate (h : w.Scoped) (self : Option Nat) (k : ContainerKind) (t : Ty) (hx : w.Knows x) :
    w.Yields [(w.allocate self k t x).1] [] (w.allocate self k t x).2 := by
  have hmade := h.assign (s := .allocate w.fresh.1 k t x) rfl (List.forall_mem_singleton.mpr hx)
  cases self with
  | none => exact hmade
  | some i => exact hmade.trans (hmade.scope.setLocal (hmade.knows _ (List.mem_singleton_self _)) i)

/-! ### Plans -/

/-- A step that yields its name and the parameters of its recipe, if it succeeds. -/
def Scopes (make : Making) : Prop :=
  ∀ ⦃w w' : Lowering⦄ ⦃x : String⦄ ⦃r : Recipe⦄, w.Scoped → make w = .ok ((x, r), w') → w.Yields [x] r.params w'

theorem Scoped.entries {inside : Handle → Except Fault Making} (hin : ∀ {h make}, inside h = .ok make → Scopes make)
    {es : List (Handle × Handle)} {rs : List (Recipe × Recipe)} (hw : w.Scoped) (hx : w.Knows x)
    (h : w.entries inside x es = .ok (rs, v)) : w.Yields [] (Recipe.paramsEntries rs) v := by
  induction es generalizing w rs with
  | nil =>
    cases h
    exact .refl hw
  | cons e es ih =>
    obtain ⟨makeKey, makeValue, key, kr, u, value, vr, z, ss, hk, hv, hu, hz, hrest, rfl⟩ := entries_cons_cases h
    have hkey := hin hk hw hu
    have hboth := hkey.trans (hin hv hkey.scope hz)
    have hcontainer := hx.mono hboth.keeps.params hboth.body
    have hstore := hboth.scope.emit (s := .store x key value) rfl (List.forall_mem_cons.mpr ⟨hcontainer, hboth.knows⟩)
    have hend := (hboth.trans hstore).trans
      (ih hstore.scope (hcontainer.mono hstore.keeps.params hstore.body) hrest)
    exact hend.weaken (List.nil_subset _) (by simp [Recipe.paramsEntries])

end Lowering

namespace Plan

open Lowering (Scopes)

variable {inside : Handle → Except Fault Lowering.Making}

mutual

theorem scopes_lowerVia (hin : ∀ {h make}, inside h = .ok make → Scopes make) :
    ∀ (p : Plan) (self : Option Nat), Scopes (p.lowerVia inside self)
  | null t, self => by
    intro w w' x r hw h
    cases h
    exact hw.null t
  | hole t, self => by
    intro w w' x r hw h
    cases h
    exact hw.param t
  | root t i, self => by
    intro w w' x r hw h
    rw [lowerVia, lowerOr, Lowering.root] at h
    split at h
    · cases h
    · cases h
      exact hw.null t
    next src hsrc =>
      cases h
      exact hw.assign (s := .copy w.fresh.1 src) rfl (List.forall_mem_singleton.mpr (hw.locals hsrc))
  | call m ps, self => by
    intro w w' x r hw h
    rcases lowerVia_call_cases h with ⟨-, -, hnull⟩ | ⟨s, ys, ss, u, -, hops, rfl, rfl⟩ | ⟨ys, ss, u, -, hops, hmade⟩
    · cases hnull
      exact hw.null _
    · have hall := yields_lowerAllVia hin ps hw hops
      have hinvoke := hall.trans (hall.scope.emit (s := .invoke x m ys) rfl hall.knows)
      exact hinvoke.weaken (by simp) (List.append_nil _)
    · have hall := yields_lowerAllVia hin ps hw hops
      have hcreate := hall.trans (hall.scope.create m hall.knows ss)
      cases hmade
      exact hcreate.weaken (List.subset_append_right _ _) (List.append_nil _)
  | container k t n es, self => by
    intro w w' x r hw h
    obtain ⟨make, length, lr, u, rs, hmake, hu, rfl, hentries, rfl⟩ := lowerVia_container_cases h
    have hlength := hin hmake hw hu
    have hmade := hlength.scope.allocate self k t (hlength.knows _ (List.mem_singleton_self _))
    have hend := (hlength.trans hmade).trans
      (hmade.scope.entries hin (hmade.knows _ (List.mem_singleton_self _)) hentries)
    exact hend.weaken (by simp) (by simp [Recipe.params])

theorem yields_lowerAllVia (hin : ∀ {h make}, inside h = .ok make → Scopes make) :
    ∀ (ps : List Plan) {w w' : Lowering} {xs : List String} {rs : List Recipe}, w.Scoped →
      lowerAllVia inside ps w = .ok ((xs, rs), w') → w.Yields xs (Recipe.paramsAll rs) w'
  | [], w, w', xs, rs, hw, h => by
    cases h
    exact .refl hw
  | p :: ps, w, w', xs, rs, hw, h => by
    obtain ⟨x, r, u, ys, ss, hp, hrest, rfl, rfl⟩ := lowerAllVia_cons_cases h
    have hfirst := scopes_lowerVia hin p none hw hp
    exact hfirst.trans (yields_lowerAllVia hin ps hfirst.scope hrest)

end

end Plan

/-! ### Probes -/

/-- A probe for `n` roots whose names are in order: parameters are numbered and stand in the recipes once each, operands
are parameters or have a value by then, no name gets a value twice, and each root has a recipe and a name that has a
value. -/
structure Probe.Scoped (p : Probe) (n : Nat) : Prop where
  params : ∀ (i : Nat) (q : Param), p.params[i]? = some q → q.name = "p" ++ toString i
  once : (p.recipes.flatMap Recipe.params).Perm (List.range p.params.length)
  ordered : Stmt.Ordered (p.params.map Param.name) p.body
  dsts : (p.body.filterMap Stmt.dst?).Nodup
  apart : ∀ x ∈ p.body.filterMap Stmt.dst?, x ∉ p.params.map Param.name
  locals : ∀ x ∈ p.locals, x ∈ p.params.map Param.name ∨ x ∈ p.body.filterMap Stmt.dst?
  locals_length : p.locals.length = n
  recipes_length : p.recipes.length = n

namespace Lowering.Scoped

variable {w : Lowering} (h : w.Scoped)

include h

theorem name_eq {i : Nat} {q : Param} (hq : w.params[i]? = some q) : q.name = paramName i := by
  have hname := congrArg (·[i]?) h.params
  obtain ⟨hi, rfl⟩ := List.getElem?_eq_some_iff.mp hq
  simpa [hi] using hname

theorem nodup_dsts : (w.body.filterMap Stmt.dst?).Nodup := by
  rw [h.dsts]
  exact List.nodup_range.map fun i j hij => localName_inj hij

theorem not_mem_params {x : String} (hx : x ∈ w.body.filterMap Stmt.dst?) : x ∉ w.params.map Param.name := by
  rw [h.dsts] at hx
  rw [h.params]
  obtain ⟨k, -, rfl⟩ := List.mem_map.mp hx
  intro hmem
  obtain ⟨i, -, hi⟩ := List.mem_map.mp hmem
  exact paramName_ne_localName i k hi

end Lowering.Scoped

namespace Draft

variable {d : Draft}

theorem scopes_lowerWithin {n : Nat} {h : Handle} {make : Lowering.Making} (hm : d.lowerWithin n h = .ok make) :
    Lowering.Scopes make := by
  induction n generalizing h make with
  | zero => cases hm
  | succ n ih =>
    obtain ⟨_, p, heq, -, rfl⟩ := lowerWithin_eq_ok hm
    cases heq
    exact Plan.scopes_lowerVia ih p none

/-- Each root that is made has a recipe and a local then. -/
theorem yields_lowerRoots {ps : List (Nat × Plan)} {w w' : Lowering} {rs : Table Nat Recipe} (hw : w.Scoped)
    (hnodup : (ps.map Prod.fst).Nodup) (hlt : ∀ e ∈ ps, e.1 < w.locals.length) (h : d.lowerRoots ps w = .ok (rs, w')) :
    ∃ recipes, ps.map (fun e => rs.find? e.1) = recipes.map some ∧ w.Yields [] (Recipe.paramsAll recipes) w' ∧
      ∀ e ∈ ps, ∃ x, w'.locals[e.1]? = some (some x) := by
  induction ps generalizing w rs with
  | nil =>
    cases h
    exact ⟨[], rfl, .refl hw, nofun⟩
  | cons e ps ih =>
    obtain ⟨x, r, u, ss, hu, hrest, rfl⟩ := lowerRoots_cons_cases h
    rw [List.map_cons, List.nodup_cons] at hnodup
    have hfirst := Plan.scopes_lowerVia scopes_lowerWithin e.2 (some e.1) hw hu
    have hset := hfirst.trans (hfirst.scope.setLocal (hfirst.knows x (List.mem_singleton_self x)) e.1)
    obtain ⟨recipes, hfound, hyields, hlocals⟩ := ih hset.scope hnodup.2
      (fun f hf => hset.keeps.length_eq ▸ hlt f (List.mem_cons_of_mem _ hf)) hrest
    refine ⟨r :: recipes, ?_, ?_, ?_⟩
    · rw [List.map_cons, List.map_cons, Table.find?_insert_self, ← hfound]
      refine congrArg _ (List.map_congr_left fun f hf => ?_)
      rw [Table.find?_insert, if_neg]
      exact fun he => hnodup.1 (he ▸ List.mem_map_of_mem hf)
    · exact (hset.trans hyields).weaken (List.nil_subset _) (by simp [Recipe.paramsAll])
    · refine List.forall_mem_cons.mpr ⟨?_, hlocals⟩
      have hlen : e.1 < u.locals.length := hfirst.keeps.length_eq ▸ hlt e List.mem_cons_self
      exact hyields.keeps.isSome (List.getElem?_set_self hlen)

/-- The names in the probe of a draft are in order. -/
theorem scoped_probe {name : String} {p : Probe} (h : d.probe name = .ok p) : p.Scoped d.roots.length := by
  obtain ⟨plans, rs, w, hplans, hlow, rfl⟩ := probe_eq_ok h
  have hcount : d.roots.length = plans.length := (mapM_eq_ok.mp hplans).length_eq
  have hempty : Lowering.Scoped { locals := plans.map fun _ => none } := by
    refine ⟨rfl, rfl, nofun, fun hx => ?_⟩
    rw [List.getElem?_map] at hx
    obtain ⟨_, -, hx⟩ := Option.map_eq_some_iff.mp hx
    cases hx
  have hlt : ∀ e ∈ order plans, e.1 < (plans.map fun _ => (none : Option String)).length := by
    intro e he
    rw [List.length_map]
    exact (List.getElem?_eq_some_iff.mp (mem_order.mp he)).1
  obtain ⟨recipes, hfound, hyields, hlocals⟩ := yields_lowerRoots hempty (nodup_order plans) hlt hlow
  have hscope := hyields.scope
  have hsize : w.locals.length = plans.length := hyields.keeps.length_eq.trans (List.length_map _)
  have hrecipes : ((order plans).map Prod.fst).filterMap rs.find? = recipes := by
    calc ((order plans).map Prod.fst).filterMap rs.find?
        = ((order plans).map fun e => rs.find? e.1).filterMap id := by
          rw [List.filterMap_map, List.filterMap_map]
          rfl
      _ = recipes := by
          rw [hfound, List.filterMap_map]
          exact List.filterMap_some
  have hperm : ((List.range plans.length).filterMap rs.find?).Perm recipes :=
    hrecipes ▸ ((map_fst_order_perm plans).filterMap rs.find?).symm
  refine ⟨?_, ?_, hscope.ordered, hscope.nodup_dsts, fun x => hscope.not_mem_params, ?_, ?_, ?_⟩
  · exact fun i q hq => hscope.name_eq hq
  · refine (hperm.flatMap_right _).trans ?_
    rw [← Recipe.paramsAll_eq_flatMap, hyields.params]
    exact List.Perm.refl _
  · intro x hx
    obtain ⟨o, ho, rfl⟩ := List.mem_filterMap.mp hx
    obtain ⟨i, hi⟩ := List.getElem?_of_mem ho
    exact hscope.locals hi
  · refine (length_filterMap_of_isSome ?_).trans (hsize.trans hcount.symm)
    intro o ho
    obtain ⟨i, hi, rfl⟩ := List.mem_iff_getElem.mp ho
    obtain ⟨x, hx⟩ := hlocals (i, plans[i]) (mem_order.mpr (List.getElem?_eq_getElem (hsize ▸ hi)))
    rw [List.getElem?_eq_getElem hi] at hx
    rw [Option.some.inj hx]
    rfl
  · have hlength := congrArg List.length hfound
    rw [List.length_map, List.length_map] at hlength
    rw [hcount, hperm.length_eq, ← hlength, (order_perm plans).length_eq, List.length_mapIdx]

/-- A draft without cycles that refers to its roots only is lowered, if all that is needed has a plan. The names in the
probe are in order, so that a goal can be made for it, and a machine that runs it has values for all operands. -/
theorem probe_scoped (d : Draft) (name : String) :
    (d.Acyclic → d.Referring → d.Planned → ∃ p, d.probe name = .ok p) ∧
    ∀ p, d.probe name = .ok p → p.Scoped d.roots.length ∧ (∃ g, Goal.make d.targets d.roots p.locals = .ok g) ∧
      ∀ m s, Machine.Visits m p s → s.isTerminal = false → ∀ stmt, p.body[s.location]? = some stmt →
        ∀ x ∈ stmt.operands, (s.find? x).isSome := by
  refine ⟨fun ha hr hp => ha.exists_probe hr hp name, fun p hp => ?_⟩
  have hscoped := scoped_probe hp
  refine ⟨hscoped, ⟨_, if_pos hscoped.locals_length.symm⟩, ?_⟩
  intro m s hs hrunning stmt hstmt
  exact hs.bound hscoped.ordered hrunning hstmt

/-- The crate comes before the box that is in it. Its length is the first operand that is read. -/
theorem probe_scoped_crate :
    let d : Draft := decide { targets := crate, roots := [⟨1⟩, ⟨0⟩] } ⟨0⟩
      (.call (.constructor "Box" [.int]) [.hole .int])
    d.Acyclic ∧ d.Referring ∧ d.Planned ∧
      ∃ p, d.probe "crate" = .ok p ∧ p.body[0]? = some (.allocate "r0" .list (.object "List") "p0") ∧ p.Scoped 2 ∧
        ((Machine.enter p 0).find? "p0").isSome := by
  intro d
  have hreach : Reaches boxes { targets := crate, roots := [⟨1⟩, ⟨0⟩] } d :=
    .step .refl rfl (List.mem_of_getElem? (i := 1) rfl)
  have hs := (sane_start boxes crate [⟨1⟩, ⟨0⟩]).of_reaches hreach
  have hlegible := (ready_iff_legible acyclic_crate).mp (hs.ready_of_isComplete acyclic_crate rfl)
  have ha := hs.acyclic acyclic_crate
  have hp := hs.planned hlegible
  obtain ⟨hexists, hall⟩ := probe_scoped d "crate"
  obtain ⟨p, hprobe⟩ := hexists ha hs.referring hp
  obtain ⟨hscoped, -, hbound⟩ := hall p hprobe
  have ⟨hfirst, hrunning⟩ : p.body[0]? = some (.allocate "r0" .list (.object "List") "p0") ∧
      (Machine.enter p 0).isTerminal = false := by
    cases hprobe
    exact ⟨rfl, rfl⟩
  exact ⟨ha, hs.referring, hp, p, hprobe, hfirst, hscoped,
    hbound {} (Machine.enter p 0) (.enter 0) hrunning _ hfirst "p0" (List.mem_singleton_self _)⟩

end Draft

end Symex
