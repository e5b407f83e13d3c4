import Mathlib.Data.List.Zip
import Symex.Proofs.Goal.Meaning
import Symex.Proofs.Resolve.Current
import Symex.Proofs.Synthesis.Independent
import Symex.Proofs.Synthesis.Replayed

/-!
# Objects that are made separately

That an object is new is not assumed where it is made; all that is assumed is that it is not null. So two objects that
are made by calls of their own are known to be different only as far as what is said of them shows it. The calls write
to no fields but those of their methods, and what is read from elsewhere is read from one heap before and after them.
Main statement: if models are found for a cluster of objects, and what is said of them cannot be true with two of them
the same, then nothing that is said equates the two.
-/

namespace Symex

/-! ### What a run writes -/

namespace Machine

/-- Some method writes to the field. -/
def Writes (m : Machine) (f : Field) : Prop := ∃ e ∈ m.methods, ∃ x ∈ e.2, x.field? = some f

instance (m : Machine) (f : Field) : Decidable (m.Writes f) :=
  inferInstanceAs (Decidable (∃ e ∈ m.methods, ∃ x ∈ e.2, x.field? = some f))

/-- All writes are to fields that methods write to. -/
def Confined (m : Machine) (mem : Memory) : Prop := ∀ w ∈ mem.writes, ∃ b f v, w = .field b f v ∧ m.Writes f

namespace Confined

variable {m : Machine} {mem : Memory}

theorem write (h : m.Confined mem) {f : Field} (hf : m.Writes f) (b v : Term) :
    m.Confined (mem.write (.field b f v)) := by
  intro w hw
  rcases List.mem_append.mp hw with hw | hw
  · exact h w hw
  · exact ⟨b, f, v, List.mem_singleton.mp hw, hf⟩

theorem lastField_eq_none (h : m.Confined mem) {f : Field} (hf : ¬ m.Writes f) (b : Term) :
    mem.lastField b f = none := by
  refine List.findSome?_eq_none_iff.mpr ?_
  intro w hw
  obtain ⟨c, g, v, rfl, hg⟩ := h w (List.mem_reverse.mp hw)
  exact if_neg fun he : c = b ∧ g = f => hf (he.2 ▸ hg)

theorem lastElement_eq_none (h : m.Confined mem) (a i : Term) : mem.lastElement a i = none := by
  refine List.findSome?_eq_none_iff.mpr ?_
  intro w hw
  obtain ⟨c, g, v, rfl, -⟩ := h w (List.mem_reverse.mp hw)
  rfl

end Confined

end Machine

/-- Whether the statement stores an entry of a container. -/
def Stmt.isStore : Stmt → Bool
  | store .. => true
  | _ => false

section Run

variable {m : Machine} {x y : Exec}

theorem Effect.confined_apply {this : Term} {args : List Term} {e : Effect} (he : ∀ f, e.field? = some f → m.Writes f)
    (hx : e.apply this args x = .ok y) (h : m.Confined x.state.memory) : m.Confined y.state.memory := by
  cases e with
  | copyArg f i =>
    obtain ⟨v, -, hx⟩ := Exec.need_eq_ok.mp hx
    cases hx
    exact h.write (he f rfl) this v
  | setConst f n =>
    cases hx
    exact h.write (he f rfl) this _
  | require i r n =>
    obtain ⟨v, -, hx⟩ := Exec.need_eq_ok.mp hx
    cases hx
    exact h

theorem Effect.confined_applyAll {this : Term} {args : List Term} {es : List Effect}
    (hes : ∀ e ∈ es, ∀ f, e.field? = some f → m.Writes f)
    (hx : es.foldlM (fun x e => e.apply this args x) x = .ok y) (h : m.Confined x.state.memory) :
    m.Confined y.state.memory := by
  induction es generalizing x with
  | nil =>
    cases hx
    exact h
  | cons e es ih =>
    rw [List.foldlM_cons] at hx
    obtain ⟨z, hz, hx⟩ := bind_eq_ok.mp hx
    have hconfined := confined_apply (hes e List.mem_cons_self) hz h
    exact ih (fun e he => hes e (List.mem_cons_of_mem _ he)) hx hconfined

theorem Exec.memory_of_allocate {dst : String} {t : Ty} {wrapper : Option Wrapper}
    (h : x.allocate dst t wrapper = .ok y) : y.state.memory = x.state.memory :=
  (Simulation.memory_of_bind h : y.state.memory = (x.assume (.ne (.localVar dst t) .null)).state.memory)

namespace Machine

theorem confined_call {method : Method} {this : Term} {args : List Term} (hx : m.call method this args x = .ok y)
    (h : m.Confined x.state.memory) : m.Confined y.state.memory := by
  obtain ⟨es, hes, hx⟩ := Exec.need_eq_ok.mp hx
  obtain ⟨e, he, rfl⟩ := Option.map_eq_some_iff.mp hes
  have hmem := List.mem_of_find?_eq_some he
  exact Effect.confined_applyAll (fun a ha f hf => ⟨e, hmem, a, ha, hf⟩) hx h

theorem confined_create {dst : String} {method : Method} {args : List String} (hx : m.create dst method args x = .ok y)
    (h : m.Confined x.state.memory) : m.Confined y.state.memory := by
  obtain ⟨ts, -, hx⟩ := Exec.need_eq_ok.mp hx
  obtain ⟨z, hz, hx⟩ := bind_eq_ok.mp hx
  refine confined_call hx ?_
  rw [Exec.memory_of_allocate hz]
  exact h

theorem confined_invoke {receiver : String} {method : Method} {args : List String}
    (hx : m.invoke receiver method args x = .ok y) (h : m.Confined x.state.memory) : m.Confined y.state.memory := by
  obtain ⟨this, -, hx⟩ := Exec.need_eq_ok.mp hx
  split at hx
  · cases hx
  · obtain ⟨ts, -, hx⟩ := Exec.need_eq_ok.mp hx
    refine confined_call hx ?_
    split
    · exact h
    · exact h

theorem confined_exec {stmt : Stmt} (hstore : stmt.isStore = false) (hx : m.exec x stmt = .ok y)
    (h : m.Confined x.state.memory) : m.Confined y.state.memory := by
  cases stmt with
  | assignNull dst t =>
    have hmem := Simulation.memory_of_bind hx
    exact hmem ▸ h
  | copy dst src =>
    obtain ⟨v, -, hx⟩ := Exec.need_eq_ok.mp hx
    have hmem := Simulation.memory_of_bind hx
    exact hmem ▸ h
  | construct dst method args => exact confined_create hx h
  | produce dst method args => exact confined_create hx h
  | invoke receiver method args => exact confined_invoke hx h
  | allocate dst kind t length =>
    obtain ⟨n, -, hx⟩ := Exec.need_eq_ok.mp hx
    obtain ⟨z, hz, hend⟩ := bind_eq_ok.mp hx
    cases hend
    have hmem := Exec.memory_of_allocate hz
    exact hmem ▸ h
  | store c key value => cases hstore

theorem Runs.confined {s t : State} {ls : List Stmt} (hr : Runs m s ls t) (hls : ∀ l ∈ ls, l.isStore = false)
    (h : m.Confined s.memory) : m.Confined t.memory := by
  induction hr with
  | nil hsame => exact hsame.memory ▸ h
  | cons hsame hx _ ih =>
    refine ih (fun l hl => hls l (List.mem_cons_of_mem _ hl)) ?_
    exact confined_exec (hls _ List.mem_cons_self) hx (hsame.memory ▸ h)

end Machine

end Run

/-! ### Drafts for objects store nothing -/

theorem Plan.Lowered.mem_body {ps : List Plan} {w w' : Lowering} {xs : List String} {rs : List Recipe}
    (h : Lowered ps w xs rs w') {s : Stmt} (hs : s ∈ w'.body) : s ∈ w.body ∨ s.isStore = false := by
  have hemit : ∀ {u : Lowering} {l : Stmt}, l.isStore = false → s ∈ (u.emit l).body →
      s ∈ u.body ∨ s.isStore = false := by
    intro u l hl hs
    rcases List.mem_append.mp hs with hs | hs
    · exact Or.inl hs
    · rw [List.mem_singleton.mp hs]
      exact Or.inr hl
  induction h with
  | nil => exact Or.inl hs
  | hole _ ih => exact ih hs
  | null _ ih =>
    rcases ih hs with hs | hs
    · exact hemit rfl hs
    · exact Or.inr hs
  | @create m _ _ _ _ _ _ _ _ _ _ _ _ iha ih =>
    rcases ih hs with hs | hs
    · refine (hemit ?_ hs).elim iha Or.inr
      split
      · rfl
      · rfl
    · exact Or.inr hs
  | change _ _ _ iha ih =>
    rcases ih hs with hs | hs
    · exact (hemit rfl hs).elim iha Or.inr
    · exact Or.inr hs

namespace Draft

variable {c : Catalog} {d : Draft}

theorem mem_body_lowerRoots {ps : List (Nat × Plan)} (hps : ∀ e ∈ ps, ∃ t, e.2.Fits c t) {w w' : Lowering}
    {rs : Table Nat Recipe} (h : d.lowerRoots ps w = .ok (rs, w')) {s : Stmt} (hs : s ∈ w'.body) :
    s ∈ w.body ∨ s.isStore = false := by
  induction ps generalizing w rs with
  | nil =>
    cases h
    exact Or.inl hs
  | cons e ps ih =>
    obtain ⟨t, hfits⟩ := hps e List.mem_cons_self
    obtain ⟨x, r, u, hu, hlowered⟩ : ∃ x r u, e.2.lowerVia (d.lowerWithin d.nesting) (some e.1) w = .ok ((x, r), u) ∧
        Plan.Lowered [e.2] w [x] [r] u := hfits.lowered (some e.1) w
    obtain ⟨made, hmade, h⟩ := bind_eq_ok.mp h
    cases hu.symm.trans hmade
    obtain ⟨rest, hrest, hend⟩ := bind_eq_ok.mp h
    cases hend
    exact (ih (fun f hf => hps f (List.mem_cons_of_mem _ hf)) hrest).elim hlowered.mem_body Or.inr

theorem Sane.not_isStore {targets : Store} {roots : List Handle} (hs : Sane c targets roots d)
    (ho : ∀ h ∈ roots, ∃ t as, targets.get? h = some (.object t as)) {name : String} {p : Probe}
    (hp : d.probe name = .ok p) : ∀ l ∈ p.body, l.isStore = false := by
  obtain ⟨plans, rs, w, hplans, hlow, rfl⟩ := probe_eq_ok hp
  rw [rootPlans, hs.roots_eq] at hplans
  have hfits : ∀ e ∈ order plans, ∃ t, e.2.Fits c t := by
    intro e he
    obtain ⟨h, hh, hplan⟩ := mem_of_mapM hplans (List.mem_of_getElem? (mem_order.mp he))
    obtain ⟨t, as, hg⟩ := ho h hh
    obtain ⟨q, hq, hfit⟩ := hs.fits_object hg
    cases hplan.symm.trans hq
    exact ⟨t.ty, hfit⟩
  intro l hl
  exact (mem_body_lowerRoots hfits hlow hl).resolve_left List.not_mem_nil

end Draft

/-! ### Explanations -/

/-- Values of terms that are read from a heap as far as no method writes there. The values of free terms are not
read. -/
structure Machine.Reads (m : Machine) (free : Term → Prop) (value : Term → Value) (heap : Spot → Value) : Prop where
  const : ∀ v, ¬ free (.const v) → value (.const v) = v
  field : ∀ b f, ¬ free (.field b f) → ¬ m.Writes f → value (.field b f) = heap (.field (value b) f)
  element : ∀ a i e, ¬ free (.element a i e) → value (.element a i e) = heap (.element (value a) (value i))
  length : ∀ a, ¬ free (.length a) → value (.length a) = heap (.length (value a))

/-- What is read after a run is read from the heap before it. -/
theorem Machine.Confined.reads {m : Machine} {mem : Memory} (h : m.Confined mem) (I : Interpretation)
    {names : Term.Renaming} {free : Term → Prop} (hfree : ∀ t, ¬ free t → names.find? t = none) :
    m.Reads free (fun t => I.eval (mem.read (t.substitute names))) I.heap := by
  refine ⟨?_, ?_, ?_, ?_⟩
  · intro v hv
    show I.eval (mem.read ((names.find? (.const v)).getD (.const v))) = v
    rw [hfree _ hv]
    rfl
  · intro b f hb hf
    have hread : mem.read ((Term.field b f).substitute names) = .field (mem.read (b.substitute names)) f := by
      rw [Term.substitute, hfree _ hb, Option.getD_none, Memory.read, h.lastField_eq_none hf, Option.getD_none]
    rw [hread]
    rfl
  · intro a i e ha
    have hread : mem.read ((Term.element a i e).substitute names) =
        .element (mem.read (a.substitute names)) (mem.read (i.substitute names)) e := by
      rw [Term.substitute, hfree _ ha, Option.getD_none, Memory.read, h.lastElement_eq_none, Option.getD_none]
    rw [hread]
    rfl
  · intro a ha
    have hread : mem.read ((Term.length a).substitute names) = .length (mem.read (a.substitute names)) := by
      rw [Term.substitute, hfree _ ha, Option.getD_none, Memory.read]
    rw [hread]
    rfl

namespace Store

/-- The roots are objects. -/
def Objects (targets : Store) (roots : List Handle) : Prop := ∀ h ∈ roots, ∃ t as, targets.get? h = some (.object t as)

/-- A term that a root is known by. -/
def Names (targets : Store) (roots : List Handle) (t : Term) : Prop := ∃ h ∈ roots, ∃ m ∈ targets.get? h, m.term = t

/-- An atom that a root carries. -/
def States (targets : Store) (roots : List Handle) (a : Atom) : Prop :=
  ∃ h ∈ roots, ∃ m ∈ targets.get? h, a ∈ Goal.known m

instance (targets : Store) (roots : List Handle) : DecidablePred (targets.Names roots) :=
  fun t => inferInstanceAs (Decidable (∃ h ∈ roots, ∃ m ∈ targets.get? h, m.term = t))

instance (targets : Store) (roots : List Handle) : DecidablePred (targets.States roots) :=
  fun a => inferInstanceAs (Decidable (∃ h ∈ roots, ∃ m ∈ targets.get? h, a ∈ Goal.known m))

/-- Values that make all that is said of some objects true: no object is null, every atom is true, and what no method
writes to is read from one heap. -/
structure Explained (targets : Store) (roots : List Handle) (m : Machine) (value : Term → Value)
    (heap : Spot → Value) : Prop where
  reads : m.Reads (targets.Names roots) value heap
  exist : ∀ t, targets.Names roots t → value t ≠ .null
  holds : ∀ a, targets.States roots a → a.relation.holds (value a.lhs) (value a.rhs) = true

end Store

/-! ### Goals of objects -/

namespace Goal

theorem exists_of_mem_pairs {models : List Model} {values : List Term} {t v : Term} (h : (t, v) ∈ pairs models values) :
    ∃ m, m.term = t ∧ (v, m) ∈ values.zip models := by
  rw [pairs, List.zip_map_left, ← List.zip_swap, List.map_map] at h
  obtain ⟨⟨u, m⟩, hmem, he⟩ := List.mem_map.mp h
  cases he
  exact ⟨m, rfl, hmem⟩

/-- The atoms for objects say that none of them is null and what the objects carry, under the names that their terms
get. -/
theorem atoms_objects {g : Goal} (ho : g.targets.Objects g.roots) (hpaired : g.roots.length = g.locals.length)
    {s : State} {atoms : List Atom} (h : g.atoms s = .ok (some atoms)) :
    ∃ names : Term.Renaming, (∀ t v, names.find? t = some v → g.targets.Names g.roots t) ∧
      (∀ t, g.targets.Names g.roots t → ∃ v, names.find? t = some v ∧ s.memory.readAtom (.ne v .null) ∈ atoms) ∧
      ∀ a, g.targets.States g.roots a → s.memory.readAtom (a.substitute names) ∈ atoms := by
  obtain ⟨models, values, hmodels, hvalues, hatoms⟩ := atoms_eq_some h
  have hlen : models.length = values.length := by
    rw [← (mapM_eq_ok.mp hmodels).length_eq, hpaired, hvalues]
  have hmodel : ∀ h ∈ g.roots, ∀ m ∈ g.targets.get? h, m ∈ models := by
    intro h hh m hm
    obtain ⟨m', hm', hget⟩ := exists_mem_of_mapM hmodels hh
    rw [Store.get_eq_ok, hm] at hget
    exact Option.some.inj hget ▸ hm'
  have hstated : ∀ v m, (v, m) ∈ values.zip models → s.memory.readAtom (.ne v .null) ∈ atoms ∧
      ∀ a ∈ known m, s.memory.readAtom (a.substitute (Table.ofList (pairs models values))) ∈ atoms := by
    intro v m hvm
    obtain ⟨h, hh, hget⟩ := mem_of_mapM hmodels (List.of_mem_zip hvm).2
    obtain ⟨t, as, hobject⟩ := ho h hh
    rw [Store.get_eq_ok, hobject] at hget
    cases hget
    obtain ⟨bs, hbs, hin⟩ := hatoms _ hvm
    cases hbs
    exact ⟨hin _ List.mem_cons_self, fun a ha => hin _ (List.mem_cons_of_mem _ (List.mem_map_of_mem ha))⟩
  refine ⟨Table.ofList (pairs models values), ?_, ?_, ?_⟩
  · intro t v hf
    obtain ⟨m, hterm, hvm⟩ := exists_of_mem_pairs (Table.mem_of_find?_ofList hf)
    obtain ⟨h, hh, hget⟩ := mem_of_mapM hmodels (List.of_mem_zip hvm).2
    exact ⟨h, hh, m, Store.get_eq_ok.mp hget, hterm⟩
  · rintro t ⟨h, hh, m, hm, rfl⟩
    have hkey : m.term ∈ (pairs models values).map (·.1) := by
      rw [pairs, List.map_fst_zip (by rw [List.length_map, hlen])]
      exact List.mem_map_of_mem (hmodel h hh m hm)
    obtain ⟨v, hv⟩ := Table.exists_find?_ofList hkey
    obtain ⟨m', -, hvm⟩ := exists_of_mem_pairs (Table.mem_of_find?_ofList hv)
    exact ⟨v, hv, (hstated v m' hvm).1⟩
  · rintro a ⟨h, hh, m, hm, ha⟩
    have hmem := hmodel h hh m hm
    rw [← List.map_snd_zip hlen.le] at hmem
    obtain ⟨⟨v, m⟩, hvm, rfl⟩ := List.mem_map.mp hmem
    exact (hstated v m hvm).2 a ha

end Goal

namespace Resolve

theorem Agrees.holds {m : Assignment} {I : Interpretation} (hI : Agrees m I) {a : Atom} (ha : m.holds a = some true) :
    a.relation.holds (I.eval a.lhs) (I.eval a.rhs) = true := by
  unfold Assignment.holds at ha
  split at ha
  next l r hl hr =>
    rw [hI hl, hI hr]
    exact Option.some.inj ha
  · cases ha

end Resolve

/-! ### What is accepted is explained -/

/-- If a draft for some objects is accepted, there are values of all terms under which what is said of them is true. -/
theorem Workshop.verify_explained {w : Workshop} {c : Catalog} {d : Draft} {targets : Store} {roots : List Handle}
    (hs : d.Sane c targets roots) (ho : targets.Objects roots) {time : Option Nat} {v v' : Verifier}
    {found : Store × List Handle} (hv : w.verify d time v = .ok (some found, v')) :
    ∃ value heap, targets.Explained roots w.machine value heap := by
  obtain ⟨name, p, s, atoms, t, -, hprobe, hpaired, hw, -⟩ :=
    verify_some hs (Draft.ready_objects ho) (Draft.measured_objects ho) hv
  have hrun := (hw.tracks.runs hw.returned).1
  have hconfined : w.machine.Confined s.memory := hrun.confined (hs.not_isStore ho hprobe) nofun
  obtain ⟨names, hnames, hne, hstates⟩ := Goal.atoms_objects ho hpaired hw.goal
  have hI := Resolve.agrees_of_check hw.checked
  have hfree : ∀ u, ¬ targets.Names roots u → names.find? u = none := by
    intro u hu
    by_contra hsome
    obtain ⟨r, hr⟩ := Option.ne_none_iff_exists'.mp hsome
    exact hu (hnames u r hr)
  refine ⟨_, _, hconfined.reads (Resolve.filled t.assignment t.state.path) hfree, ?_, ?_⟩
  · intro u hu hnull
    obtain ⟨r, hr, hmem⟩ := hne u hu
    have hholds : Relation.ne.holds ((Resolve.filled t.assignment t.state.path).eval (s.memory.read r)) .null = true :=
      hI.holds (hw.holds (Or.inr hmem))
    rw [Term.substitute_of_find? hr] at hnull
    rw [hnull] at hholds
    cases hholds
  · intro a ha
    exact hI.holds (hw.holds (Or.inr (hstates a ha)))

namespace Synthesizer

section

variable {s s' : Synthesizer} {targets : Store} {roots : List Handle} {depth time : Nat} {r : Synthesized}
  (h : s.synthesizeWithin targets roots depth time = .ok (s', r)) {cs : List (List Nat)}
  (hcs : Cluster.partition targets roots = .ok cs) {cluster : List Nat} (hcluster : cluster ∈ cs)
  (ho : targets.Objects (Cluster.rootsAt roots cluster)) {i : Nat} (hi : i ∈ cluster) {k : Handle}
  (hk : r.models[i]? = some (some k))

include h hcs hcluster ho hi hk

/-- A result is made for a cluster of objects only if what is said of them can be true. -/
theorem synthesizeWithin_explained :
    ∃ value heap, targets.Explained (Cluster.rootsAt roots cluster) s.workshop.machine value heap := by
  obtain ⟨cs', hcs', cluster', hcluster', d, t, u, u', store, handles, x, hd, hv, hx, -⟩ := synthesizeWithin_spec h hk
  cases hcs.symm.trans hcs'
  have hsame : cluster' = cluster :=
    (Cluster.partition_spec hcs).1.eq_of_mem hcluster' hcluster (List.of_mem_zip hx).1 hi
  subst hsame
  exact Workshop.verify_explained hd ho hv

/-- If what is said of the objects of a cluster cannot be true with `a` and `b` the same, then a result is made for the
cluster only if nothing that is said equates the two. -/
theorem synthesizeWithin_separate {a b : Term}
    (hapart : ∀ value heap, targets.Explained (Cluster.rootsAt roots cluster) s.workshop.machine value heap →
      value a ≠ value b) :
    ¬ targets.States (Cluster.rootsAt roots cluster) (.eq a b) ∧
      ¬ targets.States (Cluster.rootsAt roots cluster) (.eq b a) := by
  obtain ⟨value, heap, hexplained⟩ := synthesizeWithin_explained h hcs hcluster ho hi hk
  have hne := hapart value heap hexplained
  have htrue : ∀ t u, targets.States (Cluster.rootsAt roots cluster) (.eq t u) → value t = value u := by
    intro t u hstates
    exact eq_of_beq (hexplained.holds _ hstates)
  exact ⟨fun hab => hne (htrue a b hab), fun hba => hne (htrue b a hba).symm⟩

end

/-- A synthesizer with one constructor, which writes to no field. -/
def bare : Synthesizer :=
  let machine : Machine := { methods := [(.constructor "A" [], [])] }
  { workshop := { machine }, catalog := machine.catalog }

def first : Term := .param "a" (.object "A")

def second : Term := .param "b" (.object "A")

def number : Field := ⟨"A", "number", .int⟩

/-- Two objects with different numbers, of which the second knows the first. -/
def numbered : Store :=
  .ofSlots [some (.object first (.ofList [.eq (.field first number) (.int 1)])),
    some (.object second (.ofList
      [.eq (.field second number) (.int 2), .eq (.field second ⟨"A", "peer", .object "A"⟩) first]))]

/-- The two objects can only be the same if their number is. -/
theorem numbered_apart {value : Term → Value} {heap : Spot → Value}
    (h : numbered.Explained [⟨0⟩, ⟨1⟩] bare.workshop.machine value heap) : value first ≠ value second := by
  intro hsame
  have hfirst : value (.field first number) = value (.int 1) :=
    eq_of_beq (h.holds (.eq (.field first number) (.int 1)) (by decide))
  have hsecond : value (.field second number) = value (.int 2) :=
    eq_of_beq (h.holds (.eq (.field second number) (.int 2)) (by decide))
  have hnumbers : Value.int 1 = Value.int 2 := by
    calc
      Value.int 1 = value (.int 1) := (h.reads.const _ (by decide)).symm
      _ = heap (.field (value first) number) := by rw [← hfirst, h.reads.field _ _ (by decide) (by decide)]
      _ = value (.int 2) := by rw [hsame, ← hsecond, h.reads.field _ _ (by decide) (by decide)]
      _ = Value.int 2 := h.reads.const _ (by decide)
  cases hnumbers

theorem synthesizeWithin_separate_numbered :
    Cluster.partition numbered [⟨0⟩, ⟨1⟩] = .ok [[0, 1]] ∧ numbered.Objects [⟨0⟩, ⟨1⟩] ∧
    (∀ value heap, numbered.Explained [⟨0⟩, ⟨1⟩] bare.workshop.machine value heap → value first ≠ value second) ∧
    (∃ s' r, bare.synthesizeWithin numbered [⟨0⟩, ⟨1⟩] 2 1000 = .ok (s', r) ∧ r.models = [some ⟨0⟩, some ⟨1⟩]) ∧
    ¬ numbered.States [⟨0⟩, ⟨1⟩] (.eq first second) ∧ ¬ numbered.States [⟨0⟩, ⟨1⟩] (.eq second first) := by
  have hcs : Cluster.partition numbered [⟨0⟩, ⟨1⟩] = .ok [[0, 1]] := by decide +kernel
  have ho : numbered.Objects [⟨0⟩, ⟨1⟩] :=
    List.forall_mem_cons.mpr ⟨⟨_, _, rfl⟩, List.forall_mem_singleton.mpr ⟨_, _, rfl⟩⟩
  have hmodels : ((bare.synthesizeWithin numbered [⟨0⟩, ⟨1⟩] 2 1000).toOption.map fun e => e.2.models) =
      some [some ⟨0⟩, some ⟨1⟩] := by
    decide +kernel
  cases hr : bare.synthesizeWithin numbered [⟨0⟩, ⟨1⟩] 2 1000 with
  | error f =>
    rw [hr] at hmodels
    cases hmodels
  | ok e =>
    obtain ⟨s', r⟩ := e
    rw [hr] at hmodels
    have hr' : r.models = [some ⟨0⟩, some ⟨1⟩] := Option.some.inj hmodels
    have hk : r.models[0]? = some (some ⟨0⟩) := by
      rw [hr']
      rfl
    have hseparate := synthesizeWithin_separate hr hcs List.mem_cons_self ho List.mem_cons_self hk
      fun value heap h => numbered_apart h
    exact ⟨hcs, ho, fun value heap h => numbered_apart h, ⟨s', r, rfl, hr'⟩, hseparate⟩

/-- The two objects without numbers, of which it is said that they are the same. -/
def equated : Store := .ofSlots [some (.object first (.ofList [.eq first second])), some (.object second .empty)]

/-- Two objects are said to be the same, and each is made by a call of its own. -/
theorem synthesizeWithin_equated :
    Cluster.partition equated [⟨0⟩, ⟨1⟩] = .ok [[0, 1]] ∧ equated.States [⟨0⟩, ⟨1⟩] (.eq first second) ∧
    ∃ r ∈ (bare.synthesizeWithin equated [⟨0⟩, ⟨1⟩] 2 1000).toOption.map Prod.snd, r.models = [some ⟨0⟩, some ⟨1⟩] ∧
      r.store.get? ⟨0⟩ = some (.assembly (.localVar "r0" (.object "A")) (some ⟨.constructor "A" [], []⟩) []) ∧
      r.store.get? ⟨1⟩ = some (.assembly (.localVar "r1" (.object "A")) (some ⟨.constructor "A" [], []⟩) []) := by
  decide +kernel

end Synthesizer

end Symex
