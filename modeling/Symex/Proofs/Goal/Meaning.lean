import Symex.Goal.Basic
import Symex.Proofs.Data.Lookup
import Symex.Proofs.Data.Outcome
import Symex.Proofs.State.Reading

/-!
# What a goal means

The atoms of a goal speak about the heap before the call, its targets about the heap after it. Main statement: as
long as no write reaches the place of a read through other terms, the atoms are true before the call exactly if the
targets are met after it.
-/

namespace Symex

namespace Interpretation

variable (I : Interpretation)

theorem trueIn_eq_iff (m : Memory) {v w : Term} (hv : v.isSimple = true) (hw : w.isSimple = true) :
    (m.readAtom (.eq v w)).TrueIn I.env I.heap ↔ I.eval v = I.eval w := by
  simp [Memory.readAtom, Atom.map, Atom.eq, Atom.TrueIn, Relation.holds, m.read_of_isSimple hv,
    m.read_of_isSimple hw, eval]

theorem trueIn_ne_iff (m : Memory) {v w : Term} (hv : v.isSimple = true) (hw : w.isSimple = true) :
    (m.readAtom (.ne v w)).TrueIn I.env I.heap ↔ I.eval v ≠ I.eval w := by
  simp [Memory.readAtom, Atom.map, Atom.ne, Atom.TrueIn, Relation.holds, m.read_of_isSimple hv,
    m.read_of_isSimple hw, eval]

end Interpretation

namespace Goal

/-- The atoms that a target carries. -/
def known (m : Model) : List Atom := (m.atoms?.map (·.toList)).getD []

/-- The terms of the targets, with the values of their locals. -/
def pairs (models : List Model) (values : List Term) : List (Term × Term) := (models.map Model.term).zip values

/-- The atoms of a goal are those of its roots, read in the heap before the call. -/
theorem atoms_eq_some {g : Goal} {s : State} {atoms : List Atom} (h : g.atoms s = .ok (some atoms)) :
    ∃ models values, g.roots.mapM g.targets.get = .ok models ∧ values.length = g.locals.length ∧
      ∀ e ∈ values.zip models, ∃ as, g.rootAtoms (Table.ofList (pairs models values)) values e.1 e.2 = .ok as ∧
        ∀ a ∈ as, s.memory.readAtom a ∈ atoms := by
  unfold Goal.atoms at h
  split at h
  · cases h
  next values hvalues =>
    obtain ⟨models, hmodels, h⟩ := bind_eq_ok.mp h
    obtain ⟨parts, hparts, hend⟩ := bind_eq_ok.mp h
    cases hend
    refine ⟨models, values, hmodels, (mapM_eq_some.mp hvalues).length_eq.symm, ?_⟩
    intro e he
    obtain ⟨as, hmem, has⟩ := exists_mem_of_mapM hparts he
    exact ⟨as, has, fun a ha => List.mem_map_of_mem (List.mem_flatten.mpr ⟨as, hmem, ha⟩)⟩

/-- The targets of a goal's roots are built, each is named by a variable of its own, and the locals hold simple
values. -/
structure Settled (g : Goal) (s : State) (models : List Model) (values : List Term) : Prop where
  built : List.Forall₂ (fun h m => g.targets.get? h = some m) g.roots models
  bound : List.Forall₂ (fun x v => (s.find? x).map Sym.term = some v) g.locals values
  paired : g.roots.length = g.locals.length
  ends : ∀ t h, .sameAs t h ∈ models → ∃ r, g.targets.deref h = .ok r
  named : ∀ m ∈ models, m.term.isVariable = true
  distinct : (models.map Model.term).Nodup
  simple : ∀ v ∈ values, v.isSimple = true

/-- No write reaches the place of a read of the targets through other terms than the read. -/
def Overt (s : State) (I : Interpretation) (models : List Model) (values : List Term) : Prop :=
  ∀ m ∈ models, ∀ a ∈ known m, ∀ u ∈ a.terms,
    I.Overt s.memory (fun t => s.memory.read (t.substitute (Table.ofList (pairs models values)))) u

instance (s : State) (I : Interpretation) (models : List Model) (values : List Term) :
    Decidable (Overt s I models values) :=
  inferInstanceAs (Decidable (∀ m ∈ models, ∀ a ∈ known m, ∀ u ∈ a.terms, _))

/-- All that a target carries is true after the call, where its terms have the values of the locals. -/
def Kept (s : State) (I : Interpretation) (models : List Model) (values : List Term) (m : Model) : Prop :=
  ∀ a ∈ known m, a.TrueIn (I.renamed fun t => (pairs models values).lookup t) (I.heapAfter s.memory)

/-- A target is met after the call by a local with value `v`. -/
def Meets (g : Goal) (s : State) (I : Interpretation) (models : List Model) (values : List Term) (v : Term) :
    Model → Prop
  | .null _ => I.eval v = .null
  | .sameAs _ h => ∀ r, g.targets.deref h = .ok r → ∀ e ∈ g.roots.zip values, e.1 = r → I.eval v = I.eval e.2
  | .primitive t x as => Kept s I models values (.primitive t x as)
  | m => I.eval v ≠ .null ∧ Kept s I models values m

variable {g : Goal} {s : State} {models : List Model} {values : List Term} {I : Interpretation}

namespace Settled

theorem length_eq (h : g.Settled s models values) : models.length = values.length := by
  rw [← h.built.length_eq, h.paired, h.bound.length_eq]

theorem nodup_pairs (h : g.Settled s models values) : ((pairs models values).map (·.1)).Nodup := by
  have hl : (models.map Model.term).length ≤ values.length := by
    rw [List.length_map]
    exact Nat.le_of_eq h.length_eq
  rw [pairs, List.map_fst_zip hl]
  exact h.distinct

theorem find?_names (h : g.Settled s models values) :
    (Table.ofList (pairs models values)).find? = fun t => (pairs models values).lookup t := by
  funext t
  apply Option.ext
  intro v
  rw [Table.find?_ofList_of_nodup h.nodup_pairs, lookup_eq_some_iff_mem h.nodup_pairs]

theorem isVariable_of_find? (h : g.Settled s models values) {k v : Term}
    (hf : (Table.ofList (pairs models values)).find? k = some v) : k.isVariable = true := by
  have hp := (Table.find?_ofList_of_nodup h.nodup_pairs).mp hf
  obtain ⟨m, hm, rfl⟩ := List.mem_map.mp (List.of_mem_zip hp).1
  exact h.named m hm

theorem isSimple_of_find? (h : g.Settled s models values) {k v : Term}
    (hf : (Table.ofList (pairs models values)).find? k = some v) : v.isSimple = true :=
  h.simple v (List.of_mem_zip ((Table.find?_ofList_of_nodup h.nodup_pairs).mp hf)).2

theorem kept_iff (h : g.Settled s models values) (ho : Overt s I models values) {m : Model} (hm : m ∈ models) :
    (∀ a ∈ (known m).map (·.substitute (Table.ofList (pairs models values))),
        (s.memory.readAtom a).TrueIn I.env I.heap) ↔ Kept s I models values m := by
  rw [List.forall_mem_map, Kept, ← h.find?_names]
  refine forall₂_congr fun a ha => ?_
  exact I.trueIn_readAtom_iff (fun _ _ => h.isVariable_of_find?) (fun _ _ => h.isSimple_of_find?) (ho m hm a ha)

theorem nodup_roots (h : g.Settled s models values) : g.roots.Nodup := by
  have he : List.Forall₂ (· = ·) (g.roots.map g.targets.get?) (models.map some) := by
    rw [List.forall₂_map_left_iff, List.forall₂_map_right_iff]
    exact h.built
  rw [List.forall₂_eq_eq_eq] at he
  have hm : (models.map some).Nodup := h.distinct.of_map.map fun _ _ => Option.some.inj
  rw [← he] at hm
  exact hm.of_map

theorem eq_of_mem_zip (h : g.Settled s models values) {e f : Handle × Term} (he : e ∈ g.roots.zip values)
    (hf : f ∈ g.roots.zip values) (hef : e.1 = f.1) : e = f := by
  have hl : g.roots.length ≤ values.length := by
    rw [h.paired]
    exact Nat.le_of_eq h.bound.length_eq
  have hn : ((g.roots.zip values).map Prod.fst).Nodup := by
    rw [List.map_fst_zip hl]
    exact h.nodup_roots
  exact List.inj_on_of_nodup_map hn he hf hef

theorem exists_rootAtoms (h : g.Settled s models values) {m : Model} (hm : m ∈ models) (v : Term) :
    ∃ as, g.rootAtoms (Table.ofList (pairs models values)) values v m = .ok as := by
  cases m with
  | sameAs t k =>
    obtain ⟨r, hr⟩ := h.ends t k hm
    exact ⟨_, bind_eq_ok.mpr ⟨r, hr, rfl⟩⟩
  | _ => exact ⟨_, rfl⟩

theorem meets_sameAs_iff (h : g.Settled s models values) {v : Term} (hv : v ∈ values) {k r : Handle}
    (hr : g.targets.deref k = .ok r) (t : Term) :
    (∀ a ∈ (((g.roots.zip values).find? (·.1 = r)).map fun e => [Atom.eq v e.2]).getD [],
        (s.memory.readAtom a).TrueIn I.env I.heap) ↔ g.Meets s I models values v (.sameAs t k) := by
  have hmeets : g.Meets s I models values v (.sameAs t k) ↔
      ∀ e ∈ g.roots.zip values, e.1 = r → I.eval v = I.eval e.2 := by
    refine ⟨fun hm => hm r hr, fun hm r' hr' => ?_⟩
    rw [hr] at hr'
    exact Except.ok.inj hr' ▸ hm
  rw [hmeets]
  cases hf : (g.roots.zip values).find? (·.1 = r) with
  | none =>
    have hnone : ∀ e ∈ g.roots.zip values, e.1 ≠ r := by simpa using List.find?_eq_none.mp hf
    exact ⟨fun _ e he her => absurd her (hnone e he), fun _ a ha => by cases ha⟩
  | some e =>
    have he := List.mem_of_find?_eq_some hf
    have her : e.1 = r := by simpa using List.find?_some hf
    have hiff := I.trueIn_eq_iff s.memory (h.simple v hv) (h.simple e.2 (List.of_mem_zip he).2)
    rw [Option.map_some, Option.getD_some, List.forall_mem_singleton, hiff]
    constructor
    · intro hve f hf hfr
      rw [h.eq_of_mem_zip hf he (hfr.trans her.symm)]
      exact hve
    · intro hall
      exact hall e he her

theorem meets_iff (h : g.Settled s models values) (ho : Overt s I models values) {v : Term} (hv : v ∈ values)
    {m : Model} (hm : m ∈ models) {as : List Atom}
    (has : g.rootAtoms (Table.ofList (pairs models values)) values v m = .ok as) :
    (∀ a ∈ as, (s.memory.readAtom a).TrueIn I.env I.heap) ↔ g.Meets s I models values v m := by
  have hnull : Term.null.isSimple = true := rfl
  cases m with
  | null t =>
    rw [← Except.ok.inj has, List.forall_mem_singleton]
    exact I.trueIn_eq_iff s.memory (h.simple v hv) hnull
  | sameAs t k =>
    obtain ⟨r, hr, hlast⟩ := bind_eq_ok.mp has
    rw [← Except.ok.inj hlast]
    exact h.meets_sameAs_iff hv hr t
  | primitive t x known =>
    rw [← Except.ok.inj has]
    exact h.kept_iff ho hm
  | object | container | assembly =>
    rw [← Except.ok.inj has, List.forall_mem_cons]
    exact and_congr (I.trueIn_ne_iff s.memory (h.simple v hv) hnull) (h.kept_iff ho hm)

theorem atoms_eq (h : g.Settled s models values) {parts : List (List Atom)}
    (hparts : (values.zip models).mapM (fun e => g.rootAtoms (Table.ofList (pairs models values)) values e.1 e.2) =
      .ok parts) : g.atoms s = .ok (some (parts.flatten.map s.memory.readAtom)) := by
  have hmodels : g.roots.mapM g.targets.get = .ok models := by
    rw [mapM_eq_ok]
    exact h.built.imp fun r m hm => Store.get_eq_ok.mpr hm
  rw [atoms, mapM_eq_some.mpr h.bound]
  exact bind_eq_ok.mpr ⟨models, hmodels, bind_eq_ok.mpr ⟨parts, hparts, rfl⟩⟩

end Settled

/-- For a settled goal the atoms exist, and without hidden aliasing they are true before the call exactly if every
target is met after it. -/
theorem atoms_true_iff_meets (h : g.Settled s models values) :
    ∃ as, g.atoms s = .ok (some as) ∧ ∀ I : Interpretation, Overt s I models values →
      ((∀ a ∈ as, a.TrueIn I.env I.heap) ↔ ∀ e ∈ values.zip models, g.Meets s I models values e.1 e.2) := by
  have hall : ∀ e ∈ values.zip models,
      ∃ as, g.rootAtoms (Table.ofList (pairs models values)) values e.1 e.2 = .ok as :=
    fun e he => h.exists_rootAtoms (List.of_mem_zip he).2 e.1
  obtain ⟨parts, hparts⟩ := exists_mapM hall
  refine ⟨_, h.atoms_eq hparts, fun I ho => ?_⟩
  rw [List.forall_mem_map]
  constructor
  · intro htrue e he
    obtain ⟨as, hmem, has⟩ := exists_mem_of_mapM hparts he
    exact (h.meets_iff ho (List.of_mem_zip he).1 (List.of_mem_zip he).2 has).mp fun a ha =>
      htrue a (List.mem_flatten.mpr ⟨as, hmem, ha⟩)
  · intro hmet a ha
    obtain ⟨as, hmem, ha⟩ := List.mem_flatten.mp ha
    obtain ⟨e, he, has⟩ := mem_of_mapM hparts hmem
    exact (h.meets_iff ho (List.of_mem_zip he).1 (List.of_mem_zip he).2 has).mpr (hmet e he) a ha

/-- A node whose tail has the item `5`, that tail, an alias of the node, and null. -/
def linked : List Model :=
  let node : Ty := .object "Node"
  let next : Field := ⟨"Node", "next", node⟩
  let item : Field := ⟨"Node", "item", .int⟩
  let a : Term := .param "a" node
  let b : Term := .param "b" node
  [.object a (.ofList [.eq (.field a next) b, .eq (.field (.field a next) item) (.int 5)]),
    .object b (.ofList [.ne (.field b next) a]), .sameAs (.param "c" node) ⟨0⟩, .null (.param "d" node)]

/-- Two new nodes are linked, and a parameter becomes the item of the second. The link is written twice. -/
def linking : State :=
  let node : Ty := .object "Node"
  let next : Field := ⟨"Node", "next", node⟩
  let item : Field := ⟨"Node", "item", .int⟩
  let x : Term := .localVar "x" node
  let y : Term := .localVar "y" node
  { memory := { writes := [.field x next .null, .field x next y, .field y item (.param "p" .int)] }
    frame := some (.ofList [("r0", .ref x none), ("r1", .ref y none), ("r2", .ref x none), ("r3", .ref .null none)]) }

/-- The nodes are at two places, and the parameter is `5`. -/
def fivePassed : Interpretation where
  env t := if t = .param "p" .int then .int 5 else if t = .localVar "x" (.object "Node") then .addr ⟨1⟩ else .addr ⟨2⟩
  heap _ := .null

theorem atoms_true_iff_meets_linked :
    let g : Goal := ⟨.ofSlots (linked.map some), [⟨0⟩, ⟨1⟩, ⟨2⟩, ⟨3⟩], ["r0", "r1", "r2", "r3"]⟩
    let values : List Term :=
      [.localVar "x" (.object "Node"), .localVar "y" (.object "Node"), .localVar "x" (.object "Node"), .null]
    g.Settled linking linked values ∧ Overt linking fivePassed linked values ∧
      ∀ e ∈ values.zip linked, g.Meets linking fivePassed linked values e.1 e.2 := by
  intro g values
  have hs : g.Settled linking linked values := {
    built := .cons rfl (.cons rfl (.cons rfl (.cons rfl .nil)))
    bound := .cons rfl (.cons rfl (.cons rfl (.cons rfl .nil)))
    paired := rfl
    ends := by
      intro t h hm
      simp only [linked, List.mem_cons, Model.sameAs.injEq, List.not_mem_nil, reduceCtorEq, or_false, false_or] at hm
      rw [hm.2]
      exact ⟨⟨0⟩, by decide⟩
    named := by decide
    distinct := by decide
    simple := by decide }
  have ho : Overt linking fivePassed linked values := by decide +kernel
  obtain ⟨as, has, hiff⟩ := atoms_true_iff_meets hs
  have htrue : ∃ l ∈ (g.atoms linking).toOption.join, ∀ a ∈ l, a.TrueIn fivePassed.env fivePassed.heap := by
    decide +kernel
  rw [has] at htrue
  obtain ⟨l, hl, htrue⟩ := htrue
  rw [← Option.some.inj hl] at htrue
  exact ⟨hs, ho, (hiff fivePassed ho).mp htrue⟩

end Goal

end Symex
