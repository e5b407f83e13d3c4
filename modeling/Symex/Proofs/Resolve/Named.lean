import Symex.Proofs.Resolve.Current
import Symex.Proofs.Resolve.Reads
import Symex.Proofs.Term.Renamed

/-!
# One name for an address

The atoms of a model are the atoms of the pass that mention its value under any name, with all names renamed to the one
that was asked for. Renaming makes terms that stand nowhere on the path, and the table of names does not have them.
Main statement: none of them is a further name of the address. This needs that a replacement of names keeps what a term
denotes and gives a value to no term that had none; for a term of the soft atoms the latter needs that the hard reads
have places.
-/

namespace Symex

namespace Resolve

/-- `u` is `t`, or another name of the address of `t`. -/
def NameOf (m : Assignment) (path : Path) (t u : Term) : Prop :=
  u = t ∨ ∃ a, m.eval t = some (.addr a) ∧ Names m path a u

/-- The atom mentions a term under one of its names. -/
def Concerns (m : Assignment) (path : Path) (t : Term) (b : Atom) : Prop := ∃ u ∈ b.terms, NameOf m path t u

/-! ### The table of names -/

theorem substitute_names {names : List Term} {t : Term} (ht : t.parts = []) {k : Term} (hk : k = t ∨ k ∈ names) :
    k.substitute (.ofList ((names.filter (· ≠ t)).map fun a => (a, t))) = t := by
  by_cases he : k = t
  · rw [he]
    refine Term.substitute_leaf (Option.eq_none_iff_forall_ne_some.mpr fun y hy => ?_) ht
    exact (find?_names_iff.mp hy).2.1 rfl
  · exact Term.substitute_of_find? (find?_names_iff.mpr ⟨hk.resolve_left he, he, rfl⟩)

theorem mem_canonical_iff {as : List Atom} {t : Term} (ht : t.parts = []) {names : List Term} {named : Term → Prop}
    (h : ∀ b ∈ as, ∀ k ∈ b.terms, k ∈ t :: names ↔ named k) {c : Atom} :
    c ∈ canonical as t (t :: names) ↔ ∃ b ∈ as, b.Renamed named t c := by
  have hrenamed : ∀ b ∈ as, b.Renamed named t
      (b.substitute (.ofList (((t :: names).filter (· ≠ t)).map fun a => (a, t)))) := by
    intro b hb
    refine Atom.renamed_substitute fun k hk => ?_
    by_cases hnamed : named k
    · exact Or.inl ⟨hnamed, substitute_names ht (Or.inr ((h b hb k hk).mpr hnamed))⟩
    · refine Or.inr ⟨hnamed, Option.eq_none_iff_forall_ne_some.mpr fun y hy => ?_⟩
      exact hnamed ((h b hb k hk).mp (find?_names_iff.mp hy).1)
  rw [canonical, OrderedSet.mem_ofList, List.mem_map]
  constructor
  · rintro ⟨b, hb, rfl⟩
    exact ⟨b, hb, hrenamed b hb⟩
  · rintro ⟨b, hb, hc⟩
    exact ⟨b, hb, (hrenamed b hb).unique hc⟩

theorem mem_about_iff {p : Pass} {ts : List Term} {named : Term → Prop}
    (h : ∀ b ∈ p.atoms, ∀ k ∈ b.terms, k ∈ ts ↔ named k) {b : Atom} :
    b ∈ p.about ts ↔ b ∈ p.atoms ∧ ∃ u ∈ b.terms, named u := by
  rw [Pass.about, List.mem_filter, Atom.mentionsAny, List.any_eq_true]
  refine and_congr_right fun hb => ⟨?_, ?_⟩
  · rintro ⟨u, hu, hub⟩
    have hub := Atom.mentions_iff.mp hub
    exact ⟨u, hub, (h b hb u hub).mp hu⟩
  · rintro ⟨u, hub, hu⟩
    exact ⟨u, (h b hb u hub).mpr hu, Atom.mentions_iff.mpr hub⟩

/-! ### The atoms of a requested reference -/

theorem parts_of_isVariable {t : Term} (h : t.isVariable = true) : t.parts = [] := by
  cases t with
  | param | localVar | static => rfl
  | _ => cases h

theorem mem_namesOf_iff {p : Pass} (hp : p.named = nameTerms (p.eval {}) (p.atoms.flatMap Atom.terms))
    {m : Assignment} {path : Path}
    (hread : ∀ u ∈ p.atoms.flatMap Atom.terms, u.isReference = true → p.eval {} u = readBefore m path u) (t : Term)
    {u : Term} (hu : u ∈ p.atoms.flatMap Atom.terms) : u ∈ t :: p.namesOf (m.addressOf t) ↔ NameOf m path t u := by
  rw [List.mem_cons, NameOf]
  refine or_congr_right ?_
  constructor
  · intro h
    cases ha : m.addressOf t with
    | none =>
      rw [ha] at h
      cases h
    | some a =>
      rw [ha] at h
      obtain ⟨-, href, hconst, hvalue⟩ := (Pass.mem_aliases_iff hp).mp h
      exact ⟨a, eq_addr_of_addr? ha, href, hconst, (hread u hu href).symm.trans hvalue⟩
  · rintro ⟨a, ha, href, hconst, hvalue⟩
    have ha : m.addressOf t = some a := by rw [Assignment.addressOf, ha]; rfl
    rw [ha]
    exact (Pass.mem_aliases_iff hp).mpr ⟨hu, href, hconst, (hread u hu href).trans hvalue⟩

/-- The model of a requested reference has exactly the atoms of the pass about it, under one name, as long as the
references of the atoms evaluate as before the call. -/
theorem run_requested_atoms {settings : Settings} {s : State} {m : Assignment} {snapshot : Snapshot}
    (hread : ∀ u ∈ (Pass.start settings s m snapshot).atoms.flatMap Atom.terms, u.isReference = true →
      (Pass.start settings s m snapshot).eval {} u = readBefore m s.path u)
    {values : List Sym} (statics : List (Field × Sym)) {i : Nat} {t : Term} {wrapper : Option Wrapper}
    (ht : values[i]? = some (.ref t wrapper)) (hv : t.isVariable = true) (hr : t.isReference = true) :
    ∃ h model, ((Pass.start settings s m snapshot).run values statics).params[i]? = some h ∧
      ((Pass.start settings s m snapshot).run values statics).store.get? h = some model ∧
      ∀ as, model.atoms? = some as → ∀ c, c ∈ as ↔ ∃ b ∈ (Pass.start settings s m snapshot).atoms,
        Concerns m s.path t b ∧ b.Renamed (NameOf m s.path t) t c := by
  obtain ⟨hget, hbefore, hafter⟩ := resolveValues_split True (fun _ => ample_start settings s m snapshot) ht
    fun _ => Work.standsIn_empty _
  have hstands := hbefore.standsIn (Work.standsIn_empty _)
  obtain ⟨n, hn⟩ := exists_budget (Pass.start settings s m snapshot) t
  rw [resolveValue, hn] at hget hafter
  obtain ⟨model, hmodel, hatoms⟩ := atoms_resolveReference_eq (Pass.start settings s m snapshot) n wrapper t
    (resolveValues (Pass.start settings s m snapshot) (values.take i) {}).2
  have hstatics := (resolveValues_ok (Pass.start settings s m snapshot) (statics.map (·.2))
    (resolveValues (Pass.start settings s m snapshot) values {}).2).1
  refine ⟨_, model, hget, hstatics.extended.get?_some (hafter.extended.get?_some hmodel), fun as has c => ?_⟩
  rw [hatoms as has, address?_of_variable hstands hv hr]
  have hnames : ∀ b ∈ (Pass.start settings s m snapshot).atoms, ∀ k ∈ b.terms,
      k ∈ t :: (Pass.start settings s m snapshot).namesOf (m.addressOf t) ↔ NameOf m s.path t k :=
    fun b hb k hk => mem_namesOf_iff (named_start settings s m snapshot) hread t (List.mem_flatMap.mpr ⟨b, hb, hk⟩)
  refine (mem_canonical_iff (parts_of_isVariable hv) fun b hb => hnames b (List.mem_filter.mp hb).1).trans ?_
  exact exists_congr fun b => (and_congr_left' (mem_about_iff hnames)).trans and_assoc

theorem eval_start_initial {s : State} {m : Assignment} {v : Solver.Valuation}
    (sol : Solver.Solution s.path.hard m v) (settings : Settings) {snapshot : Snapshot} (hs : snapshot ≠ .current)
    (t : Term) :
    (Pass.start settings s m snapshot).eval {} t = readBefore m s.path t := by
  rw [← (seesCall_start sol settings snapshot).before_eq t]
  cases snapshot with
  | current => exact absurd rfl hs
  | _ => rfl

/-! ### What renaming leaves behind -/

theorem placeOf_substitute {read : Term → Option Value} {r : Term.Renaming} {t : Term} (h : r.find? t = none)
    (hparts : ∀ u ∈ t.parts, read (u.substitute r) = read u) : placeOf read (t.substitute r) = placeOf read t := by
  cases t with
  | field b f => simp [Term.substitute, h, placeOf, hparts b (by simp [Term.parts])]
  | element a i e =>
    simp [Term.substitute, h, placeOf, hparts a (by simp [Term.parts]), hparts i (by simp [Term.parts])]
  | length a => simp [Term.substitute, h, placeOf, hparts a (by simp [Term.parts])]
  | _ => rw [Term.substitute_leaf h rfl]

section Solved

variable {m : Assignment} {path : Path} {v : Solver.Valuation} (sol : Solver.Solution path.hard m v)

include sol

theorem readBefore_of_placed (hp : ReadsPlaced m path) {t : Term} (ht : t.parts ≠ []) :
    readBefore m path t = (placeOf (readBefore m path) t).bind (heapBefore m path) := by
  have hc : t.isConst = false := by
    cases t with
    | const => exact absurd rfl ht
    | _ => rfl
  rw [readBefore, readIn_eq _ _ hc]
  cases hx : m.find? t with
  | none => rfl
  | some x =>
    have hx' : m.eval t = some x := (m.eval_of_not_const hc).trans hx
    have hmem := mem_of_eval_read sol hc hx'
    obtain ⟨q, hq⟩ := Option.isSome_iff_exists.mp (hp t hmem ht)
    have hplace : placeOf (readIn m.find? (heapBefore m path)) t = some q := by
      refine (placeOf_congr fun u hu => ?_).trans hq
      obtain ⟨y, hy, hy'⟩ := exists_readBefore_of_mem sol (part_mem_terms hmem hu)
      exact hy.trans hy'.symm
    rw [hplace, Option.some_or, Option.bind_some]
    exact ((heapBefore_eq_some_iff sol).mpr ⟨t, hmem, hq, hx'⟩).symm

/-- A replacement by terms that read the same changes no value, if a read has the value of its place. -/
theorem readBefore_substitute (hp : ReadsPlaced m path) {r : Term.Renaming}
    (hr : ∀ k u, r.find? k = some u → readBefore m path u = readBefore m path k) (t : Term) :
    readBefore m path (t.substitute r) = readBefore m path t := by
  induction t using Term.induction_on_parts with
  | step t ih =>
    cases hf : r.find? t with
    | some u => rw [Term.substitute_of_find? hf, hr _ _ hf]
    | none =>
      by_cases hparts : t.parts = []
      · rw [Term.substitute_leaf hf hparts]
      · have hparts' : (t.substitute r).parts ≠ [] := by simpa [Term.parts_substitute hf] using hparts
        rw [readBefore_of_placed sol hp hparts', readBefore_of_placed sol hp hparts, placeOf_substitute hf ih]

/-- What a term of the hard atoms reads cannot be seen from its replacement alone, but it has a value, and a replacement
keeps what a term denotes. -/
theorem readBefore_of_substitute {r : Term.Renaming} {a : Address}
    (hr : ∀ k u, r.find? k = some u → readBefore m path k = some (.addr a) ∧ readBefore m path u = some (.addr a))
    {t : Term} (ht : t ∈ path.hard.flatMap Atom.terms) {x : Value} (hx : readBefore m path (t.substitute r) = some x) :
    readBefore m path t = some x := by
  obtain ⟨y, hy, -⟩ := exists_readBefore_of_mem sol ht
  have hkeep : Denotes m path (t.substitute r) y := by
    refine (denotes_of_readBefore sol hy).substitute sol fun {k u z} hk hz => ?_
    obtain ⟨hka, hua⟩ := hr k u hk
    rw [hz.unique sol (denotes_of_readBefore sol hka)]
    exact denotes_of_readBefore sol hua
  rw [hy, hkeep.unique sol (denotes_of_readBefore sol hx)]

/-- Once the names of an address are renamed to `t`, no term of the atom is another name of it. -/
theorem eq_of_names_renamed {b c : Atom} (hb : ReadsPlaced m path ∨ b ∈ path.hard) {t : Term} (ht : t.parts = [])
    {a : Address} (hta : Names m path a t) (hc : b.Renamed (Names m path a) t c) {u : Term} (hu : u ∈ c.terms)
    (hua : Names m path a u) : u = t := by
  classical
  let others := b.terms.filter fun k => Names m path a k
  let r : Term.Renaming := .ofList (((t :: others).filter (· ≠ t)).map fun k => (k, t))
  have hnames : ∀ k ∈ b.terms, k ∈ t :: others ↔ Names m path a k := by
    intro k hk
    by_cases he : k = t
    · simp [he, hta]
    · simp [others, he, hk]
  have hr : ∀ k y, r.find? k = some y → Names m path a k ∧ y = t := by
    intro k y hy
    obtain ⟨hk, hne, rfl⟩ := find?_names_iff.mp hy
    have hk := List.mem_filter.mp ((List.mem_cons.mp hk).resolve_left hne)
    exact ⟨by simpa using hk.2, rfl⟩
  have hsub : c = b.substitute r := by
    have hone : ∀ x ∈ [b], ∀ k ∈ x.terms, k ∈ t :: others ↔ Names m path a k := by simpa using hnames
    have hmem := (mem_canonical_iff ht hone).mpr ⟨b, List.mem_singleton_self b, hc⟩
    exact List.mem_singleton.mp (OrderedSet.mem_ofList.mp hmem)
  subst hsub
  -- A term of the renamed atom that is not `t` came from a term of the atom that is no name, and still is none.
  obtain ⟨side, hside, hu⟩ : ∃ side : Term, (∀ k ∈ side.subterms, k ∈ b.terms) ∧ u ∈ (side.substitute r).subterms := by
    rcases List.mem_append.mp hu with hu | hu
    · exact ⟨b.lhs, fun k hk => List.mem_append_left _ hk, hu⟩
    · exact ⟨b.rhs, fun k hk => List.mem_append_right _ hk, hu⟩
  rcases Term.mem_subterms_substitute ht (fun k y hy => (hr k y hy).2) hu with rfl | ⟨k, hk, hnone, rfl⟩
  · rfl
  · obtain ⟨hty, hconst⟩ := Term.kind_substitute hnone
    have hvalue : readBefore m path k = some (.addr a) := by
      rcases hb with hplaced | hhard
      · rw [← hua.value, readBefore_substitute sol hplaced]
        intro l y hy
        rw [(hr l y hy).2, hta.value, (hr l y hy).1.value]
      · have hmem : k ∈ path.hard.flatMap Atom.terms := List.mem_flatMap.mpr ⟨b, hhard, hside k hk⟩
        refine readBefore_of_substitute (a := a) sol (fun l y hy => ?_) hmem hua.value
        exact ⟨(hr l y hy).1.value, (hr l y hy).2 ▸ hta.value⟩
    have hka : Names m path a k := by
      refine ⟨?_, hconst ▸ hua.isConst, hvalue⟩
      have href := hua.reference
      rwa [Term.isReference, hty] at href
    exact substitute_names ht (Or.inr ((hnames k (hside k hk)).mpr hka))

end Solved

/-- The model of a requested reference has the atoms that mention its address under any name, and knows the address
under the requested name only, at whatever depth. -/
theorem run_initial_one_name {settings : Settings} {s : State} {limit : Nat} {m : Assignment}
    (hm : Solver.check limit s.path false = some m) (hplaced : settings.useSoft = true → ReadsPlaced m s.path)
    {snapshot : Snapshot} (hsnapshot : snapshot ≠ .current) {values : List Sym} (statics : List (Field × Sym)) {i : Nat}
    {t : Term} {wrapper : Option Wrapper} (ht : values[i]? = some (.ref t wrapper)) (hv : t.isVariable = true)
    (hr : t.isReference = true) {a : Address} (ha : m.eval t = some (.addr a)) :
    ∃ h model, ((Pass.start settings s m snapshot).run values statics).params[i]? = some h ∧
      ((Pass.start settings s m snapshot).run values statics).store.get? h = some model ∧
      ∀ as, model.atoms? = some as →
        (∀ c ∈ as, ∀ u ∈ c.terms, Names m s.path a u → u = t) ∧
        ∀ c, c ∈ as ↔ ∃ b ∈ s.path.atoms settings.useSoft, (∃ u ∈ b.terms, Names m s.path a u) ∧
          b.Renamed (Names m s.path a) t c := by
  rw [Solver.check_hard] at hm
  obtain ⟨v, sol⟩ := Solver.solve_some hm
  obtain ⟨h, model, hget, hmodel, hatoms⟩ := run_requested_atoms
    (fun u _ _ => eval_start_initial sol settings hsnapshot u) statics ht hv hr
  have hself : Names m s.path a t := by
    refine ⟨hr, ?_, ?_⟩
    · cases t with
      | const => cases hv
      | _ => rfl
    · rw [← eval_start_initial sol settings hsnapshot, eval_of_variable (Work.standsIn_empty _) hv hr, ha]
  have hname : NameOf m s.path t = Names m s.path a := by
    funext u
    refine propext ⟨?_, fun hu => Or.inr ⟨a, ha, hu⟩⟩
    rintro (rfl | ⟨b, hb, hu⟩)
    · exact hself
    · cases hb.symm.trans ha
      exact hu
  have hpath : (Pass.start settings s m snapshot).atoms = s.path.atoms settings.useSoft := by
    cases snapshot with
    | current => exact absurd rfl hsnapshot
    | _ => rfl
  refine ⟨h, model, hget, hmodel, fun as has => ?_⟩
  have hmem := hatoms as has
  simp only [Concerns, hname, hpath] at hmem
  refine ⟨fun c hc u hu hua => ?_, hmem⟩
  obtain ⟨b, hb, -, hrenamed⟩ := (hmem c).mp hc
  refine eq_of_names_renamed sol ?_ (parts_of_isVariable hv) hself hrenamed hu hua
  cases hsoft : settings.useSoft with
  | true => exact Or.inl (hplaced hsoft)
  | false =>
    rw [hsoft, Path.atoms_false] at hb
    exact Or.inr hb

/-- A node and the one after it, which leads back; the soft atom goes around twice. -/
def backlinked : State :=
  let node : Ty := .object "Node"
  let next : Field := ⟨"Node", "next", node⟩
  let prev : Field := ⟨"Node", "prev", node⟩
  let item : Field := ⟨"Node", "item", .int⟩
  let x : Term := .param "x" node
  let y : Term := .param "y" node
  { path :=
      { hard := [.ne x .null, .eq (.field x next) y, .eq (.field y prev) x, .eq (.field (.field y prev) item) (.int 5)]
        soft := [.lt (.field (.field (.field (.field y prev) next) prev) item) (.int 9)] } }

theorem run_initial_one_name_backlinked : ∃ m a, Solver.check 1000 backlinked.path false = some m ∧
    ReadsPlaced m backlinked.path ∧ m.eval (.param "x" (.object "Node")) = some (.addr a) ∧
    let r := (Pass.start { useSoft := true } backlinked m .initial).run [.ref (.param "x" (.object "Node")) none] []
    ∃ h model as, r.params[0]? = some h ∧ r.store.get? h = some model ∧ model.atoms? = some as ∧ as.size = 5 ∧
      (∀ c ∈ as, ∀ u ∈ c.terms, Names m backlinked.path a u → u = .param "x" (.object "Node")) ∧
      ∀ c, c ∈ as ↔ ∃ b ∈ backlinked.path.atoms true, (∃ u ∈ b.terms, Names m backlinked.path a u) ∧
        b.Renamed (Names m backlinked.path a) (.param "x" (.object "Node")) c := by
  have hall : ∃ m ∈ Solver.check 1000 backlinked.path false, ReadsPlaced m backlinked.path ∧
      m.eval (.param "x" (.object "Node")) = some (.addr ⟨1⟩) ∧
      let r := (Pass.start { useSoft := true } backlinked m .initial).run [.ref (.param "x" (.object "Node")) none] []
      ((r.params[0]?.bind r.store.get?).bind Model.atoms?).map OrderedSet.size = some 5 := by
    decide +kernel
  obtain ⟨m, hm, hplaced, ha, hsize⟩ := hall
  obtain ⟨h, model, hget, hmodel, hatoms⟩ := @run_initial_one_name { useSoft := true } backlinked 1000 m hm
    (fun _ => hplaced) .initial nofun [.ref (.param "x" (.object "Node")) none] [] 0 _ none rfl rfl rfl _ ha
  dsimp only at hsize
  rw [hget, Option.bind_some, hmodel, Option.bind_some] at hsize
  obtain ⟨as, has, hsize⟩ := Option.map_eq_some_iff.mp hsize
  exact ⟨m, ⟨1⟩, hm, hplaced, ha, h, model, as, hget, hmodel, has, hsize, hatoms as has⟩

/-- The field `g` of the node `v` is a number, yet something is read through it; the soft atom reads the same through
another name of `v`. -/
def throughNumber : State :=
  let node : Ty := .object "Node"
  let f : Field := ⟨"Node", "f", node⟩
  let g : Field := ⟨"Node", "g", node⟩
  let v : Term := .param "v" node
  let w : Term := .param "w" node
  { path :=
      { hard := [.ne v .null, .eq w v, .eq (.field v g) (.int 5), .eq (.field (.field v g) f) v]
        soft := [.eq (.field (.field w g) f) .null] } }

/-- The read through a number has no place, so `w.g.f` has no value and is not known to be `v`; renamed, it becomes
`v.g.f`, which is `v` on the path. -/
theorem run_initial_two_names : ∃ m a, Solver.check 1000 throughNumber.path false = some m ∧
    m.eval (.param "v" (.object "Node")) = some (.addr a) ∧ a.isNull = false ∧
    let r := (Pass.start { useSoft := true } throughNumber m .initial).run [.ref (.param "v" (.object "Node")) none] []
    ∃ as, r.params[0]? = some ⟨0⟩ ∧ r.store.get? ⟨0⟩ = some (.object (.param "v" (.object "Node")) as) ∧
      ∃ c ∈ as, ∃ u ∈ c.terms, u ∈ (throughNumber.path.atoms true).flatMap Atom.terms ∧
        Names m throughNumber.path a u ∧ u ≠ .param "v" (.object "Node") := by
  let u : Term := .field (.field (.param "v" (.object "Node")) ⟨"Node", "g", .object "Node"⟩)
    ⟨"Node", "f", .object "Node"⟩
  have hall : ∃ m ∈ Solver.check 1000 throughNumber.path false,
      m.eval (.param "v" (.object "Node")) = some (.addr ⟨1⟩) ∧
      readBefore m throughNumber.path u = some (.addr ⟨1⟩) ∧
      let r := (Pass.start { useSoft := true } throughNumber m .initial).run
        [.ref (.param "v" (.object "Node")) none] []
      r.params[0]? = some ⟨0⟩ ∧ ∃ model ∈ r.store.get? ⟨0⟩, ∃ as ∈ model.atoms?,
        model = .object (.param "v" (.object "Node")) as ∧ Atom.eq u .null ∈ as := by
    decide +kernel
  obtain ⟨m, hm, ha, hread, hparams, model, hmodel, as, -, rfl, hmem⟩ := hall
  refine ⟨m, ⟨1⟩, hm, ha, rfl, as, hparams, hmodel, _, hmem, u, ?_, by decide, ⟨rfl, rfl, hread⟩, by decide⟩
  exact List.mem_append_left _ (Term.self_mem_subterms u)

end Resolve

end Symex
