import Symex.Proofs.Resolve.Arrays
import Symex.Proofs.Resolve.Truth

/-!
# Which reads an array has

Over the heap before the call, the entries of an array are the element reads of the path on any name of its address,
by the value of their index. The index of an entry is made up and stands for the index of one of these reads; when it
is evaluated, the read of the element that it makes finds what the path reads there.

The names that are made up must not be taken on the path. Then the terms of the path evaluate without them, and what
they stand for evaluates the same at any time.
-/

namespace Symex

theorem Term.length_render_le {t u : Term} (h : u ∈ t.subterms) : u.render.length ≤ t.render.length := by
  induction t with
  | field b f ih =>
    rcases List.mem_cons.mp h with rfl | h
    · exact Nat.le_refl _
    · have := ih h
      simp only [render, String.length_append]
      omega
  | element a i e iha ihi =>
    rcases List.mem_cons.mp h with rfl | h
    · exact Nat.le_refl _
    · simp only [render, String.length_append]
      rcases List.mem_append.mp h with h | h
      · have := iha h
        omega
      · have := ihi h
        omega
  | length a ih =>
    rcases List.mem_cons.mp h with rfl | h
    · exact Nat.le_refl _
    · have := ih h
      simp only [render, String.length_append]
      omega
  | _ =>
    rw [List.mem_singleton.mp h]

namespace Resolve

/-- A term does not hold the indices that are made up for it. -/
theorem indexName_notMem (t : Term) (n : Nat) : Term.localVar (indexName t.render n) .int ∉ t.subterms := by
  intro h
  have hle := Term.length_render_le h
  have hlength : ("_index" : String).length = 6 := by decide
  simp only [Term.render, indexName, String.length_append, hlength] at hle
  omega

theorem indexName_notMem_of_short {ts : List Term} (h : ∀ t ∈ ts, t.isVariable = true → t.render.length < 6)
    (array : String) (n : Nat) : Term.localVar (indexName array n) .int ∉ ts := by
  intro hmem
  have hlt := h _ hmem rfl
  have hlength : ("_index" : String).length = 6 := by decide
  simp only [Term.render, indexName, String.length_append, hlength] at hlt
  omega

/-- A negative number counts nothing. -/
theorem getD_index?_int {n : Int} (h : n < 2 ^ 64) : ((Value.int n).index?).getD 0 = n.toNat := by
  rcases Int.lt_or_le n 0 with hn | hn
  · have hnone : (Value.int n).index? = none := by
      refine Option.eq_none_iff_forall_ne_some.mpr fun k hk => ?_
      injection (Value.index?_eq_some_iff.mp hk).1 with hk
      omega
    rw [hnone, Int.toNat_of_nonpos (by omega)]
    rfl
  · rw [Value.index?_int hn h]
    rfl

/-! ### Names, reads and lengths -/

section Path

variable (m : Assignment) (path : Path)

/-- A term that names an address before the call. -/
structure Names (a : Address) (t : Term) : Prop where
  reference : t.isReference = true
  isConst : t.isConst = false
  value : readBefore m path t = some (.addr a)

/-- A read of the atoms at the element `i` of an array. -/
def ReadsAt (atoms : List Atom) (a : Address) (i : Int) (index read : Term) : Prop :=
  ∃ base elem, read = .element base index elem ∧ read ∈ atoms.flatMap Atom.terms ∧ Names m path a base ∧
    readBefore m path index = some (.int i)

/-- The length of an array: what a length that the atoms speak about evaluates to, or the default. -/
structure LengthIs (atoms : List Atom) (default : Nat) (a : Address) (n : Int) : Prop where
  spoken : ∀ t, Names m path a t → .length t ∈ atoms.flatMap Atom.terms →
    (readBefore m path (.length t)).getD (.int default) = .int n
  unspoken : (∀ t, Names m path a t → .length t ∉ atoms.flatMap Atom.terms) → n = default

end Path

/-! ### An index variable -/

/-- What is known when an index variable and a length are given a value. -/
def knownWith (m : Assignment) (x : Term) (i : Int) (l : Term) (n : Int) (t : Term) : Option Value :=
  if t = x then some (.int i) else if t = l then some (.int n) else m.find? t

/-- The atom is true in a heap. -/
def TrueIn (known : Term → Option Value) (c : Contents) (a : Atom) : Prop :=
  ∃ x y, readIn known c a.lhs = some x ∧ readIn known c a.rhs = some y ∧ a.relation.holds x y = true

/-- The entry `i` of an array `t` with `n` elements. Its index says which indices of reads it stands for, and is true of
them; a primitive element has the value of these reads. -/
structure EntryAt (m : Assignment) (path : Path) (atoms : List Atom) (a : Address) (t : Term) (n : Int) (s : Store)
    (i : Int) (e : Handle × Handle) : Prop where
  index : ∃ name as, s.get? e.1 = some (.primitive (.localVar name .int) (.int i) as) ∧
    (∀ index read, ReadsAt m path atoms a i index read → Atom.eq index (.localVar name .int) ∈ as) ∧
    ∀ b ∈ as, TrueIn (knownWith m (.localVar name .int) i (.length t) n) (heapBefore m path) b
  element : ∀ elem, t.ty = .array elem → elem.isPrimitive = true → ∃ u x as,
    s.get? e.2 = some (.primitive u x as) ∧
    ∀ index read, ReadsAt m path atoms a i index read → read ∈ path.hard.flatMap Atom.terms → m.eval read = some x

/-- What else is known does not matter if it is what is read anyway. -/
theorem readIn_congr {known known' : Term → Option Value} {c : Contents} {t : Term}
    (h : ∀ u ∈ t.subterms,
      known' u = known u ∨ u.isConst = false ∧ ∃ x, known' u = some x ∧ readIn known c u = some x) :
    readIn known' c t = readIn known c t := by
  have hstep : ∀ {u : Term}, u.isConst = false → placeOf (readIn known' c) u = placeOf (readIn known c) u →
      (known' u = known u ∨ u.isConst = false ∧ ∃ x, known' u = some x ∧ readIn known c u = some x) →
      readIn known' c u = readIn known c u := by
    intro u hu hplace hknown
    rcases hknown with hknown | ⟨-, x, hx, hx'⟩
    · rw [readIn_eq _ _ hu, readIn_eq _ _ hu, hplace, hknown]
    · rw [readIn_eq _ _ hu, hx, hx']
      rfl
  induction t with
  | const x => rfl
  | field b f ih =>
    refine hstep rfl ?_ (h _ List.mem_cons_self)
    simp only [placeOf, ih fun u hu => h u (List.mem_cons_of_mem _ hu)]
  | element b i e ihb ihi =>
    refine hstep rfl ?_ (h _ List.mem_cons_self)
    simp only [placeOf, ihb fun u hu => h u (List.mem_cons_of_mem _ (List.mem_append_left _ hu)),
      ihi fun u hu => h u (List.mem_cons_of_mem _ (List.mem_append_right _ hu))]
  | length b ih =>
    refine hstep rfl ?_ (h _ List.mem_cons_self)
    simp only [placeOf, ih fun u hu => h u (List.mem_cons_of_mem _ hu)]
  | _ => exact hstep rfl rfl (h _ List.mem_cons_self)

/-- A place is known only if what the read looks through is. -/
theorem exists_value_of_place {eval : Term → Option Value} {t u : Term} {q : Place} (hq : placeOf eval t = some q)
    (hu : u ∈ t.parts) : ∃ x, eval u = some x := by
  cases t with
  | field b f =>
    obtain ⟨a, hb, -⟩ := fieldPlace_eq_some.mp hq
    exact ⟨_, List.mem_singleton.mp hu ▸ hb⟩
  | element b i e =>
    obtain ⟨a, n, hb, hi, -⟩ := elementPlace_eq_some.mp hq
    rcases List.mem_pair.mp hu with rfl | rfl
    · exact ⟨_, hb⟩
    · exact ⟨_, hi⟩
  | length b =>
    obtain ⟨a, hb, -⟩ := lengthPlace_eq_some.mp hq
    exact ⟨_, List.mem_singleton.mp hu ▸ hb⟩
  | _ => cases hu

/-! ### Evaluation before the call -/

/-- A pass over the heap before the call, where no name that it makes up is taken. -/
structure Pass.Initial (p : Pass) (m : Assignment) (path : Path) : Prop where
  current : p.current = false
  sees : SeesReads m path p.heap
  hard : ∀ a ∈ path.hard, a ∈ p.atoms
  named : p.named = nameTerms (p.heap.before {}) (p.atoms.flatMap Atom.terms)
  free : ∀ array n, Term.localVar (indexName array n) .int ∉ p.atoms.flatMap Atom.terms

namespace Pass.Initial

variable {p : Pass} {m : Assignment} {path : Path} {w w' : Work} {v : Solver.Valuation} (hp : p.Initial m path)

include hp

theorem eval_eq (w : Work) (t : Term) : p.eval w t = p.heap.before w.standIns t := by
  rw [Pass.eval, hp.current]
  rfl

theorem standIns_eq_none (hw : w.StandsIn p) {t : Term} (ht : t ∈ p.atoms.flatMap Atom.terms) :
    ∀ u ∈ t.subterms, w.standIns.find? u = none := by
  intro u hu
  cases hx : w.standIns.find? u with
  | none => rfl
  | some x =>
    obtain ⟨⟨array, n, rfl⟩, -⟩ := hw u x hx
    exact absurd (subterm_mem_terms ht hu) (hp.free array n)

/-- The terms of the path are evaluated without what was made up. -/
theorem eval_of_mem (hw : w.StandsIn p) {t : Term} (ht : t ∈ p.atoms.flatMap Atom.terms) :
    p.eval w t = readBefore m path t := by
  rw [hp.eval_eq, before_of_absent p.heap (hp.standIns_eq_none hw ht), hp.sees.before_eq]

theorem eval_eq_layer (hw : w.StandsIn p) (t : Term) :
    p.eval w t = p.heap.evalLayer w.standIns (fun _ => none) (readBefore m path) t := by
  rw [hp.eval_eq]
  show p.heap.evalLayer w.standIns (fun _ => none) (p.heap.beforeWithin w.standIns w.standIns.size) t = _
  refine evalLayer_congr p.heap _ fun u _ => ?_
  cases hx : w.standIns.find? u with
  | none => rfl
  | some x =>
    have hpos : 0 < w.standIns.size := List.length_pos_of_mem (mem_of_lookup hx)
    obtain ⟨k, hk⟩ := Nat.exists_eq_succ_of_ne_zero (Nat.ne_of_gt hpos)
    have hx' := hp.standIns_eq_none hw (hw u x hx).2
    rw [Option.map_some, Option.map_some, hk, ← hp.sees.before_eq]
    exact congrArg some (evalLayer_of_absent p.heap _ _ _ hx')

theorem eval_congr (hw : w.StandsIn p) (hw' : w'.StandsIn p) {t : Term}
    (h : ∀ u ∈ t.subterms, w.standIns.find? u = w'.standIns.find? u) : p.eval w t = p.eval w' t := by
  rw [hp.eval_eq_layer hw, hp.eval_eq_layer hw']
  exact evalLayer_congr p.heap _ fun u hu => by rw [h u hu]

/-- A read is not made up. -/
theorem eval_read (hw : w.StandsIn p) {t : Term} (ht : ∀ name ty, t ≠ .localVar name ty) (hc : t.isConst = false) :
    p.eval w t = (m.find? t).or ((placeOf (p.eval w) t).bind (heapBefore m path)) := by
  have hnone : w.standIns.find? t = none := by
    cases hx : w.standIns.find? t with
    | none => rfl
    | some x =>
      obtain ⟨⟨array, n, rfl⟩, -⟩ := hw t x hx
      exact absurd rfl (ht _ _)
  have hplace : placeOf (p.eval w) t = placeOf (p.heap.evalLayer w.standIns (fun _ => none) (readBefore m path)) t :=
    congrArg (placeOf · t) (funext (hp.eval_eq_layer hw))
  rw [hplace, hp.eval_eq_layer hw, ← hp.sees.valueAt_eq _ hc]
  cases t with
  | const x => cases hc
  | _ => simp only [Heap.evalLayer, Heap.standIn, hnone, placeOf]

theorem eval_empty (t : Term) : p.eval {} t = readBefore m path t := by
  rw [hp.eval_eq]
  exact hp.sees.before_eq t

theorem mem_atoms_of_hard {t : Term} (ht : t ∈ path.hard.flatMap Atom.terms) : t ∈ p.atoms.flatMap Atom.terms := by
  obtain ⟨a, ha, hta⟩ := List.mem_flatMap.mp ht
  exact List.mem_flatMap.mpr ⟨a, hp.hard a ha, hta⟩

theorem readBefore_of_hard (sol : Solver.Solution path.hard m v) {t : Term} (ht : t ∈ path.hard.flatMap Atom.terms) :
    readBefore m path t = m.eval t :=
  (hp.sees.before_eq t).symm.trans (before_of_mem sol hp.sees.assignment ht)

/-- A read finds what the path reads at its place. -/
theorem eval_at (sol : Solver.Solution path.hard m v) (hw : w.StandsIn p) {t : Term} {q : Place}
    (hq : placeOf (p.eval w) t = some q) : p.eval w t = heapBefore m path q := by
  have hc := isConst_of_place hq
  have hlocal : ∀ name ty, t ≠ .localVar name ty := by
    rintro name ty rfl
    cases hq
  rw [hp.eval_read hw hlocal hc, hq, Option.bind_some]
  cases hx : m.find? t with
  | none => rfl
  | some x =>
    -- A read with a value of its own stands on the path, so the place that it looks at is the same there.
    have hx' : m.eval t = some x := (m.eval_of_not_const hc).trans hx
    have ht := mem_of_eval_read sol hc hx'
    have hq' : placeOf m.eval t = some q := by
      refine placeOf_mono (fun u hu y hy => ?_) hq
      have hu' := part_mem_terms ht hu
      rw [← hp.readBefore_of_hard sol hu', ← hp.eval_of_mem hw (hp.mem_atoms_of_hard hu')]
      exact hy
    rw [(heapBefore_eq_some_iff sol).mpr ⟨t, ht, hq', hx'⟩]
    rfl

theorem readBefore_subterm (sol : Solver.Solution path.hard m v) {t : Term} {x : Value}
    (h : readBefore m path t = some x) : ∀ u ∈ t.subterms, ∃ y, readBefore m path u = some y := by
  induction t using Term.induction_on_parts generalizing x with
  | step t ih =>
    intro u hu
    rcases Term.mem_subterms_iff.mp hu with rfl | ⟨b, hb, hub⟩
    · exact ⟨x, h⟩
    cases hc : t.isConst with
    | true =>
      cases t with
      | const => cases hb
      | _ => cases hc
    | false =>
      cases hx : m.find? t with
      | some y =>
        have ht := mem_of_eval_read sol hc ((m.eval_of_not_const hc).trans hx)
        have hu' := subterm_mem_terms ht hu
        rw [hp.readBefore_of_hard sol hu']
        exact eval_isSome_of_mem sol hu'
      | none =>
        rw [readBefore, readIn_eq _ _ hc, hx, Option.none_or] at h
        obtain ⟨q, hq, -⟩ := Option.bind_eq_some_iff.mp h
        obtain ⟨y, hy⟩ := exists_value_of_place hq hb
        exact ih b hb hy u hub

theorem heapBefore_of_readsAt (sol : Solver.Solution path.hard m v) {a : Address} {i : Int} {index read : Term}
    (hread : ReadsAt m path p.atoms a i index read) (hhard : read ∈ path.hard.flatMap Atom.terms) :
    heapBefore m path (.element a i) = m.eval read := by
  obtain ⟨base, elem, rfl, -, hbase, hindex⟩ := hread
  obtain ⟨y, hy⟩ := eval_isSome_of_mem sol hhard
  have hb := part_mem_terms hhard List.mem_cons_self
  have hi := part_mem_terms hhard (List.mem_cons_of_mem _ List.mem_cons_self)
  rw [hy]
  refine (heapBefore_eq_some_iff sol).mpr ⟨_, hhard, elementPlace_eq_some.mpr ⟨a, i, ?_, ?_, rfl⟩, hy⟩
  · exact (hp.readBefore_of_hard sol hb).symm.trans hbase.value
  · exact (hp.readBefore_of_hard sol hi).symm.trans hindex

theorem eval_length (sol : Solver.Solution path.hard m v) (hw : w.StandsIn p) {t : Term} {a : Address}
    (ha : p.address? w t = some a) : p.eval w (.length t) = heapBefore m path (.length a) :=
  hp.eval_at sol hw (lengthPlace_eq_some.mpr ⟨a, eq_addr_of_addr? ha, rfl⟩)

theorem eval_element (sol : Solver.Solution path.hard m v) (hw : w.StandsIn p) {t r : Term} {a : Address}
    (ha : p.address? w t = some a) {name : String} (hr : w.standIns.find? (.localVar name .int) = some r) {i : Int}
    (hi : readBefore m path r = some (.int i)) (elem : Ty) :
    p.eval w (.element t (.localVar name .int) elem) = heapBefore m path (.element a i) := by
  have hindex : p.eval w (.localVar name .int) = some (.int i) := by
    rw [hp.eval_eq_layer hw]
    simp only [Heap.evalLayer, Heap.standIn, hr]
    exact hi
  exact hp.eval_at sol hw (elementPlace_eq_some.mpr ⟨a, i, eq_addr_of_addr? ha, hindex, rfl⟩)

theorem index?_iff (hw : w.StandsIn p) {index : Term} (hindex : index ∈ p.atoms.flatMap Atom.terms) {k : Nat}
    (hk : k < 2 ^ 63) :
    p.index? w index = some k ↔ readBefore m path index = some (.int k) := by
  rw [Pass.index?, hp.eval_of_mem hw hindex, Option.bind_eq_some_iff]
  constructor
  · rintro ⟨x, hx, hxk⟩
    rw [hx, (Value.index?_eq_some_iff.mp hxk).1]
  · exact fun hx => ⟨_, hx, Value.index?_eq_some_iff.mpr ⟨rfl, by omega⟩⟩

/-! ### Names of an address -/

theorem mem_aliases_iff {a : Address} {t : Term} :
    t ∈ p.aliases a ↔ t ∈ p.atoms.flatMap Atom.terms ∧ Names m path a t := by
  rw [Pass.mem_aliases_iff hp.named]
  constructor
  · rintro ⟨hmem, href, hconst, hvalue⟩
    exact ⟨hmem, href, hconst, (hp.sees.before_eq t).symm.trans hvalue⟩
  · rintro ⟨hmem, href, hconst, hvalue⟩
    exact ⟨hmem, href, hconst, (hp.sees.before_eq t).trans hvalue⟩

section Array

variable (hw : w.StandsIn p) {t : Term} {a : Address} (ha : p.address? w t = some a) (ht : t.isArray = true)

include hw ha ht

/-- The names of the address of an array that stand on the path. -/
theorem mem_names_iff {u : Term} (hu : u ∈ p.atoms.flatMap Atom.terms) :
    u ∈ t :: p.aliases a ↔ Names m path a u := by
  rw [List.mem_cons, hp.mem_aliases_iff]
  constructor
  · rintro (rfl | ⟨-, h⟩)
    · refine ⟨Term.isReference_of_isArray ht, ?_, (hp.eval_of_mem hw hu).symm.trans (eq_addr_of_addr? ha)⟩
      cases u with
      | const x => cases x <;> cases ht
      | _ => rfl
    · exact h
  · exact fun h => Or.inr ⟨hu, h⟩

theorem mem_about {x : Atom} (hx : x ∈ p.atoms) {u : Term} (hu : Names m path a u) (hux : u ∈ x.terms) :
    x ∈ p.about (t :: p.aliases a) := by
  refine List.mem_filter.mpr ⟨hx, List.any_eq_true.mpr ⟨u, ?_, Atom.mentions_iff.mpr hux⟩⟩
  exact (hp.mem_names_iff hw ha ht (List.mem_flatMap.mpr ⟨x, hx, hux⟩)).mpr hu

theorem mem_elementReads_iff {index read : Term} :
    (index, read) ∈ elementReads (p.about (t :: p.aliases a)) (t :: p.aliases a) ↔
      ∃ base elem, read = .element base index elem ∧ read ∈ p.atoms.flatMap Atom.terms ∧ Names m path a base := by
  constructor
  · intro h
    obtain ⟨r, hr, he⟩ := List.mem_filterMap.mp h
    obtain ⟨x, hx, hrx⟩ := List.mem_flatMap.mp (List.mem_eraseDups.mp hr)
    have hr' : r ∈ p.atoms.flatMap Atom.terms := List.mem_flatMap.mpr ⟨x, (List.mem_filter.mp hx).1, hrx⟩
    split at he
    next base i elem =>
      split at he
      next hbase =>
        cases he
        have hsub : base ∈ (Term.element base index elem).subterms := by
          simp [Term.subterms, Term.self_mem_subterms]
        exact ⟨base, elem, rfl, hr', (hp.mem_names_iff hw ha ht (subterm_mem_terms hr' hsub)).mp hbase⟩
      next => cases he
    next => cases he
  · rintro ⟨base, elem, rfl, hr, hbase⟩
    obtain ⟨x, hx, hrx⟩ := List.mem_flatMap.mp hr
    have hsub : base ∈ (Term.element base index elem).subterms := by simp [Term.subterms, Term.self_mem_subterms]
    have habout := hp.mem_about hw ha ht hx hbase (Atom.mem_terms_of_subterm hrx hsub)
    refine List.mem_filterMap.mpr ⟨_, List.mem_eraseDups.mpr (List.mem_flatMap.mpr ⟨x, habout, hrx⟩), ?_⟩
    exact if_pos ((hp.mem_names_iff hw ha ht (subterm_mem_terms hr hsub)).mpr hbase)

theorem any_mentions_length_iff :
    ((p.about (t :: p.aliases a)).any fun x => x.mentionsAny ((t :: p.aliases a).map Term.length)) = true ↔
      ∃ u, Names m path a u ∧ .length u ∈ p.atoms.flatMap Atom.terms := by
  have hsub : ∀ u : Term, u ∈ (Term.length u).subterms := fun u => List.mem_cons_of_mem _ u.self_mem_subterms
  constructor
  · intro h
    obtain ⟨x, hx, hany⟩ := List.any_eq_true.mp h
    obtain ⟨l, hl, hlx⟩ := List.any_eq_true.mp hany
    obtain ⟨u, hu, rfl⟩ := List.mem_map.mp hl
    have hmem : Term.length u ∈ p.atoms.flatMap Atom.terms :=
      List.mem_flatMap.mpr ⟨x, (List.mem_filter.mp hx).1, Atom.mentions_iff.mp hlx⟩
    exact ⟨u, (hp.mem_names_iff hw ha ht (subterm_mem_terms hmem (hsub u))).mp hu, hmem⟩
  · rintro ⟨u, hu, hmem⟩
    obtain ⟨x, hx, hlx⟩ := List.mem_flatMap.mp hmem
    have hname := (hp.mem_names_iff hw ha ht (subterm_mem_terms hmem (hsub u))).mpr hu
    exact List.any_eq_true.mpr ⟨x, hp.mem_about hw ha ht hx hu (Atom.mem_terms_of_subterm hlx (hsub u)),
      List.any_eq_true.mpr ⟨_, List.mem_map_of_mem hname, Atom.mentions_iff.mpr hlx⟩⟩

theorem lengthAt_eq (sol : Solver.Solution path.hard m v) {n : Int}
    (hn : LengthIs m path p.atoms p.settings.defaultLength a n) (hlt : n < 2 ^ 63) : lengthAt p w a t = n.toNat := by
  unfold lengthAt arrayLength
  rw [hp.eval_length sol hw ha]
  by_cases hspoken : ∃ u, Names m path a u ∧ .length u ∈ p.atoms.flatMap Atom.terms
  · have hany := (hp.any_mentions_length_iff hw ha ht).mpr hspoken
    obtain ⟨u, hu, hmem⟩ := hspoken
    have hvalue := hn.spoken u hu hmem
    rw [← hp.eval_empty, hp.eval_length sol (Work.standsIn_empty p) (by
      rw [Pass.address?, hp.eval_empty, hu.value]
      rfl)] at hvalue
    cases hl : heapBefore m path (.length a) with
    | none =>
      rw [hl] at hvalue
      cases hvalue
      rfl
    | some x =>
      rw [hl] at hvalue
      cases hvalue
      dsimp only
      rw [if_pos hany]
      exact getD_index?_int (by omega)
  · have hany := mt (hp.any_mentions_length_iff hw ha ht).mp hspoken
    have hdefault := hn.unspoken fun u hu hmem => hspoken ⟨u, hu, hmem⟩
    rw [hdefault, Int.toNat_natCast]
    cases heapBefore m path (.length a) with
    | none => rfl
    | some x => exact if_neg hany

/-! ### Groups of reads -/

/-- The reads in the group of an index. -/
theorem mem_filter_reads_iff {k : Nat} (hk : k < 2 ^ 63) {index read : Term} :
    (index, read) ∈ (elementReads (p.about (t :: p.aliases a)) (t :: p.aliases a)).filter
        (fun r => p.index? w r.1 = some k) ↔ ReadsAt m path p.atoms a k index read := by
  rw [List.mem_filter, decide_eq_true_iff, hp.mem_elementReads_iff hw ha ht]
  have hindex : ∀ {base elem}, Term.element base index elem ∈ p.atoms.flatMap Atom.terms →
      index ∈ p.atoms.flatMap Atom.terms :=
    fun h => subterm_mem_terms h (by simp [Term.subterms, Term.self_mem_subterms])
  constructor
  · rintro ⟨⟨base, elem, rfl, hmem, hbase⟩, hi⟩
    exact ⟨base, elem, rfl, hmem, hbase, (hp.index?_iff hw (hindex hmem) hk).mp hi⟩
  · rintro ⟨base, elem, rfl, hmem, hbase, hi⟩
    exact ⟨⟨base, elem, rfl, hmem, hbase⟩, (hp.index?_iff hw (hindex hmem) hk).mpr hi⟩

theorem mem_group_iff {k : Nat} {rs : List (Term × Term)} (hg : (k, rs) ∈ groupsAt p w a t) (hk : k < 2 ^ 63)
    {index read : Term} : (index, read) ∈ rs ↔ ReadsAt m path p.atoms a k index read := by
  obtain ⟨-, -, rfl⟩ := mem_groupReads_iff.mp hg
  exact hp.mem_filter_reads_iff hw ha ht hk

theorem mem_indices_iff {n : Int} (hn : lengthAt p w a t = n.toNat) (hlt : n < 2 ^ 63) {i : Int} :
    i ∈ (groupsAt p w a t).map (fun g => (g.1 : Int)) ↔
      0 ≤ i ∧ i < n ∧ ∃ index read, ReadsAt m path p.atoms a i index read := by
  constructor
  · intro hi
    obtain ⟨⟨k, rs⟩, hg, rfl⟩ := List.mem_map.mp hi
    obtain ⟨hk, hne, -⟩ := mem_groupReads_iff.mp hg
    rw [hn] at hk
    obtain ⟨r, hr⟩ := List.exists_mem_of_ne_nil rs hne
    exact ⟨Int.natCast_nonneg k, by omega, r.1, r.2, (hp.mem_group_iff hw ha ht hg (by omega)).mp hr⟩
  · rintro ⟨h₀, hin, index, read, hread⟩
    obtain ⟨k, rfl⟩ := Int.eq_ofNat_of_zero_le h₀
    have hmem := (hp.mem_filter_reads_iff hw ha ht (by omega)).mpr hread
    exact List.mem_map.mpr ⟨(k, _), mem_groupReads_iff.mpr ⟨by omega, List.ne_nil_of_mem hmem, rfl⟩, rfl⟩

/-! ### Entries -/

/-- An index of the reads still has its value when an index variable and the length are given theirs. -/
theorem readIn_knownWith (sol : Solver.Solution path.hard m v) {n : Int}
    (hn : LengthIs m path p.atoms p.settings.defaultLength a n) {name : String} {k : Nat} {i : Int} {index : Term}
    (hindex : index ∈ p.atoms.flatMap Atom.terms) (hi : readBefore m path index = some (.int i)) :
    readIn (knownWith m (.localVar (indexName name k) .int) i (.length t) n) (heapBefore m path) index =
      some (.int i) := by
  refine (readIn_congr fun u hu => ?_).trans hi
  have hu' := subterm_mem_terms hindex hu
  have hfree : u ≠ .localVar (indexName name k) .int := by
    rintro rfl
    exact hp.free name k hu'
  unfold knownWith
  rw [if_neg hfree]
  split
  next hlength =>
    subst hlength
    obtain ⟨y, hy⟩ := hp.readBefore_subterm sol hi _ hu
    have ht' := subterm_mem_terms hu' (List.mem_cons_of_mem _ t.self_mem_subterms)
    have hname := (hp.mem_names_iff hw ha ht ht').mp List.mem_cons_self
    have hvalue := hn.spoken t hname hu'
    rw [hy, Option.getD_some] at hvalue
    exact Or.inr ⟨rfl, _, rfl, hvalue ▸ hy⟩
  next => exact Or.inl rfl

/-- The atoms of an index are true when it is the index of the reads that it stands for, and below the length. -/
theorem trueIn_index (sol : Solver.Solution path.hard m v) {n : Int}
    (hn : LengthIs m path p.atoms p.settings.defaultLength a n) {k : Nat} (hk : k < n) (name : String) (j : Nat)
    {rs : List (Term × Term)} (hreads : ∀ r ∈ rs, ReadsAt m path p.atoms a k r.1 r.2) :
    let x := Term.localVar (indexName name j) .int
    ∀ b ∈ rs.map (fun r => Atom.eq r.1 x) ++ [Atom.ge x (.int 0), Atom.lt x (.length t)],
      TrueIn (knownWith m x k (.length t) n) (heapBefore m path) b := by
  intro x b hb
  have hx : readIn (knownWith m x k (.length t) n) (heapBefore m path) x = some (.int k) := if_pos rfl
  rcases List.mem_append.mp hb with hb | hb
  · obtain ⟨r, hr, rfl⟩ := List.mem_map.mp hb
    obtain ⟨base, elem, heq, hmem, -, hi⟩ := hreads r hr
    have hindex : r.1 ∈ p.atoms.flatMap Atom.terms :=
      subterm_mem_terms (heq ▸ hmem) (by simp [Term.subterms, Term.self_mem_subterms])
    exact ⟨_, _, hp.readIn_knownWith hw ha ht sol hn hindex hi, hx, by simp [Atom.eq, Relation.holds]⟩
  · rcases List.mem_pair.mp hb with rfl | rfl
    · refine ⟨_, _, hx, rfl, ?_⟩
      simp only [Atom.ge, Relation.holds, Value.cmp, bne_iff_ne, Int.compare_ne_lt]
      omega
    · have hl : readIn (knownWith m x k (.length t) n) (heapBefore m path) (.length t) = some (.int n) := by
        have hne : Term.length t ≠ x := by simp [x]
        rw [readIn_eq _ _ rfl, knownWith, if_neg hne, if_pos rfl, Option.some_or]
      refine ⟨_, _, hx, hl, ?_⟩
      simp only [Atom.lt, Relation.holds, Value.cmp, beq_iff_eq, Int.compare_eq_lt]
      exact hk

omit ht in
/-- While the entries of an array are resolved, the array has the address that it had before. -/
theorem address?_of_sameBut {u : Work} (hu : u.StandsIn p) (hsame : SameBut t w u) : p.address? u t = some a := by
  rw [← ha, Pass.address?, Pass.address?]
  refine congrArg (·.bind Value.addr?) (hp.eval_congr hu hw fun x hx => hsame x ?_)
  rintro i rfl
  exact indexName_notMem t i hx

theorem entryAt_of_entryFor (sol : Solver.Solution path.hard m v) {n : Int}
    (hn : LengthIs m path p.atoms p.settings.defaultLength a n) (hlt : n < 2 ^ 63) {s : Store} {j : Nat}
    {g : Nat × List (Term × Term)} (hg : g ∈ groupsAt p w a t) {e : Handle × Handle}
    (he : EntryFor p w t (t.ty.element?.getD t.ty) s j g e) : EntryAt m path p.atoms a t n s g.1 e := by
  obtain ⟨k, rs⟩ := g
  obtain ⟨hk, hne, -⟩ := mem_groupReads_iff.mp hg
  rw [hp.lengthAt_eq hw ha ht sol hn hlt] at hk
  have hreads : ∀ {index read : Term}, (index, read) ∈ rs ↔ ReadsAt m path p.atoms a k index read :=
    hp.mem_group_iff hw ha ht hg (by omega)
  constructor
  · have hget : s.get? e.1 = some (.primitive _ (.ofIndex k) _) := he.index
    rw [Value.ofIndex_of_lt (by omega)] at hget
    refine ⟨_, _, hget, fun index read hread => ?_, fun b hb => ?_⟩
    · exact OrderedSet.mem_ofList.mpr (List.mem_append_left _ (List.mem_map.mpr ⟨_, hreads.mpr hread, rfl⟩))
    · exact hp.trueIn_index hw ha ht sol hn (by omega) t.render j (fun r hr => hreads.mp hr) b
        (OrderedSet.mem_ofList.mp hb)
  · intro elem hty hprim
    have href : elem.isReference = false :=
      Bool.eq_false_iff.mpr fun h => Bool.eq_false_iff.mp (Ty.not_isPrimitive_of_isReference h) hprim
    rw [hty] at he
    obtain ⟨u, as, hstep, hsame, hfirst, hget⟩ := he.element href
    obtain ⟨r, rs', rfl⟩ := List.exists_cons_of_ne_nil hne
    have hu := hstep.standsIn hw
    obtain ⟨_, _, _, _, _, hi⟩ := hreads.mp (List.mem_cons_self (a := r) (l := rs'))
    refine ⟨_, _, as, hget, fun index read hread hhard => ?_⟩
    obtain ⟨y, hy⟩ := eval_isSome_of_mem sol hhard
    rw [hp.eval_element sol hu (hp.address?_of_sameBut hw ha hu hsame) (hfirst r rs' rfl) hi,
      hp.heapBefore_of_readsAt sol hread hhard, hy]
    rfl

end Array

/-- An array has one entry for each index that is read, in order. -/
theorem exists_indices (sol : Solver.Solution path.hard m v) (hw : w.StandsIn p) {c : Container} {a : Address}
    (ha : p.address? w c.term = some a) (hc : c.term.isArray = true) {s : Store} (hlaid : LaidOut p w a s c) {n : Int}
    (hn : LengthIs m path p.atoms p.settings.defaultLength a n) (hlt : n < 2 ^ 63) :
    ∃ is : List Int, is.Pairwise (· < ·) ∧
      (∀ i, i ∈ is ↔ 0 ≤ i ∧ i < n ∧ ∃ index read, ReadsAt m path p.atoms a i index read) ∧
      List.Forall₂ (EntryAt m path p.atoms a c.term n s) is c.entries := by
  have hlength := hp.lengthAt_eq hw ha hc sol hn hlt
  have hsorted : ((groupsAt p w a c.term).map (·.1)).Pairwise (· < ·) := pairwise_groups
  refine ⟨(groupsAt p w a c.term).map (fun g => (g.1 : Int)), ?_, fun i => hp.mem_indices_iff hw ha hc hlength hlt, ?_⟩
  · exact List.pairwise_map.mpr ((List.pairwise_map.mp hsorted).imp Int.ofNat_lt.mpr)
  · refine List.forall₂_iff_get.mpr ⟨by rw [List.length_map, hlaid.count], fun i hi hi' => ?_⟩
    rw [List.length_map] at hi
    have hentry := hlaid.entries i _ _ (List.getElem?_eq_getElem hi) (List.getElem?_eq_getElem hi')
    rw [List.get_eq_getElem, List.get_eq_getElem, List.getElem_map]
    exact hp.entryAt_of_entryFor hw ha hc sol hn hlt (List.getElem_mem hi) hentry

end Pass.Initial

/-! ### All arrays of a pass -/

theorem initial_start {settings : Settings} {s : State} {m : Assignment} {v : Solver.Valuation}
    (sol : Solver.Solution s.path.hard m v)
    (hfree : ∀ array n, Term.localVar (indexName array n) .int ∉ (s.path.atoms settings.useSoft).flatMap Atom.terms)
    {snapshot : Snapshot} (hsnapshot : snapshot ≠ .current) :
    (Pass.start settings s m snapshot).atoms = s.path.atoms settings.useSoft ∧
      (Pass.start settings s m snapshot).Initial m s.path := by
  have hcurrent : (Pass.start settings s m snapshot).current = false := beq_eq_false_iff_ne.mpr hsnapshot
  have hatoms : (Pass.start settings s m snapshot).atoms = s.path.atoms settings.useSoft := if_neg (by
    rw [show (snapshot == Snapshot.current) = false from hcurrent]
    exact Bool.false_ne_true)
  refine ⟨hatoms, hcurrent, (seesCall_start sol settings snapshot).toSeesReads, ?_, ?_, ?_⟩
  · intro a ha
    rw [hatoms]
    exact List.mem_append_left _ ha
  · cases snapshot with
    | current => exact absurd rfl hsnapshot
    | _ => rfl
  · rw [hatoms]
    exact hfree

/-- Before the call, an array has exactly the element reads of the path on its address that are below its length, one
entry for each index. -/
theorem run_array_reads (settings : Settings) {s : State} {limit : Nat} {m : Assignment}
    (hm : Solver.check limit s.path false = some m)
    (hfree : ∀ array n, Term.localVar (indexName array n) .int ∉ (s.path.atoms settings.useSoft).flatMap Atom.terms)
    (snapshot : Snapshot) (hsnapshot : snapshot ≠ .current) (values : List Sym) (statics : List (Field × Sym)) :
    let p := Pass.start settings s m snapshot
    let atoms := s.path.atoms settings.useSoft
    let store := (p.run values statics).store
    ∀ k c, store.get? k = some (.container .array c) →
      ∃ a, (resolveValues p (values ++ statics.map (·.2)) {}).2.known.find? a = some k ∧
        ∀ n, LengthIs m s.path atoms settings.defaultLength a n → n < 2 ^ 63 →
          (∃ t as, store.get? c.length = some (.primitive t (.int n.toNat) as)) ∧
          ∃ is : List Int, is.Pairwise (· < ·) ∧
            (∀ i, i ∈ is ↔ 0 ≤ i ∧ i < n ∧ ∃ index read, ReadsAt m s.path atoms a i index read) ∧
            List.Forall₂ (EntryAt m s.path atoms a c.term n store) is c.entries := by
  intro p atoms store k c hc
  rw [Solver.check_hard] at hm
  obtain ⟨v, sol⟩ := Solver.solve_some hm
  obtain ⟨hatoms, hp⟩ := initial_start sol hfree hsnapshot
  have hstore : store = (resolveValues p (values ++ statics.map (·.2)) {}).2.store := by
    rw [resolveValues_append]
    rfl
  rw [hstore] at hc ⊢
  have htraced : (resolveValues p (values ++ statics.map (·.2)) {}).2.Traced p True :=
    (step_start settings s m snapshot _).keep (fun ha => ha.traced) Work.traced_empty
  obtain ⟨a, u, hknown, hu, ha, harray, hlaid⟩ := htraced k c hc
  have hu := hu trivial
  rw [show atoms = p.atoms from hatoms.symm]
  refine ⟨a, hknown, fun n hn hlt => ⟨?_, hp.exists_indices sol hu ha harray hlaid hn hlt⟩⟩
  obtain ⟨as, hget⟩ := hlaid.length
  rw [hp.lengthAt_eq hu ha harray sol hn hlt, Value.ofIndex_of_lt (by omega)] at hget
  exact ⟨_, as, hget⟩

/-- Two names of one array. It is read at a local and at two constants, one of them out of bounds. -/
def twins : State :=
  let a : Term := .param "a" (.array .int)
  let b : Term := .param "b" (.array .int)
  let i : Term := .localVar "i" .int
  { path := { hard := [.ne a .null, .eq b a, .eq (.length b) (.int 4), .eq i (.int 2), .eq (.element a i .int) (.int 9),
    .eq (.element b (.int 2) .int) (.int 9), .eq (.element b (.int 1) .int) (.int 7),
    .eq (.element a (.int 5) .int) (.int 8)] } }

theorem run_array_reads_twins : ∃ m, Solver.check 1000 twins.path false = some m ∧
    let r := (Pass.start {} twins m .initial).run [.ref (.param "a" (.array .int)) none] []
    let atoms := twins.path.atoms false
    ∃ c, r.store.get? ⟨0⟩ = some (.container .array c) ∧ ∃ is : List Int, is.Pairwise (· < ·) ∧
      (∀ i, i ∈ is ↔ 0 ≤ i ∧ i < 4 ∧ ∃ index read, ReadsAt m twins.path atoms ⟨1⟩ i index read) ∧
      List.Forall₂ (EntryAt m twins.path atoms ⟨1⟩ c.term 4 r.store) is c.entries := by
  have hall : ∃ m ∈ Solver.check 1000 twins.path false,
      (((Pass.start {} twins m .initial).run [.ref (.param "a" (.array .int)) none] []).store.get? ⟨0⟩).map
        Model.kindName = some ContainerKind.array.name ∧
      (resolveValues (Pass.start {} twins m .initial) [.ref (.param "a" (.array .int)) none] {}).2.known.entries =
        [(⟨1⟩, ⟨0⟩)] ∧
      readBefore m twins.path (.param "b" (.array .int)) = some (.addr ⟨1⟩) ∧
      Term.length (.param "b" (.array .int)) ∈ (twins.path.atoms false).flatMap Atom.terms ∧
      (∀ t ∈ (twins.path.atoms false).flatMap Atom.terms, .length t ∈ (twins.path.atoms false).flatMap Atom.terms →
        readBefore m twins.path (.length t) = some (.int 4)) ∧
      ∀ t ∈ (twins.path.atoms false).flatMap Atom.terms, t.isVariable = true → t.render.length < 6 := by
    decide +kernel
  obtain ⟨m, hm, hkind, hentries, hb, hspoken, hlengths, hshort⟩ := hall
  obtain ⟨c, hc⟩ := container_of_kindName hkind
  obtain ⟨a, ha, hreads⟩ := run_array_reads {} hm (indexName_notMem_of_short hshort) .initial nofun _ [] ⟨0⟩ c hc
  have hone : a = ⟨1⟩ := by
    rw [List.map_nil, List.append_nil, Table.find?, hentries] at ha
    cases List.mem_singleton.mp (mem_of_lookup ha)
    rfl
  subst hone
  have hname : Names m twins.path ⟨1⟩ (.param "b" (.array .int)) := ⟨rfl, rfl, hb⟩
  have hfour : LengthIs m twins.path (twins.path.atoms false) 100 ⟨1⟩ 4 := by
    refine ⟨fun t _ ht => ?_, fun h => absurd hspoken (h _ hname)⟩
    rw [hlengths t (subterm_mem_terms ht (List.mem_cons_of_mem _ t.self_mem_subterms)) ht]
    rfl
  exact ⟨m, hm, c, hc, (hreads 4 hfour (by decide)).2⟩

end Resolve

end Symex
