import Symex.Proofs.Resolve.Aliased
import Symex.Proofs.Resolve.Truth
import Symex.Proofs.State.Interpretation

/-!
# The atoms of a model after the call

After the call a model keeps the atoms of the path that read nothing overwritten, and has an equation for the last
write at each place. The kept atoms stay true. An equation is about the terms of its write, which were read before
the call: it is true after the call if these terms still read the same, and it need not be if another write has
changed what they read. Main statement: all other atoms of a model are true over the heap after the call.
-/

namespace Symex

/-- What a write says if its terms read the same after the call. -/
def Write.equation (w : Write) : Atom := .eq w.location w.value

namespace Resolve

/-- A place, by the values that lead to it. -/
def Place.spot : Place → Spot
  | .field a f => .field (.addr a) f
  | .element a n => .element (.addr a) (.int n)
  | .length a => .length (.addr a)

/-- An interpretation gives every term of an assignment its value. -/
def Agrees (m : Assignment) (I : Interpretation) : Prop :=
  ∀ ⦃t : Term⦄ ⦃x : Value⦄, m.eval t = some x → I.eval t = x

/-- The place of every write is known. -/
def Placed (m : Assignment) (s : State) : Prop :=
  ∀ w ∈ s.memory.writes, ∃ p, placeOf (readBefore m s.path) w.location = some p

/-- A write is the last one at its place. -/
def Survives (m : Assignment) (s : State) (w : Write) : Prop :=
  ∃ p, s.memory.writes.reverse.find? (fun w => placeOf (readBefore m s.path) w.location = some p) = some w

/-- A term reads the same after the call as before it, and this is known. -/
def Steady (m : Assignment) (s : State) (I : Interpretation) (t : Term) : Prop :=
  readAfter m s t = readBefore m s.path t ∧ I.after s.memory t = I.eval t

instance (m : Assignment) (s : State) (I : Interpretation) (t : Term) : Decidable (Steady m s I t) :=
  inferInstanceAs (Decidable (_ ∧ _))

/-- An atom, with some terms renamed to `t`. -/
def Recast (t : Term) (b a : Atom) : Prop :=
  ∃ names : List Term, a = b.substitute (.ofList (names.map fun k => (k, t)))

/-- The atoms that may be false after the call: equations of writes whose own terms do not read the same any more, and
soft atoms. -/
def Doubtful (settings : Settings) (s : State) (m : Assignment) (I : Interpretation) (t : Term) (a : Atom) : Prop :=
  (∃ w, Survives m s w ∧ Recast t w.equation a ∧
    ∃ u ∈ w.location.subterms.tail ++ w.value.subterms, ¬ Steady m s I u) ∨
  (settings.useSoft = true ∧ ∃ b ∈ s.path.soft, Recast t b a)

/-! ### Places and their values -/

theorem Place.spot_inj {p q : Place} (h : p.spot = q.spot) : p = q := by
  cases p <;> cases q <;> simp_all [spot]

theorem spot_of_place {read : Term → Option Value} {val : Term → Value} {t : Term} {p : Place}
    (hp : placeOf read t = some p) (hv : ∀ u ∈ t.parts, ∀ x, read u = some x → val u = x) :
    t.spot val = some p.spot := by
  cases t with
  | field b f =>
    obtain ⟨a, hb, rfl⟩ := fieldPlace_eq_some.mp hp
    rw [Term.spot, hv b List.mem_cons_self _ hb]
    rfl
  | element b i e =>
    obtain ⟨a, n, hb, hi, rfl⟩ := elementPlace_eq_some.mp hp
    rw [Term.spot, hv b List.mem_cons_self _ hb, hv i (List.mem_cons_of_mem _ List.mem_cons_self) _ hi]
    rfl
  | length b =>
    obtain ⟨a, hb, rfl⟩ := lengthPlace_eq_some.mp hp
    rw [Term.spot, hv b List.mem_cons_self _ hb]
    rfl
  | _ => cases hp

theorem place_of_spot {read : Term → Option Value} {val : Term → Value} {t : Term} {p : Place}
    (ht : t.spot val = some p.spot) (hv : ∀ u ∈ t.parts, read u = some (val u)) : placeOf read t = some p := by
  cases t with
  | field b f =>
    cases p with
    | field a g =>
      injection Option.some.inj ht with hb hf
      exact fieldPlace_eq_some.mpr ⟨a, hb ▸ hv b List.mem_cons_self, hf ▸ rfl⟩
    | _ => cases Option.some.inj ht
  | element b i e =>
    cases p with
    | element a n =>
      injection Option.some.inj ht with hb hi
      exact elementPlace_eq_some.mpr
        ⟨a, n, hb ▸ hv b List.mem_cons_self, hi ▸ hv i (List.mem_cons_of_mem _ List.mem_cons_self), rfl⟩
    | _ => cases Option.some.inj ht
  | length b =>
    cases p with
    | length a =>
      injection Option.some.inj ht with hb
      exact lengthPlace_eq_some.mpr ⟨a, hb ▸ hv b List.mem_cons_self, rfl⟩
    | _ => cases Option.some.inj ht
  | _ => cases ht

theorem placeOf_congr {read read' : Term → Option Value} {t : Term} (h : ∀ u ∈ t.parts, read u = read' u) :
    placeOf read t = placeOf read' t := by
  cases t with
  | field b f => rw [placeOf, placeOf, h b List.mem_cons_self]
  | element a i e =>
    rw [placeOf, placeOf, h a List.mem_cons_self, h i (List.mem_cons_of_mem _ List.mem_cons_self)]
  | length a => rw [placeOf, placeOf, h a List.mem_cons_self]
  | _ => rfl

/-! ### The heap of an interpretation -/

section Agreeing

variable {m : Assignment} {s : State} {v : Solver.Valuation} {I : Interpretation} (hI : Agrees m I)

include hI

theorem Agrees.heap (sol : Solver.Solution s.path.hard m v) {p : Place} {x : Value}
    (hx : heapBefore m s.path p = some x) : I.heap p.spot = x := by
  obtain ⟨u, -, hp, hu⟩ := (heapBefore_eq_some_iff sol).mp hx
  have hspot : u.spot I.eval = some p.spot := spot_of_place hp fun k _ y hy => hI hy
  exact (Term.valueIn_of_spot hspot).symm.trans (hI hu)

theorem Agrees.readBefore (sol : Solver.Solution s.path.hard m v) {t : Term} {x : Value}
    (hx : readBefore m s.path t = some x) : I.eval t = x := by
  induction t using Term.induction_on_parts generalizing x with
  | step t ih =>
    cases hc : t.isConst with
    | true =>
      cases t with
      | const c => exact Option.some.inj hx
      | _ => cases hc
    | false =>
      rw [Resolve.readBefore, readIn_eq _ _ hc, Option.or_eq_some_iff] at hx
      rcases hx with hx | ⟨-, hx⟩
      · rw [← m.eval_of_not_const hc] at hx
        exact hI hx
      · obtain ⟨p, hp, hx⟩ := Option.bind_eq_some_iff.mp hx
        have hspot : t.spot I.eval = some p.spot := spot_of_place hp fun u hu y hy => ih u hu hy
        exact (Term.valueIn_of_spot hspot).trans (hI.heap sol hx)

theorem Agrees.spot (sol : Solver.Solution s.path.hard m v) {w : Write} {p : Place}
    (hp : placeOf (Resolve.readBefore m s.path) w.location = some p) : I.spot w = p.spot := by
  have hspot : w.location.spot I.eval = some p.spot := spot_of_place hp fun u _ y hy => hI.readBefore sol hy
  rw [I.spot_location] at hspot
  exact Option.some.inj hspot

theorem Agrees.heapAfter (sol : Solver.Solution s.path.hard m v) (hw : Placed m s) {h : Heap} (hs : SeesCall m s h)
    (p : Place) : I.heapAfter s.memory p.spot = ((h.writes.find? p).map I.eval).getD (I.heap p.spot) := by
  rw [hs.last, List.find?_eq_findSome?_guard, List.map_findSome?]
  refine I.heapAfter_of_select ?_
  intro w hmem
  rw [Function.comp_apply, Option.map_guard]
  refine if_congr (decide_eq_true_iff.trans ⟨?_, ?_⟩) rfl rfl
  · intro hp
    exact (hI.spot sol hp).symm
  · intro he
    obtain ⟨q, hq⟩ := hw w hmem
    rw [hI.spot sol hq] at he
    rw [hq, Place.spot_inj he]

/-- A solved read that shares its place with a write has a place that is known to be written. -/
theorem Agrees.written (sol : Solver.Solution s.path.hard m v) (hw : Placed m s) {w : Write}
    (hmem : w ∈ s.memory.writes) {t : Term} (ht : t ∈ s.path.hard.flatMap Atom.terms)
    (he : t.spot I.eval = some (I.spot w)) :
    ∃ p, placeOf (Resolve.readBefore m s.path) t = some p ∧ Written m s p := by
  obtain ⟨p, hp⟩ := hw w hmem
  rw [hI.spot sol hp] at he
  refine ⟨p, place_of_spot he ?_, w, hmem, hp⟩
  intro u hu
  obtain ⟨x, hx, -⟩ := exists_readBefore_of_mem sol (part_mem_terms ht hu)
  rw [hx, hI.readBefore sol hx]

end Agreeing

/-! ### Terms that read the same -/

section Called

variable {m : Assignment} {s : State} {v : Solver.Valuation} {h : Heap} {I : Interpretation}
  (sol : Solver.Solution s.path.hard m v) (hw : Placed m s) (hs : SeesCall m s h) (hI : Agrees m I)

section

include hs

/-- Evaluation over the current snapshot, where the parts of a term evaluate as before the call. -/
theorem SeesCall.after_of_parts {t : Term} (hparts : ∀ u ∈ t.parts, h.after {} u = readBefore m s.path u) :
    h.after {} t = match (placeOf (readBefore m s.path) t).bind h.writes.find? with
      | some u => readBefore m s.path u
      | none => readBefore m s.path t := by
  cases hc : t.isConst with
  | true =>
    cases t with
    | const c => rfl
    | _ => cases hc
  | false =>
    have heval : h.after {} t =
        h.valueAt (fun p => (h.writes.find? p).map (h.before {})) t (placeOf (readBefore m s.path) t) := by
      rw [← placeOf_congr hparts]
      exact evalLayer_eq _ _ _ hc
    have hbefore : readBefore m s.path t =
        (m.find? t).or ((placeOf (readBefore m s.path) t).bind (heapBefore m s.path)) := readIn_eq _ _ hc
    rw [heval, Heap.valueAt, hs.assignment, m.eval_of_not_const hc, hbefore]
    cases placeOf (readBefore m s.path) t with
    | none => rfl
    | some p =>
      simp only [Option.bind_some, hs.value p]
      cases h.writes.find? p with
      | none => rfl
      | some u => exact hs.before_eq u

theorem SeesCall.after_of_free {t : Term}
    (ht : ∀ u ∈ t.subterms, ∀ p, placeOf (readBefore m s.path) u = some p → h.writes.find? p = none) :
    h.after {} t = readBefore m s.path t := by
  induction t using Term.induction_on_parts with
  | step t ih =>
    rw [hs.after_of_parts fun u hu => ih u hu fun k hk => ht k (List.mem_of_mem_tail (Term.mem_tail_of_part hu hk))]
    cases hp : placeOf (readBefore m s.path) t with
    | none => rfl
    | some p => rw [Option.bind_some, ht t t.self_mem_subterms p hp]

theorem SeesCall.after_of_steady {t : Term} (ht : ∀ u ∈ t.subterms, readAfter m s u = readBefore m s.path u) :
    h.after {} t = readBefore m s.path t := by
  induction t using Term.induction_on_parts with
  | step t ih =>
    have hsub : ∀ u ∈ t.parts, ∀ k ∈ u.subterms, k ∈ t.subterms :=
      fun u hu k hk => List.mem_of_mem_tail (Term.mem_tail_of_part hu hk)
    rw [hs.after_of_parts fun u hu => ih u hu fun k hk => ht k (hsub u hu k hk)]
    have hplace : placeOf (readAfter m s) t = placeOf (readBefore m s.path) t :=
      placeOf_congr fun u hu => ht u (hsub u hu u u.self_mem_subterms)
    cases hp : placeOf (readBefore m s.path) t with
    | none => rfl
    | some p =>
      rw [Option.bind_some]
      cases hf : h.writes.find? p with
      | none => rfl
      | some u =>
        -- The place was overwritten, so the term reads what was written; as it is steady, this is what it read before.
        rw [hp] at hplace
        have hread : readAfter m s t = heapAfter m s p := by
          rw [readAfter, readIn_eq _ _ (isConst_of_place hp), variableValue_of_place hp, Option.none_or]
          exact congrArg (Option.bind · (heapAfter m s)) hplace
        rw [← ht t t.self_mem_subterms, hread, (hs.written hf).2.1]

end

include sol hw hs hI

theorem after_eq_of_free {t : Term} (hmem : t ∈ s.path.hard.flatMap Atom.terms)
    (ht : ∀ u ∈ t.subterms, ∀ p, placeOf (readBefore m s.path) u = some p → h.writes.find? p = none) :
    I.after s.memory t = I.eval t := by
  induction t using Term.induction_on_parts with
  | step t ih =>
    refine I.after_eq_eval ?_ ?_
    · intro u hu
      exact ih u hu (part_mem_terms hmem hu) fun k hk => ht k (List.mem_of_mem_tail (Term.mem_tail_of_part hu hk))
    · intro w hwrite he
      obtain ⟨p, hp, hwritten⟩ := hI.written sol hw hwrite hmem he
      exact (hs.free (ht t t.self_mem_subterms p hp)).1 hwritten

/-- What evaluation over the current snapshot finds is right, if it is for the parts. -/
theorem after_of_known {t : Term} (hparts : ∀ u ∈ t.parts, h.after {} u = readBefore m s.path u)
    (hsame : ∀ u ∈ t.parts, I.after s.memory u = I.eval u) {x : Value} (hx : h.after {} t = some x) :
    I.after s.memory t = x := by
  rw [hs.after_of_parts hparts] at hx
  cases hp : placeOf (readBefore m s.path) t with
  | none =>
    rw [hp] at hx
    refine (I.after_eq_eval hsame ?_).trans (hI.readBefore sol hx)
    -- A read without a place is solved, so no write can be where it looks.
    intro w hwrite he
    have hc : t.isConst = false := by
      cases t with
      | const c => cases he
      | _ => rfl
    have hfind : m.eval t = some x := by
      have hread := (readIn_eq m.find? (heapBefore m s.path) hc).symm.trans hx
      have hnone : placeOf (readIn m.find? (heapBefore m s.path)) t = none := hp
      rw [hnone, Option.bind_none, Option.or_none] at hread
      rw [m.eval_of_not_const hc]
      exact hread
    obtain ⟨p, hp', -⟩ := hI.written sol hw hwrite (mem_of_eval_read sol hc hfind) he
    rw [hp] at hp'
    cases hp'
  | some p =>
    have hspot : t.spot I.eval = some p.spot := spot_of_place hp fun u _ y hy => hI.readBefore sol hy
    have hafter : I.after s.memory t = I.heapAfter s.memory p.spot := by
      refine Term.valueIn_of_spot ?_
      rw [← hspot]
      exact Term.spot_congr hsame
    rw [hafter, hI.heapAfter sol hw hs]
    rw [hp, Option.bind_some] at hx
    cases hf : h.writes.find? p with
    | some u =>
      rw [hf] at hx
      exact hI.readBefore sol hx
    | none =>
      rw [hf] at hx
      exact (Term.valueIn_of_spot hspot).symm.trans (hI.readBefore sol hx)

theorem after_location {w : Write} (hlast : Survives m s w)
    (hsame : ∀ u ∈ w.location.parts, I.after s.memory u = I.eval u) : I.after s.memory w.location = I.eval w.value := by
  obtain ⟨p, hp⟩ := hlast
  have hplace : placeOf (readBefore m s.path) w.location = some p := by simpa using List.find?_some hp
  have hspot : w.location.spot I.eval = some p.spot := spot_of_place hplace fun u _ y hy => hI.readBefore sol hy
  have hafter : I.after s.memory w.location = I.heapAfter s.memory p.spot := by
    refine Term.valueIn_of_spot ?_
    rw [← hspot]
    exact Term.spot_congr hsame
  rw [hafter, hI.heapAfter sol hw hs, hs.last, hp]
  rfl

end Called

/-! ### The atoms of a pass -/

theorem exists_mem_latest_iff {m : Assignment} {s : State} {h : Heap} (hs : SeesReads m s.path h) {w : Write} :
    (∃ e ∈ h.latest s.memory.writes, e.2 = w) ↔ Survives m s w := by
  have hlookup : ∀ p, (h.latest s.memory.writes).lookup p =
      s.memory.writes.reverse.find? fun w => placeOf (readBefore m s.path) w.location = some p := by
    intro p
    rw [lookup_latest]
    simp only [hs.writePlace_eq]
  constructor
  · rintro ⟨⟨p, w⟩, he, rfl⟩
    exact ⟨p, (hlookup p).symm.trans (lookup_of_mem (nodup_latest h _) he)⟩
  · rintro ⟨p, hp⟩
    exact ⟨(p, w), mem_of_lookup ((hlookup p).trans hp), rfl⟩

section Started

variable {m : Assignment} {s : State} {v : Solver.Valuation}

theorem mem_atoms_start (sol : Solver.Solution s.path.hard m v) (settings : Settings) {a : Atom} :
    a ∈ (Pass.start settings s m .current).atoms ↔
      (a ∈ s.path.atoms settings.useSoft ∧ overwritten (Pass.start settings s m .current).heap a = false) ∨
        ∃ w, Survives m s w ∧ a = w.equation := by
  refine mem_currentAtoms.trans (or_congr Iff.rfl ?_)
  constructor
  · rintro ⟨e, he, rfl⟩
    exact ⟨e.2, (exists_mem_latest_iff (seesReads_start sol settings)).mp ⟨e, he, rfl⟩, rfl⟩
  · rintro ⟨w, hw, rfl⟩
    obtain ⟨e, he, rfl⟩ := (exists_mem_latest_iff (seesReads_start sol settings)).mpr hw
    exact ⟨e, he, rfl⟩

theorem free_of_not_overwritten {h : Heap} (hs : SeesCall m s h) {a : Atom} (ha : overwritten h a = false) :
    ∀ t ∈ a.terms, ∀ p, placeOf (readBefore m s.path) t = some p → h.writes.find? p = none := by
  intro t ht p hp
  have hplace : h.place t = some p := by
    rw [Heap.place, ← hp]
    exact placeOf_congr fun u _ => hs.before_eq u
  have hnot := List.any_eq_false.mp ha t ht
  rw [hplace] at hnot
  simpa [Table.contains] using hnot

variable {h : Heap} {I : Interpretation} (hI : Agrees m I) (sol : Solver.Solution s.path.hard m v) (hw : Placed m s)
  (hs : SeesCall m s h)

include hI

/-- An atom stays true or false if terms with the address of `t` are renamed to `t`. -/
theorem trueIn_canonical {t : Term} (hv : t.isVariable = true) {names : List Term}
    (hnames : ∀ k ∈ names, k = t ∨ ∃ c, m.eval t = some (.addr c) ∧ h.after {} k = some (.addr c)) {b : Atom}
    (hb : ∀ k ∈ b.terms, ∀ x, h.after {} k = some x → I.after s.memory k = x) :
    (b.substitute (.ofList ((names.filter (· ≠ t)).map fun k => (k, t)))).TrueIn I.env (I.heapAfter s.memory) ↔
      b.TrueIn I.env (I.heapAfter s.memory) := by
  refine Atom.trueIn_substitute ?_
  intro k hk u hu
  obtain ⟨hmem, -, rfl⟩ := find?_names_iff.mp hu
  rcases hnames k hmem with rfl | ⟨c, hc, hkc⟩
  · rfl
  · have ht : I.after s.memory u = I.eval u :=
      (Term.valueIn_of_isVariable hv _ _).trans (Term.valueIn_of_isVariable hv _ _).symm
    exact (ht.trans (hI hc)).trans (hb k hk _ hkc).symm

include sol hw hs

/-- A hard atom that reads nothing overwritten stays true, and the addresses of its terms are found. -/
theorem trueIn_kept {a : Atom} (ha : a ∈ s.path.hard) (hkept : overwritten h a = false) :
    a.TrueIn I.env (I.heapAfter s.memory) ∧ ∀ k ∈ a.terms, ∀ x, h.after {} k = some x → I.after s.memory k = x := by
  have hmem : ∀ k ∈ a.terms, k ∈ s.path.hard.flatMap Atom.terms := fun k hk => List.mem_flatMap.mpr ⟨a, ha, hk⟩
  have hfree : ∀ k ∈ a.terms, ∀ u ∈ k.subterms, ∀ p, placeOf (readBefore m s.path) u = some p →
      h.writes.find? p = none :=
    fun k hk u hu => free_of_not_overwritten hs hkept u (Atom.mem_terms_of_subterm hk hu)
  have hsame : ∀ k ∈ a.terms, I.after s.memory k = I.eval k :=
    fun k hk => after_eq_of_free sol hw hs hI (hmem k hk) (hfree k hk)
  constructor
  · have hl : a.lhs ∈ a.terms := List.mem_append_left _ a.lhs.self_mem_subterms
    have hr : a.rhs ∈ a.terms := List.mem_append_right _ a.rhs.self_mem_subterms
    obtain ⟨x, hx⟩ := eval_isSome_of_mem sol (hmem _ hl)
    obtain ⟨y, hy⟩ := eval_isSome_of_mem sol (hmem _ hr)
    have hxl : a.lhs.valueIn I.env (I.heapAfter s.memory) = x := (hsame _ hl).trans (hI hx)
    have hyr : a.rhs.valueIn I.env (I.heapAfter s.memory) = y := (hsame _ hr).trans (hI hy)
    have hholds := sol.holds ha
    rw [Assignment.holds, hx, hy] at hholds
    rw [Atom.TrueIn, hxl, hyr]
    exact Option.some.inj hholds
  · intro k hk x hx
    rw [hs.after_of_free (hfree k hk)] at hx
    rw [hsame k hk, hI.readBefore sol hx]

/-- The equation of a write is true exactly if the written term still reads the same, as long as the terms below it
and below the location do. -/
theorem trueIn_equation {w : Write} (hlast : Survives m s w)
    (hsteady : ∀ u ∈ w.location.subterms.tail ++ w.value.subterms.tail, Steady m s I u) :
    (w.equation.TrueIn I.env (I.heapAfter s.memory) ↔ I.after s.memory w.value = I.eval w.value) ∧
      ∀ k ∈ w.equation.terms, ∀ x, h.after {} k = some x → I.after s.memory k = x := by
  have hbelow : ∀ k ∈ w.equation.terms, ∀ u ∈ k.parts, ∀ c ∈ u.subterms, Steady m s I c := by
    intro k hk u hu c hc
    apply hsteady
    rcases List.mem_append.mp hk with hk | hk
    · exact List.mem_append_left _ (Term.mem_tail_of_subterm hk hu hc)
    · exact List.mem_append_right _ (Term.mem_tail_of_subterm hk hu hc)
  constructor
  · have hloc : I.after s.memory w.location = I.eval w.value :=
      after_location sol hw hs hI hlast fun u hu =>
        (hbelow _ (List.mem_append_left _ w.location.self_mem_subterms) u hu u u.self_mem_subterms).2
    have htrue : w.equation.TrueIn I.env (I.heapAfter s.memory) ↔
        I.after s.memory w.location = I.after s.memory w.value := beq_iff_eq
    rw [htrue, hloc, eq_comm]
  · intro k hk x hx
    refine after_of_known sol hw hs hI ?_ ?_ hx
    · intro u hu
      exact hs.after_of_steady fun c hc => (hbelow k hk u hu c hc).1
    · intro u hu
      exact (hbelow k hk u hu u u.self_mem_subterms).2

end Started

/-! ### An interpretation for every solved path -/

/-- The interpretation that knows no more than an assignment; all else is null. -/
def filled (m : Assignment) (path : Path) : Interpretation where
  env t := (m.eval t).getD .null
  heap q := (((path.hard.flatMap Atom.terms).find? fun t => t.spot (fun u => (m.eval u).getD .null) = some q).bind
    m.eval).getD .null

/-- Two reads at one place find the same, if the assignment describes a heap. -/
theorem eval_eq_of_spot {m : Assignment} (hm : m.Functional) {val : Term → Value} {t u : Term} {q : Spot} {x y : Value}
    (ht : t.spot val = some q) (hu : u.spot val = some q) (htp : ∀ k ∈ t.parts, m.eval k = some (val k))
    (hup : ∀ k ∈ u.parts, m.eval k = some (val k)) (hx : m.eval t = some x) (hy : m.eval u = some y) : x = y := by
  have hq := ht.trans hu.symm
  cases t with
  | field b f =>
    cases u with
    | field c g =>
      injection Option.some.inj hq with hb hf
      subst hf
      exact hm.field (htp b List.mem_cons_self) (hb ▸ hup c List.mem_cons_self) hx hy
    | _ => cases hq
  | element b i e =>
    cases u with
    | element c j e' =>
      injection Option.some.inj hq with hb hi
      exact hm.element (htp b List.mem_cons_self) (hb ▸ hup c List.mem_cons_self)
        (htp i (List.mem_cons_of_mem _ List.mem_cons_self))
        (hi ▸ hup j (List.mem_cons_of_mem _ List.mem_cons_self)) hx hy
    | _ => cases hq
  | length b =>
    cases u with
    | length c =>
      injection Option.some.inj hq with hb
      exact hm.length (htp b List.mem_cons_self) (hb ▸ hup c List.mem_cons_self) hx hy
    | _ => cases hq
  | _ => cases ht

theorem agrees_filled {m : Assignment} {path : Path} {v : Solver.Valuation} (sol : Solver.Solution path.hard m v) :
    Agrees m (filled m path) := by
  have hknown : ∀ t ∈ path.hard.flatMap Atom.terms, m.eval t = some ((m.eval t).getD .null) := by
    intro t ht
    obtain ⟨x, hx⟩ := eval_isSome_of_mem sol ht
    rw [hx, Option.getD_some]
  intro t
  induction t using Term.induction_on_parts with
  | step t ih =>
    intro x hx
    cases hc : t.isConst with
    | true =>
      cases t with
      | const c => exact Option.some.inj hx
      | _ => cases hc
    | false =>
      have hmem := mem_of_eval_read sol hc hx
      have hspot : t.spot (filled m path).eval = t.spot fun u => (m.eval u).getD .null :=
        Term.spot_congr fun u hu => ih u hu (hknown u (part_mem_terms hmem hu))
      cases hq : t.spot (filled m path).eval with
      | none =>
        have henv : (filled m path).eval t = (m.eval t).getD .null := by
          cases t with
          | field | element | length => cases hq
          | const c => cases hc
          | _ => rfl
        rw [henv, hx, Option.getD_some]
      | some q =>
        -- The first read at the place need not be this one, but it finds the same.
        rw [hq] at hspot
        refine (Term.valueIn_of_spot hq).trans ?_
        have hsome : ((path.hard.flatMap Atom.terms).find? fun t =>
            t.spot (fun u => (m.eval u).getD .null) = some q).isSome := by
          rw [List.find?_isSome]
          exact ⟨t, hmem, by simpa using hspot.symm⟩
        obtain ⟨u, hu⟩ := Option.isSome_iff_exists.mp hsome
        have humem := List.mem_of_find?_eq_some hu
        have huspot : u.spot (fun u => (m.eval u).getD .null) = some q := by simpa using List.find?_some hu
        have huq := hknown u humem
        have hxy := eval_eq_of_spot sol.isFunctional hspot.symm huspot
          (fun k hk => hknown k (part_mem_terms hmem hk)) (fun k hk => hknown k (part_mem_terms humem hk)) hx huq
        show Option.getD (Option.bind _ m.eval) Value.null = x
        rw [hu, Option.bind_some, huq, hxy]
        rfl

theorem agrees_of_check {limit : Nat} {m : Assignment} {path : Path} (hm : Solver.check limit path false = some m) :
    Agrees m (filled m path) := by
  rw [Solver.check_hard] at hm
  obtain ⟨v, sol⟩ := Solver.solve_some hm
  exact agrees_filled sol

/-! ### Models after the call -/

/-- A requested reference has a model, whose atoms are those about it and its aliases under one name. -/
theorem exists_current_model (settings : Settings) (s : State) (m : Assignment) {values : List Sym} {i : Nat} {t : Term}
    {wrapper : Option Wrapper} (ht : values[i]? = some (.ref t wrapper)) (hv : t.isVariable = true)
    (hr : t.isReference = true) :
    ∃ h model, (resolve settings s m .current values).params[i]? = some h ∧
      (resolve settings s m .current values).store.get? h = some model ∧
      ∀ as, model.atoms? = some as → ∃ ts names, t ∈ ts ∧
        as = canonical ((Pass.start settings s m .current).about ts) t names ∧
        ∀ k ∈ names, k = t ∨ ∃ c, m.eval t = some (.addr c) ∧
          (Pass.start settings s m .current).heap.after {} k = some (.addr c) := by
  obtain ⟨hget, hbefore, hafter⟩ := resolveValues_split True (fun _ => ample_start settings s m .current) ht
    fun _ => Work.standsIn_empty _
  have hstands := hbefore.standsIn (Work.standsIn_empty _)
  obtain ⟨n, hn⟩ := exists_budget (Pass.start settings s m .current) t
  rw [resolveValue, hn] at hget hafter
  obtain ⟨model, hmodel, hmodels⟩ := atoms_resolveReference (Pass.start settings s m .current) n wrapper t
    (resolveValues (Pass.start settings s m .current) (values.take i) {}).2
  refine ⟨_, model, hget, hafter.extended.get?_some hmodel, ?_⟩
  intro as has
  rcases hmodels as has with rfl | ⟨c, hc, rfl⟩
  · refine ⟨[t], [], List.mem_cons_self, ?_, fun k hk => by cases hk⟩
    rw [canonical, List.map_congr_left fun b _ => b.substitute_empty, List.map_id']
  · refine ⟨_, _, List.mem_cons_self, rfl, ?_⟩
    intro k hk
    rcases List.mem_cons.mp hk with rfl | hk
    · exact Or.inl rfl
    · obtain ⟨⟨d, z⟩, hd, rfl⟩ := List.mem_map.mp hk
      have hdc : d = c := by simpa using (List.mem_filter.mp hd).2
      have ha := address?_of_variable hstands hv hr
      rw [hc] at ha
      exact Or.inr ⟨c, eq_addr_of_addr? ha.symm, hdc ▸ mem_nameTerms (List.mem_filter.mp hd).1⟩

/-- Of the atoms of a model after the call, all are true over the heap after the call except equations of writes whose
own terms do not read the same any more, and soft atoms. If only the written term itself reads something else, then
the equation is false. -/
theorem resolve_current_atoms {settings : Settings} {s : State} {limit : Nat} {m : Assignment}
    (hm : Solver.check limit s.path false = some m) (hw : Placed m s) {values : List Sym} {i : Nat} {t : Term}
    {wrapper : Option Wrapper} (ht : values[i]? = some (.ref t wrapper)) (hv : t.isVariable = true)
    (hr : t.isReference = true) :
    ∃ h model, (resolve settings s m .current values).params[i]? = some h ∧
      (resolve settings s m .current values).store.get? h = some model ∧
      ∀ as, model.atoms? = some as → ∀ I, Agrees m I →
        (∀ a ∈ as, a.TrueIn I.env (I.heapAfter s.memory) ∨ Doubtful settings s m I t a) ∧
        ∀ w, Survives m s w → w.equation.mentions t = true →
          (∀ u ∈ w.location.subterms.tail ++ w.value.subterms.tail, Steady m s I u) →
          ∃ a ∈ as, Recast t w.equation a ∧
            (a.TrueIn I.env (I.heapAfter s.memory) ↔ I.after s.memory w.value = I.eval w.value) := by
  rw [Solver.check_hard] at hm
  obtain ⟨v, sol⟩ := Solver.solve_some hm
  have hs := seesCall_start sol settings .current
  obtain ⟨h, model, hget, hmodel, hatoms⟩ := exists_current_model settings s m ht hv hr
  refine ⟨h, model, hget, hmodel, fun as has I hI => ?_⟩
  obtain ⟨ts, names, hts, rfl, hnames⟩ := hatoms as has
  constructor
  · intro a ha
    obtain ⟨b, hb, rfl⟩ := List.mem_map.mp (OrderedSet.mem_ofList.mp ha)
    rcases (mem_atoms_start sol settings).mp (List.mem_filter.mp hb).1 with ⟨hpath, hkept⟩ | ⟨w, hlast, rfl⟩
    · rcases List.mem_append.mp hpath with hhard | hsoft
      · obtain ⟨htrue, hright⟩ := trueIn_kept hI sol hw hs hhard hkept
        exact Or.inl ((trueIn_canonical hI hv hnames hright).mpr htrue)
      · split at hsoft
        next huse => exact Or.inr (Or.inr ⟨huse, b, hsoft, _, rfl⟩)
        next => cases hsoft
    · by_cases hsteady : ∀ u ∈ w.location.subterms.tail ++ w.value.subterms, Steady m s I u
      · have hbelow : ∀ u ∈ w.location.subterms.tail ++ w.value.subterms.tail, Steady m s I u := by
          intro u hu
          apply hsteady
          rcases List.mem_append.mp hu with hu | hu
          · exact List.mem_append_left _ hu
          · exact List.mem_append_right _ (List.mem_of_mem_tail hu)
        obtain ⟨hiff, hright⟩ := trueIn_equation hI sol hw hs hlast hbelow
        have hvalue := (hsteady _ (List.mem_append_right _ w.value.self_mem_subterms)).2
        exact Or.inl ((trueIn_canonical hI hv hnames hright).mpr (hiff.mpr hvalue))
      · push Not at hsteady
        exact Or.inr (Or.inl ⟨w, hlast, ⟨_, rfl⟩, hsteady⟩)
  · intro w hlast hmentions hsteady
    obtain ⟨hiff, hright⟩ := trueIn_equation hI sol hw hs hlast hsteady
    refine ⟨_, OrderedSet.mem_ofList.mpr (List.mem_map.mpr ⟨w.equation, ?_, rfl⟩), ⟨_, rfl⟩,
      (trueIn_canonical hI hv hnames hright).trans hiff⟩
    have hmem := (mem_atoms_start sol settings).mpr (Or.inr ⟨w, hlast, rfl⟩)
    exact List.mem_filter.mpr ⟨hmem, List.any_eq_true.mpr ⟨t, hts, hmentions⟩⟩

/-- A node `x`, also called `z`, gets `y` as its tail, whose item becomes the rank of `x`. -/
def appended : State :=
  let node : Ty := .object "Node"
  let next : Field := ⟨"Node", "next", node⟩
  let item : Field := ⟨"Node", "item", .int⟩
  let rank : Field := ⟨"Node", "rank", .int⟩
  let x : Term := .param "x" node
  let y : Term := .param "y" node
  let z : Term := .param "z" node
  { path := { hard := [.ne x .null, .ne y .null, .ne x y, .eq z x, .eq (.field x rank) (.int 3),
      .eq (.field y item) (.int 1)] }
    memory := { writes := [.field z next .null, .field z next y, .field y item (.field x rank)] } }

/-- The second node and the first. -/
def appendedNodes : List Sym := [.ref (.param "y" (.object "Node")) none, .ref (.param "x" (.object "Node")) none]

theorem resolve_current_atoms_appended : ∃ m I, Solver.check 1000 appended.path false = some m ∧ Placed m appended ∧
    Agrees m I ∧ ∃ h model as, (resolve {} appended m .current appendedNodes).params[1]? = some h ∧
      (resolve {} appended m .current appendedNodes).store.get? h = some model ∧ model.atoms? = some as ∧
      as.toList.length = 6 ∧ ∀ a ∈ as, a.TrueIn I.env (I.heapAfter appended.memory) := by
  have hall : ∃ m ∈ Solver.check 1000 appended.path false,
      (∀ w ∈ appended.memory.writes, (placeOf (readBefore m appended.path) w.location).isSome) ∧
      (∀ w ∈ appended.memory.writes, ∀ u ∈ w.location.subterms.tail ++ w.value.subterms,
        Steady m appended (filled m appended.path) u) ∧
      ∃ h ∈ (resolve {} appended m .current appendedNodes).params[1]?,
        ∃ model ∈ (resolve {} appended m .current appendedNodes).store.get? h,
          ∃ as ∈ model.atoms?, as.toList.length = 6 := by
    decide +kernel
  obtain ⟨m, hm, hplaced, hsteady, h, hh, model, hmodel, as, has, hlen⟩ := hall
  have hw : Placed m appended := fun w hw => Option.isSome_iff_exists.mp (hplaced w hw)
  have hI := agrees_of_check hm
  refine ⟨m, _, hm, hw, hI, h, model, as, hh, hmodel, has, hlen, ?_⟩
  have ht : appendedNodes[1]? = some (.ref (.param "x" (.object "Node")) none) := rfl
  obtain ⟨h', model', hh', hmodel', hatoms⟩ := resolve_current_atoms hm hw ht rfl rfl
  cases hh.symm.trans hh'
  cases hmodel.symm.trans hmodel'
  intro a ha
  rcases (hatoms as has _ hI).1 a ha with htrue | ⟨w, ⟨p, hp⟩, -, u, hu, hnot⟩ | ⟨huse, -⟩
  · exact htrue
  · exact absurd (hsteady w (List.mem_reverse.mp (List.mem_of_find?_eq_some hp)) u hu) hnot
  · cases huse

/-- A field takes over the value of another one, which is then overwritten. -/
def handedOver : State :=
  let x : Term := .param "x" (.object "A")
  let f : Field := ⟨"A", "f", .int⟩
  let g : Field := ⟨"A", "g", .int⟩
  { path := { hard := [.ne x .null, .eq (.field x g) (.int 3)] }
    memory := { writes := [.field x f (.field x g), .field x g (.int 7)] } }

/-- The tail of a node gets the item `5`, and then `y` becomes the tail. -/
def replaced : State :=
  let node : Ty := .object "Node"
  let next : Field := ⟨"Node", "next", node⟩
  let item : Field := ⟨"Node", "item", .int⟩
  let x : Term := .param "x" node
  let y : Term := .param "y" node
  { path := { hard := [.ne x .null, .ne y .null, .ne (.field x next) .null, .ne (.field x next) y,
      .eq (.field y item) (.int 2)] }
    memory := { writes := [.field (.field x next) item (.int 5), .field x next y] } }

/-- A soft atom that contradicts the hard ones. -/
def wished : State :=
  let x : Term := .param "x" (.object "A")
  let g : Field := ⟨"A", "g", .int⟩
  { path := { hard := [.ne x .null, .eq (.field x g) (.int 3)], soft := [.eq (.field x g) (.int 4)] } }

/-- The model of the parameter `x` after the call has a false atom. -/
def Misdescribed (settings : Settings) (s : State) (ty : Ty) : Prop :=
  ∃ m I, Solver.check 1000 s.path false = some m ∧ Placed m s ∧ Agrees m I ∧ ∃ as,
    (resolve settings s m .current [.ref (.param "x" ty) none]).params[0]? = some ⟨0⟩ ∧
    (resolve settings s m .current [.ref (.param "x" ty) none]).store.get? ⟨0⟩ = some (.object (.param "x" ty) as) ∧
    ∃ a ∈ as, ¬ a.TrueIn I.env (I.heapAfter s.memory)

theorem misdescribed_of {settings : Settings} {s : State} {ty : Ty}
    (h : ∃ m ∈ Solver.check 1000 s.path false,
      (∀ w ∈ s.memory.writes, (placeOf (readBefore m s.path) w.location).isSome) ∧
      (resolve settings s m .current [.ref (.param "x" ty) none]).params[0]? = some ⟨0⟩ ∧
      ∃ model ∈ (resolve settings s m .current [.ref (.param "x" ty) none]).store.get? ⟨0⟩,
        ∃ as ∈ model.atoms?, model = .object (.param "x" ty) as ∧
          ∃ a ∈ as.toList, ¬ a.TrueIn (filled m s.path).env ((filled m s.path).heapAfter s.memory)) :
    Misdescribed settings s ty := by
  obtain ⟨m, hm, hplaced, hparams, model, hmodel, as, -, rfl, hfalse⟩ := h
  exact ⟨m, _, hm, fun w hw => Option.isSome_iff_exists.mp (hplaced w hw), agrees_of_check hm, as, hparams, hmodel,
    hfalse⟩

/-- The old value of the overwritten field, the item of the old tail and the soft atom are taken to be as they are
not. -/
theorem resolve_current_atoms_outdated : Misdescribed {} handedOver (.object "A") ∧
    Misdescribed {} replaced (.object "Node") ∧ Misdescribed { useSoft := true } wished (.object "A") := by
  refine ⟨misdescribed_of ?_, misdescribed_of ?_, misdescribed_of ?_⟩
  · decide +kernel
  · decide +kernel
  · decide +kernel

end Resolve

end Symex
