import Mathlib.Data.List.Induction
import Symex.Proofs.Resolve.Built
import Symex.Proofs.Solver.Soundness
import Symex.Proofs.Term.Parts

/-!
# Reading the heap after the call

A solved path describes the heap before the call, and the writes turn it into the heap after the call. A pass over
the current snapshot reads that heap, except for one case: a read that stands on the path keeps the value it had
before the call if the place it now looks at is not written, even where it used to look at another place.
-/

namespace Symex

namespace Resolve

/-- What the places of a heap hold, as far as it is known. -/
abbrev Contents := Place → Option Value

/-- The value of a term in a heap, where `known` is what is known without looking. -/
def readIn (known : Term → Option Value) (c : Contents) : Term → Option Value
  | .const v => some v
  | t@(.field b f) => (known t).or ((fieldPlace (readIn known c b) f).bind c)
  | t@(.element a i _) => (known t).or ((elementPlace (readIn known c a) (readIn known c i)).bind c)
  | t@(.length a) => (known t).or ((lengthPlace (readIn known c a)).bind c)
  | t => known t

/-- The values of parameters, locals and static fields; nothing about the heap. -/
def variableValue (m : Assignment) : Term → Option Value
  | .const _ | .field .. | .element .. | .length _ => none
  | t => m.find? t

/-- The heap before the call: the first read of the path at each place says what is there. -/
def heapBefore (m : Assignment) (path : Path) : Contents := fun p =>
  ((path.hard.flatMap Atom.terms).find? fun t => placeOf m.eval t = some p).bind m.eval

/-- The value of a term over the heap before the call. -/
def readBefore (m : Assignment) (path : Path) : Term → Option Value := readIn m.find? (heapBefore m path)

/-- One write, with its terms read by `read`. A write to an unknown place does nothing. -/
def perform (read : Term → Option Value) (c : Contents) (w : Write) : Contents :=
  match placeOf read w.location with
  | some p => fun q => if q = p then read w.value else c q
  | none => c

/-- The heap after the call. -/
def heapAfter (m : Assignment) (s : State) : Contents :=
  s.memory.writes.foldl (perform (readBefore m s.path)) (heapBefore m s.path)

/-- The value of a term over the heap after the call. -/
def readAfter (m : Assignment) (s : State) : Term → Option Value := readIn (variableValue m) (heapAfter m s)

/-- Whether a place is written during the call. -/
def Written (m : Assignment) (s : State) (p : Place) : Prop :=
  ∃ w ∈ s.memory.writes, placeOf (readBefore m s.path) w.location = some p

/-- A read of the path that after the call looks at a place which is not written, but holds something else than the
read had found before the call. -/
def Stale (m : Assignment) (s : State) (t : Term) : Prop :=
  t ∈ s.path.hard.flatMap Atom.terms ∧
    ∃ p ∈ placeOf (readAfter m s) t, ¬ Written m s p ∧ heapBefore m s.path p ≠ readBefore m s.path t

instance (m : Assignment) (s : State) (p : Place) : Decidable (Written m s p) :=
  inferInstanceAs (Decidable (∃ w ∈ s.memory.writes, placeOf (readBefore m s.path) w.location = some p))

instance (m : Assignment) (s : State) (t : Term) : Decidable (Stale m s t) :=
  inferInstanceAs (Decidable (t ∈ s.path.hard.flatMap Atom.terms ∧
    ∃ p ∈ placeOf (readAfter m s) t, ¬ Written m s p ∧ heapBefore m s.path p ≠ readBefore m s.path t))

theorem readIn_eq (known : Term → Option Value) (c : Contents) {t : Term} (ht : t.isConst = false) :
    readIn known c t = (known t).or ((placeOf (readIn known c) t).bind c) := by
  cases t with
  | const v => cases ht
  | field b f => rfl
  | element a i e => rfl
  | length a => rfl
  | _ => simp [readIn, placeOf]

theorem isConst_of_place {eval : Term → Option Value} {t : Term} {p : Place} (h : placeOf eval t = some p) :
    t.isConst = false := by
  cases t with
  | const v => cases h
  | _ => rfl

theorem variableValue_of_place {eval : Term → Option Value} {t : Term} {p : Place} (h : placeOf eval t = some p)
    (m : Assignment) : variableValue m t = none := by
  cases t with
  | field b f => rfl
  | element a i e => rfl
  | length a => rfl
  | _ => cases h

/-! ### Places -/

theorem fieldPlace_eq_some {x : Option Value} {f : Field} {p : Place} :
    fieldPlace x f = some p ↔ ∃ a, x = some (.addr a) ∧ p = .field a f := by
  rcases x with _ | (b | n | a) <;> simp [fieldPlace, Value.addr?, eq_comm]

theorem elementPlace_eq_some {x y : Option Value} {p : Place} :
    elementPlace x y = some p ↔ ∃ a n, x = some (.addr a) ∧ y = some (.int n) ∧ p = .element a n := by
  rcases x with _ | (b | n | a) <;> rcases y with _ | (c | k | d) <;>
    simp [elementPlace, Value.addr?, Value.int?, eq_comm]

theorem lengthPlace_eq_some {x : Option Value} {p : Place} :
    lengthPlace x = some p ↔ ∃ a, x = some (.addr a) ∧ p = .length a := by
  rcases x with _ | (b | n | a) <;> simp [lengthPlace, Value.addr?, eq_comm]

theorem placeOf_mono {e e' : Term → Option Value} {t : Term} {p : Place}
    (h : ∀ u ∈ t.parts, ∀ x, e u = some x → e' u = some x) (hp : placeOf e t = some p) : placeOf e' t = some p := by
  cases t with
  | field b f =>
    obtain ⟨a, hb, rfl⟩ := fieldPlace_eq_some.mp hp
    exact fieldPlace_eq_some.mpr ⟨a, h b List.mem_cons_self _ hb, rfl⟩
  | element b i y =>
    obtain ⟨a, n, hb, hi, rfl⟩ := elementPlace_eq_some.mp hp
    exact elementPlace_eq_some.mpr ⟨a, n, h b List.mem_cons_self _ hb,
      h i (List.mem_cons_of_mem _ List.mem_cons_self) _ hi, rfl⟩
  | length b =>
    obtain ⟨a, hb, rfl⟩ := lengthPlace_eq_some.mp hp
    exact lengthPlace_eq_some.mpr ⟨a, h b List.mem_cons_self _ hb, rfl⟩
  | _ => cases hp

/-- Two reads of one place find the same, if the assignment describes a heap. -/
theorem eval_eq_of_place {m : Assignment} (hm : m.Functional) {t u : Term} {p : Place} {x y : Value}
    (ht : placeOf m.eval t = some p) (hu : placeOf m.eval u = some p) (hx : m.eval t = some x)
    (hy : m.eval u = some y) : x = y := by
  cases t with
  | field b f =>
    obtain ⟨a, hb, rfl⟩ := fieldPlace_eq_some.mp ht
    cases u with
    | field c g =>
      obtain ⟨d, hc, he⟩ := fieldPlace_eq_some.mp hu
      injection he with hd hg
      subst hd hg
      exact hm.field hb hc hx hy
    | element c i e =>
      obtain ⟨_, _, _, _, he⟩ := elementPlace_eq_some.mp hu
      cases he
    | length c =>
      obtain ⟨_, _, he⟩ := lengthPlace_eq_some.mp hu
      cases he
    | _ => cases hu
  | element b i e =>
    obtain ⟨a, n, hb, hi, rfl⟩ := elementPlace_eq_some.mp ht
    cases u with
    | element c j e' =>
      obtain ⟨d, k, hc, hj, he⟩ := elementPlace_eq_some.mp hu
      injection he with hd hk
      subst hd hk
      exact hm.element hb hc hi hj hx hy
    | field c g =>
      obtain ⟨_, _, he⟩ := fieldPlace_eq_some.mp hu
      cases he
    | length c =>
      obtain ⟨_, _, he⟩ := lengthPlace_eq_some.mp hu
      cases he
    | _ => cases hu
  | length b =>
    obtain ⟨a, hb, rfl⟩ := lengthPlace_eq_some.mp ht
    cases u with
    | length c =>
      obtain ⟨d, hc, he⟩ := lengthPlace_eq_some.mp hu
      injection he with hd
      subst hd
      exact hm.length hb hc hx hy
    | field c g =>
      obtain ⟨_, _, he⟩ := fieldPlace_eq_some.mp hu
      cases he
    | element c i e =>
      obtain ⟨_, _, _, _, he⟩ := elementPlace_eq_some.mp hu
      cases he
    | _ => cases hu
  | _ => cases ht

/-! ### The heap before the call -/

section Solved

variable {m : Assignment} {path : Path} {v : Solver.Valuation}

/-- Any read of the path tells what is at its place. -/
theorem heapBefore_eq_some_iff (sol : Solver.Solution path.hard m v) {p : Place} {x : Value} :
    heapBefore m path p = some x ↔
      ∃ t ∈ path.hard.flatMap Atom.terms, placeOf m.eval t = some p ∧ m.eval t = some x := by
  unfold heapBefore
  cases hf : (path.hard.flatMap Atom.terms).find? fun t => placeOf m.eval t = some p with
  | none =>
    constructor
    · intro h
      cases h
    · rintro ⟨t, ht, hp, -⟩
      have hnot := List.find?_eq_none.mp hf t ht
      simp [hp] at hnot
  | some u =>
    have hu : placeOf m.eval u = some p := by simpa using List.find?_some hf
    constructor
    · intro h
      exact ⟨u, List.mem_of_find?_eq_some hf, hu, h⟩
    · rintro ⟨t, ht, hp, hx⟩
      obtain ⟨y, hy⟩ := Option.isSome_iff_exists.mp
        (sol.eval_isSome (Solver.mem_termsOf.mpr (List.mem_flatMap.mp (List.mem_of_find?_eq_some hf))))
      have hyx : y = x := eval_eq_of_place sol.isFunctional hu hp hy hx
      rw [Option.bind_some, hy, hyx]

/-- What a heap knows of the reads of a path once it has seen all hard atoms. -/
structure SeesReads (m : Assignment) (path : Path) (h : Heap) : Prop where
  assignment : h.assignment = m
  present : ∀ {t : Term} {p : Place}, t ∈ path.hard.flatMap Atom.terms → placeOf m.eval t = some p →
    (h.reads.find? p).isSome
  value : ∀ p, (h.reads.find? p).bind m.eval = heapBefore m path p

theorem evalLayer_eq (h : Heap) (o : Place → Option (Option Value)) (hop : Term → Option Value) {t : Term}
    (ht : t.isConst = false) :
    h.evalLayer {} o hop t = h.valueAt o t (placeOf (h.evalLayer {} o hop) t) := by
  cases t with
  | const x => cases ht
  | _ => rfl

/-- A solved term has its assigned value, whatever reads are known. -/
theorem before_of_mem (sol : Solver.Solution path.hard m v) {h : Heap} (hm : h.assignment = m) {t : Term}
    (ht : t ∈ path.hard.flatMap Atom.terms) : h.before {} t = m.eval t := by
  show h.evalLayer {} (fun _ => none) _ t = m.eval t
  cases hc : t.isConst with
  | true =>
    cases t with
    | const x => rfl
    | _ => cases hc
  | false =>
    obtain ⟨x, hx⟩ := Option.isSome_iff_exists.mp
      (sol.eval_isSome (Solver.mem_termsOf.mpr (List.mem_flatMap.mp ht)))
    rw [evalLayer_eq h _ _ hc, Heap.valueAt, hm, hx]
    cases placeOf _ t <;> rfl

theorem place_of_mem (sol : Solver.Solution path.hard m v) {h : Heap} (hm : h.assignment = m) {t : Term}
    (ht : t ∈ path.hard.flatMap Atom.terms) : h.place t = placeOf m.eval t := by
  have hsub : ∀ u ∈ t.subterms, h.before {} u = m.eval u :=
    fun u hu => before_of_mem sol hm (subterm_mem_terms ht hu)
  unfold Heap.place
  cases t with
  | field b f => simp only [placeOf, hsub b (by simp [Term.subterms, Term.self_mem_subterms])]
  | element a i e =>
    simp only [placeOf, hsub a (by simp [Term.subterms, Term.self_mem_subterms]),
      hsub i (by simp [Term.subterms, Term.self_mem_subterms])]
  | length a => simp only [placeOf, hsub a (by simp [Term.subterms, Term.self_mem_subterms])]
  | _ => rfl

theorem find?_withReads_hard (sol : Solver.Solution path.hard m v) {h : Heap} (hm : h.assignment = m) {ts : List Term}
    (hts : ∀ t ∈ ts, t ∈ path.hard.flatMap Atom.terms) (p : Place) :
    (h.withReads ts).reads.find? p = (h.reads.find? p).or (ts.find? fun t => placeOf m.eval t = some p) := by
  induction ts generalizing h with
  | nil => simp [Heap.withReads]
  | cons t ts ih =>
    have htm := hts t List.mem_cons_self
    rw [withReads_cons, ih (by rw [assignment_withReads, hm]) fun u hu => hts u (List.mem_cons_of_mem _ hu),
      find?_withReads_singleton, place_of_mem sol hm htm, Option.or_assoc]
    congr 1
    by_cases hp : placeOf m.eval t = some p
    · simp [hp]
    · simp [hp]

theorem seesReads_hard (sol : Solver.Solution path.hard m v) :
    SeesReads m path (Heap.withReads { assignment := m } (path.hard.flatMap Atom.terms)) := by
  have hfind : ∀ p, (Heap.withReads { assignment := m } (path.hard.flatMap Atom.terms)).reads.find? p =
      (path.hard.flatMap Atom.terms).find? fun t => placeOf m.eval t = some p :=
    fun p => find?_withReads_hard sol rfl (fun _ ht => ht) p
  constructor
  · exact assignment_withReads _ _
  · intro t p ht hp
    rw [hfind, List.find?_isSome]
    exact ⟨t, ht, by simpa using hp⟩
  · intro p
    rw [hfind]
    rfl

/-- A further term adds nothing: if it has a value it was seen with the hard atoms. -/
theorem SeesReads.withReads (sol : Solver.Solution path.hard m v) {h : Heap} (hs : SeesReads m path h)
    (ts : List Term) : SeesReads m path (h.withReads ts) := by
  induction ts generalizing h with
  | nil => exact hs
  | cons t ts ih =>
    rw [withReads_cons]
    apply ih
    constructor
    · rw [assignment_withReads]
      exact hs.assignment
    · intro u p hu hp
      rw [find?_withReads_singleton]
      obtain ⟨x, hx⟩ := Option.isSome_iff_exists.mp (hs.present hu hp)
      rw [hx]
      rfl
    · intro p
      rw [find?_withReads_singleton, ← hs.value p]
      cases hf : h.reads.find? p with
      | some x => rfl
      | none =>
        by_cases hp : h.place t = some p
        · have hc := isConst_of_place hp
          have hout : t ∉ path.hard.flatMap Atom.terms := by
            intro ht
            rw [place_of_mem sol hs.assignment ht] at hp
            have := hs.present ht hp
            rw [hf] at this
            cases this
          have hnone : m.eval t = none := by
            rw [m.eval_of_not_const hc]
            exact sol.outside fun h => hout (List.mem_flatMap.mpr (Solver.mem_termsOf.mp h))
          simp [hp, hnone]
        · simp [hp]

theorem SeesReads.valueAt_eq {h : Heap} (hs : SeesReads m path h) {t : Term} (p : Option Place)
    (ht : t.isConst = false) :
    h.valueAt (fun _ => none) t p = (m.find? t).or (p.bind (heapBefore m path)) := by
  cases p with
  | none => simp [Heap.valueAt, hs.assignment, m.eval_of_not_const ht]
  | some p => simp [Heap.valueAt, hs.assignment, m.eval_of_not_const ht, hs.value p]

theorem SeesReads.before_eq {h : Heap} (hs : SeesReads m path h) (t : Term) :
    h.before {} t = readBefore m path t := by
  show h.evalLayer {} (fun _ => none) _ t = readIn m.find? (heapBefore m path) t
  induction t with
  | const x => rfl
  | field b f ih => rw [evalLayer_eq h _ _ rfl, hs.valueAt_eq _ rfl, placeOf, ih, readIn]
  | element a i e iha ihi => rw [evalLayer_eq h _ _ rfl, hs.valueAt_eq _ rfl, placeOf, iha, ihi, readIn]
  | length a ih => rw [evalLayer_eq h _ _ rfl, hs.valueAt_eq _ rfl, placeOf, ih, readIn]
  | param n y =>
    rw [evalLayer_eq h _ _ rfl, hs.valueAt_eq _ rfl, readIn_eq _ _ rfl]
    rfl
  | localVar n y =>
    rw [evalLayer_eq h _ _ rfl, hs.valueAt_eq _ rfl, readIn_eq _ _ rfl]
    rfl
  | static f =>
    rw [evalLayer_eq h _ _ rfl, hs.valueAt_eq _ rfl, readIn_eq _ _ rfl]
    rfl

end Solved

/-! ### The heap after the call -/

/-- The last write at a place decides what it holds. -/
theorem foldl_perform (read : Term → Option Value) (c : Contents) (ws : List Write) (p : Place) :
    ws.foldl (perform read) c p =
      match ws.reverse.find? fun w => placeOf read w.location = some p with
      | some w => read w.value
      | none => c p := by
  induction ws using List.reverseRecOn with
  | nil => rfl
  | append_singleton ws w ih =>
    rw [List.foldl_append, List.foldl_cons, List.foldl_nil, List.reverse_append, List.reverse_singleton,
      List.singleton_append, List.find?_cons, perform]
    cases hw : placeOf read w.location with
    | none => simpa using ih
    | some q =>
      by_cases hq : q = p
      · simp [hq]
      · simpa [hq, Ne.symm hq] using ih

theorem any_latest (h : Heap) (ws : List Write) (p : Place) :
    (h.latest ws).any (·.1 = p) = ((h.latest ws).lookup p).isSome := by
  induction h.latest ws with
  | nil => rfl
  | cons e l ih =>
    obtain ⟨q, w⟩ := e
    rw [List.any_cons, Table.lookup_cons_if, ih]
    by_cases hq : q = p
    · simp [hq]
    · simp [hq, Ne.symm hq]

theorem lookup_latest (h : Heap) (ws : List Write) (p : Place) :
    (h.latest ws).lookup p = ws.reverse.find? fun w => h.writePlace w = some p := by
  induction ws with
  | nil => rfl
  | cons w ws ih =>
    rw [latest_cons, List.reverse_cons, List.find?_append, ← ih]
    cases hw : h.writePlace w with
    | none => simp [hw]
    | some q =>
      simp only [any_latest]
      cases hl : (h.latest ws).lookup q with
      | some x =>
        by_cases hq : q = p
        · subst hq
          simp [hl]
        · simp [hw, hq]
      | none =>
        by_cases hq : q = p
        · subst hq
          simp [hl, hw]
        · simp [hw, hq, Ne.symm hq, Table.lookup_cons_if]

theorem nodup_latest (h : Heap) (ws : List Write) : ((h.latest ws).map (·.1)).Nodup := by
  induction ws with
  | nil => exact List.nodup_nil
  | cons w ws ih =>
    rw [latest_cons]
    split
    next p hp =>
      split
      · exact ih
      next hany =>
        refine List.nodup_cons.mpr ⟨?_, ih⟩
        intro hm
        obtain ⟨e, he, hep⟩ := List.mem_map.mp hm
        exact hany (List.any_eq_true.mpr ⟨e, he, by simpa using hep⟩)
    next => exact ih

theorem find?_withWrites (h : Heap) (ws : List Write) (p : Place) :
    (h.withWrites (h.latest ws)).writes.find? p =
      (ws.reverse.find? fun w => h.writePlace w = some p).map Write.value := by
  rw [← lookup_latest]
  have hn : (((h.latest ws).map fun e => (e.1, e.2.value)).map (·.1)).Nodup := by
    rw [List.map_map]
    exact nodup_latest h ws
  apply Option.ext
  intro t
  have hleft : (h.withWrites (h.latest ws)).writes.find? p = some t ↔
      (p, t) ∈ (h.latest ws).map fun e => (e.1, e.2.value) := Table.find?_ofList_of_nodup hn
  rw [hleft, List.mem_map, Option.map_eq_some_iff]
  constructor
  · rintro ⟨⟨q, w⟩, hm, he⟩
    have hq : q = p := congrArg Prod.fst he
    have hv : w.value = t := congrArg Prod.snd he
    exact ⟨w, lookup_of_mem (nodup_latest h ws) (hq ▸ hm), hv⟩
  · rintro ⟨w, hw, rfl⟩
    exact ⟨(p, w), mem_of_lookup hw, rfl⟩

/-- What a heap knows of a call: the reads of the path, and what is written last at each place. -/
structure SeesCall (m : Assignment) (s : State) (h : Heap) : Prop extends SeesReads m s.path h where
  last : ∀ p, h.writes.find? p =
    (s.memory.writes.reverse.find? fun w => placeOf (readBefore m s.path) w.location = some p).map Write.value

theorem SeesReads.writePlace_eq {m : Assignment} {path : Path} {h : Heap} (hs : SeesReads m path h) (w : Write) :
    h.writePlace w = placeOf (readBefore m path) w.location := by
  cases w <;> simp only [Heap.writePlace, Write.location, placeOf, hs.before_eq]

theorem SeesReads.withWrites {m : Assignment} {s : State} {h : Heap} (hs : SeesReads m s.path h) :
    SeesCall m s (h.withWrites (h.latest s.memory.writes)) := by
  refine ⟨⟨hs.assignment, hs.present, hs.value⟩, ?_⟩
  intro p
  rw [find?_withWrites]
  simp only [hs.writePlace_eq]

namespace SeesCall

variable {m : Assignment} {s : State} {h : Heap} (hs : SeesCall m s h)

include hs

theorem written {p : Place} {t : Term} (ht : h.writes.find? p = some t) :
    Written m s p ∧ heapAfter m s p = readBefore m s.path t ∧ ∃ w ∈ s.memory.writes, w.value = t := by
  rw [hs.last] at ht
  obtain ⟨w, hw, rfl⟩ := Option.map_eq_some_iff.mp ht
  have hmem : w ∈ s.memory.writes := List.mem_reverse.mp (List.mem_of_find?_eq_some hw)
  refine ⟨⟨w, hmem, by simpa using List.find?_some hw⟩, ?_, w, hmem, rfl⟩
  rw [heapAfter, foldl_perform, hw]

theorem free {p : Place} (hn : h.writes.find? p = none) :
    ¬ Written m s p ∧ heapAfter m s p = heapBefore m s.path p := by
  rw [hs.last, Option.map_eq_none_iff] at hn
  constructor
  · rintro ⟨w, hw, hp⟩
    have hnot := List.find?_eq_none.mp hn w (List.mem_reverse.mpr hw)
    simp [hp] at hnot
  · rw [heapAfter, foldl_perform, hn]

end SeesCall

/-! ### Stand-ins that do not matter -/

theorem standIn_eq (m : StandIns) (hop : Term → Option Value) (t : Term) (own : Option Value) :
    Heap.standIn m hop t own = ((m.find? t).map hop).getD own := by
  unfold Heap.standIn
  cases m.find? t <;> rfl

/-- Evaluation looks only at the stand-ins for the terms that occur. -/
theorem evalLayer_congr (h : Heap) {m m' : StandIns} (o : Place → Option (Option Value))
    {hop hop' : Term → Option Value} {t : Term} (ht : ∀ u ∈ t.subterms, (m.find? u).map hop = (m'.find? u).map hop') :
    h.evalLayer m o hop t = h.evalLayer m' o hop' t := by
  induction t with
  | field b f ih =>
    have hb := ih fun u hu => ht u (List.mem_cons_of_mem _ hu)
    simp only [Heap.evalLayer, standIn_eq, ht _ List.mem_cons_self, hb]
  | element a i e iha ihi =>
    have ha := iha fun u hu => ht u (List.mem_cons_of_mem _ (List.mem_append_left _ hu))
    have hi := ihi fun u hu => ht u (List.mem_cons_of_mem _ (List.mem_append_right _ hu))
    simp only [Heap.evalLayer, standIn_eq, ht _ List.mem_cons_self, ha, hi]
  | length a ih =>
    have ha := ih fun u hu => ht u (List.mem_cons_of_mem _ hu)
    simp only [Heap.evalLayer, standIn_eq, ht _ List.mem_cons_self, ha]
  | _ => simp only [Heap.evalLayer, standIn_eq, ht _ (Term.self_mem_subterms _)]

theorem evalLayer_of_absent (h : Heap) {m : StandIns} (o : Place → Option (Option Value))
    (hop hop' : Term → Option Value) {t : Term} (ht : ∀ u ∈ t.subterms, m.find? u = none) :
    h.evalLayer m o hop t = h.evalLayer {} o hop' t := by
  refine evalLayer_congr h o fun u hu => ?_
  rw [ht u hu]
  rfl

theorem before_of_absent (h : Heap) {m : StandIns} {t : Term} (ht : ∀ u ∈ t.subterms, m.find? u = none) :
    h.before m t = h.before {} t :=
  evalLayer_of_absent h _ _ _ ht

theorem after_of_absent (h : Heap) {m : StandIns} {t : Term} (ht : ∀ u ∈ t.subterms, m.find? u = none)
    (hw : ∀ p x, h.writes.find? p = some x → ∀ u ∈ x.subterms, m.find? u = none) :
    h.after m t = h.after {} t := by
  have hoverlay : (fun p => (h.writes.find? p).map (h.before m)) = fun p => (h.writes.find? p).map (h.before {}) := by
    funext p
    cases hp : h.writes.find? p with
    | none => rfl
    | some x => exact congrArg some (before_of_absent h (hw p x hp))
  show h.evalLayer m _ _ t = h.evalLayer {} _ _ t
  rw [hoverlay]
  exact evalLayer_of_absent h _ _ _ ht

/-! ### The current snapshot -/

section Current

variable {m : Assignment} {s : State} {v : Solver.Valuation} {h : Heap}

/-- A read at a place that both evaluations agree on. -/
theorem SeesCall.after_read (hs : SeesCall m s h) (sol : Solver.Solution s.path.hard m v) {t : Term} {p : Place}
    {x : Value} (hp : placeOf (h.after {}) t = some p) (hp' : placeOf (readAfter m s) t = some p)
    (hx : heapAfter m s p = some x) : ∃ y, h.after {} t = some y ∧ (y = x ↔ ¬ Stale m s t) := by
  have hc := isConst_of_place hp
  have heval : h.after {} t = h.valueAt (fun p => (h.writes.find? p).map (h.before {})) t (some p) := by
    rw [← hp]
    exact evalLayer_eq _ _ _ hc
  rw [heval, Heap.valueAt, Option.bind_some]
  cases ho : h.writes.find? p with
  | some u =>
    obtain ⟨hwritten, hu, -⟩ := hs.written ho
    refine ⟨x, ?_, iff_of_true rfl ?_⟩
    · rw [Option.map_some, hs.before_eq, ← hu]
      exact hx
    · rintro ⟨-, q, hq, hnot, -⟩
      rw [hp'] at hq
      exact hnot (Option.some.inj hq ▸ hwritten)
  | none =>
    obtain ⟨hfree, hsame⟩ := hs.free ho
    rw [hsame] at hx
    have hreads := (hs.value p).trans hx
    have hbefore : readBefore m s.path t = (m.eval t).or ((placeOf (readBefore m s.path) t).bind
        (heapBefore m s.path)) := by
      rw [m.eval_of_not_const hc]
      exact readIn_eq _ _ hc
    simp only [Option.map_none, hs.assignment, Option.bind_some, hreads]
    cases he : m.eval t with
    | none =>
      refine ⟨x, rfl, iff_of_true rfl ?_⟩
      rintro ⟨ht, -⟩
      have hsome := sol.eval_isSome (Solver.mem_termsOf.mpr (List.mem_flatMap.mp ht))
      rw [he] at hsome
      cases hsome
    | some y =>
      rw [he, Option.some_or] at hbefore
      have hmem : t ∈ s.path.hard.flatMap Atom.terms :=
        List.mem_flatMap.mpr (Solver.mem_termsOf.mp (sol.mem_of_eval hc he))
      refine ⟨y, rfl, ?_⟩
      constructor
      · rintro rfl ⟨-, q, hq, -, hne⟩
        rw [hp'] at hq
        rw [← Option.some.inj hq, hx, hbefore] at hne
        exact hne rfl
      · intro hfresh
        by_contra hne
        refine hfresh ⟨hmem, p, hp', hfree, ?_⟩
        rw [hx, hbefore]
        intro e
        exact hne (Option.some.inj e).symm

theorem SeesCall.after_variable (hs : SeesCall m s h) {t : Term} {x : Value} (hx : variableValue m t = some x) :
    h.after {} t = some x := by
  have hvalue : ∀ u : Term, h.valueAt (fun p => (h.writes.find? p).map (h.before {})) u none = m.eval u := by
    intro u
    rw [Heap.valueAt, hs.assignment]
    exact Option.or_none
  cases t with
  | const c => cases hx
  | field b f => cases hx
  | element a i e => cases hx
  | length a => cases hx
  | _ => exact (evalLayer_eq h _ _ rfl).trans ((hvalue _).trans hx)

/-- Evaluation over the current snapshot reads the heap after the call, unless a read is stale. -/
theorem SeesCall.after_eq (hs : SeesCall m s h) (sol : Solver.Solution s.path.hard m v) {t : Term} {x : Value}
    (hx : readAfter m s t = some x) (hsub : ∀ u ∈ t.subterms.tail, ¬ Stale m s u) :
    ∃ y, h.after {} t = some y ∧ (y = x ↔ ¬ Stale m s t) := by
  induction t using Term.induction_on_parts generalizing x with
  | step t ih =>
    -- The parts are not stale, so both evaluations find the same place.
    have hpart : ∀ u ∈ t.parts, ∀ y, readAfter m s u = some y → h.after {} u = some y := by
      intro u hu y hy
      obtain ⟨z, hz, hiff⟩ := ih u hu hy fun w hw => hsub w (Term.mem_tail_of_part hu (List.mem_of_mem_tail hw))
      rw [hz, hiff.mpr (hsub u (Term.mem_tail_of_part hu (Term.self_mem_subterms u)))]
    cases hp : placeOf (readAfter m s) t with
    | some p =>
      refine hs.after_read sol (placeOf_mono hpart hp) hp ?_
      rw [readAfter, readIn_eq _ _ (isConst_of_place hp), variableValue_of_place hp, Option.none_or] at hx
      have hp' : placeOf (readIn (variableValue m) (heapAfter m s)) t = some p := hp
      rw [hp'] at hx
      exact hx
    | none =>
      have hfresh : ¬ Stale m s t := by
        rintro ⟨-, p, hp', -⟩
        rw [hp] at hp'
        cases hp'
      refine ⟨x, ?_, iff_of_true rfl hfresh⟩
      cases hc : t.isConst with
      | true =>
        cases t with
        | const c => exact hx
        | _ => cases hc
      | false =>
        have hp' : placeOf (readIn (variableValue m) (heapAfter m s)) t = none := hp
        rw [readAfter, readIn_eq _ _ hc, hp', Option.bind_none, Option.or_none] at hx
        exact hs.after_variable hx

theorem seesReads_start (sol : Solver.Solution s.path.hard m v) (settings : Settings) :
    SeesReads m s.path (Heap.withReads { assignment := m } ((s.path.atoms settings.useSoft).flatMap Atom.terms)) := by
  rw [Path.atoms, List.flatMap_append, Heap.withReads, List.foldl_append]
  exact (seesReads_hard sol).withReads sol _

/-- The heap of a pass knows the call. -/
theorem seesCall_start (sol : Solver.Solution s.path.hard m v) (settings : Settings) (snapshot : Snapshot) :
    SeesCall m s (Pass.start settings s m snapshot).heap :=
  (seesReads_start sol settings).withWrites

end Current

/-- The indices that are made up while values are resolved after the call. -/
def madeUp (settings : Settings) (s : State) (m : Assignment) (values : List Sym) : StandIns :=
  (resolveValues (Pass.start settings s m .current) values {}).2.standIns

/-- A primitive that is asked for after the call has the value that its term reads in the heap after the call, exactly
if the term is not stale. The terms it looks through must not be stale, and neither it nor the written terms may
bear the name of an index that was made up for an earlier value. -/
theorem resolve_current_prim {settings : Settings} {s : State} {limit : Nat} {m : Assignment}
    (hm : Solver.check limit s.path false = some m) {values : List Sym} {i : Nat} {t : Term} {x : Value}
    (ht : values[i]? = some (.prim t)) (hx : readAfter m s t = some x)
    (hsub : ∀ u ∈ t.subterms.tail, ¬ Stale m s u)
    (hnew : ∀ u ∈ t.subterms ++ s.memory.writes.flatMap fun w => w.value.subterms,
      (madeUp settings s m (values.take i)).find? u = none) :
    ∃ h y as, (resolve settings s m .current values).params[i]? = some h ∧
      (resolve settings s m .current values).store.get? h = some (.primitive t y as) ∧
      (y = x ↔ ¬ Stale m s t) := by
  rw [Solver.check_hard] at hm
  obtain ⟨v, sol⟩ := Solver.solve_some hm
  have hs := seesCall_start sol settings .current
  obtain ⟨y, hy, hiff⟩ := hs.after_eq sol hx hsub
  obtain ⟨hget, hext⟩ := resolveValues_get (Pass.start settings s m .current) ht {}
  have hafter : (Pass.start settings s m .current).heap.after (madeUp settings s m (values.take i)) t = some y := by
    rw [after_of_absent _ fun u hu => hnew u (List.mem_append_left _ hu)]
    · exact hy
    · intro p z hz u hu
      obtain ⟨-, -, w, hw, rfl⟩ := hs.written hz
      exact hnew u (List.mem_append_right _ (List.mem_flatMap.mpr ⟨w, hw, hu⟩))
  have heval : (Pass.start settings s m .current).eval
      (resolveValues (Pass.start settings s m .current) (values.take i) {}).2 t = some y := hafter
  have hmodel := hext.get?_some (get?_alloc_fst _ _)
  rw [heval, Option.getD_some] at hmodel
  exact ⟨_, y, _, hget, hmodel, hiff⟩

/-- A list `x`, also called `z`, whose tail is cut off and then replaced by the list `y`. -/
def relinked : State :=
  let node : Ty := .object "Node"
  let next : Field := ⟨"Node", "next", node⟩
  let item : Field := ⟨"Node", "item", .int⟩
  let x : Term := .param "x" node
  let y : Term := .param "y" node
  { path := { hard := [.ne x .null, .ne y .null, .eq (.param "z" node) x, .ne (.field x next) .null,
      .ne (.field x next) y, .eq (.field (.field x next) item) (.int 1), .eq (.field y item) (.int 2)] }
    memory := { writes := [.field x next .null, .field x next y] } }

/-- The second item of a list. -/
def secondItem (list : String) : Term :=
  .field (.field (.param list (.object "Node")) ⟨"Node", "next", .object "Node"⟩) ⟨"Node", "item", .int⟩

theorem resolve_current_prim_relinked : ∃ m, Solver.check 1000 relinked.path false = some m ∧
    readAfter m relinked (secondItem "z") = some (.int 2) ∧
    (∀ u ∈ (secondItem "z").subterms.tail, ¬ Stale m relinked u) ∧ ¬ Stale m relinked (secondItem "z") ∧
    ∃ h y as, (resolve {} relinked m .current
        [.ref (.param "x" (.object "Node")) none, .prim (secondItem "z")]).params[1]? = some h ∧
      (resolve {} relinked m .current
        [.ref (.param "x" (.object "Node")) none, .prim (secondItem "z")]).store.get? h =
          some (.primitive (secondItem "z") y as) ∧
      (y = .int 2 ↔ ¬ Stale m relinked (secondItem "z")) := by
  have hall : ∃ m ∈ Solver.check 1000 relinked.path false, readAfter m relinked (secondItem "z") = some (.int 2) ∧
      (∀ u ∈ (secondItem "z").subterms.tail, ¬ Stale m relinked u) ∧ ¬ Stale m relinked (secondItem "z") ∧
      ∀ u ∈ (secondItem "z").subterms ++ relinked.memory.writes.flatMap fun w => w.value.subterms,
        (madeUp {} relinked m [.ref (.param "x" (.object "Node")) none]).find? u = none := by
    decide +kernel
  obtain ⟨m, hm, hx, hsub, hfresh, hnew⟩ := hall
  exact ⟨m, hm, hx, hsub, hfresh, resolve_current_prim hm rfl hx hsub hnew⟩

/-- Two arrays, and a local with the name that is made up for an index of the first. -/
def namesake : State :=
  let a : Term := .param "a" (.array .int)
  let b : Term := .param "b" (.array .int)
  { path := { hard := [.ne a .null, .ne b .null, .ne a b, .eq (.length a) (.int 2),
      .eq (.element a (.int 0) .int) (.int 9), .eq (.localVar "a_index0" .int) (.int 1),
      .eq (.element b (.int 0) .int) (.int 7), .eq (.element b (.int 1) .int) (.int 5)] } }

/-- Reads that do not find what the heap after the call holds: the second item of the relinked list, which is still
the one before the call, and an element whose index is taken for a made-up one. -/
theorem resolve_current_prim_missed :
    (∃ m ∈ Solver.check 1000 relinked.path false, readAfter m relinked (secondItem "x") = some (.int 2) ∧
      (resolve {} relinked m .current [.prim (secondItem "x")]).store.get? ⟨0⟩ =
        some (.primitive (secondItem "x") (.int 1) {})) ∧
    ∃ m ∈ Solver.check 1000 namesake.path false,
      readAfter m namesake (.element (.param "b" (.array .int)) (.localVar "a_index0" .int) .int) = some (.int 5) ∧
      (resolve {} namesake m .current [.ref (.param "a" (.array .int)) none,
          .prim (.element (.param "b" (.array .int)) (.localVar "a_index0" .int) .int)]).store.get? ⟨4⟩ =
        some (.primitive (.element (.param "b" (.array .int)) (.localVar "a_index0" .int) .int) (.int 7) {}) := by
  decide +kernel

end Resolve

end Symex
