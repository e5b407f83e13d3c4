import Symex.Proofs.Resolve.Snapshot

/-!
# The atoms of a model are true before the call

A model speaks about its value under one name, so its atoms are atoms of the path in which other names of the same
address were replaced. Replacing them makes reads that occur nowhere on the path; such a read denotes what a read
of the path finds at the same place. Main statement: a replacement of terms by terms that denote the same changes
no value, so the atoms of a model stay true.
-/

namespace Symex

namespace Resolve

/-- What a term denotes over the heap before the call: the value it is assigned, or, for a read without one, the value
that any read of the path has at the same place. A place is given by the values of base and index. -/
inductive Denotes (m : Assignment) (path : Path) : Term → Value → Prop
  | own {t : Term} {x : Value} (ht : m.eval t = some x) : Denotes m path t x
  | field {b c : Term} {f : Field} {x y : Value} (hn : m.eval (.field b f) = none) (hb : Denotes m path b x)
      (hr : Term.field c f ∈ path.hard.flatMap Atom.terms) (hc : m.eval c = some x)
      (hy : m.eval (.field c f) = some y) : Denotes m path (.field b f) y
  | element {a b i j : Term} {e g : Ty} {x y z : Value} (hn : m.eval (.element a i e) = none)
      (ha : Denotes m path a x) (hi : Denotes m path i y)
      (hr : Term.element b j g ∈ path.hard.flatMap Atom.terms) (hb : m.eval b = some x) (hj : m.eval j = some y)
      (hz : m.eval (.element b j g) = some z) : Denotes m path (.element a i e) z
  | length {a b : Term} {x y : Value} (hn : m.eval (.length a) = none) (ha : Denotes m path a x)
      (hr : Term.length b ∈ path.hard.flatMap Atom.terms) (hb : m.eval b = some x)
      (hy : m.eval (.length b) = some y) : Denotes m path (.length a) y

/-- Every read of the hard atoms looks at a place: its base has an address, and its index is a number. -/
def ReadsPlaced (m : Assignment) (path : Path) : Prop :=
  ∀ t ∈ path.hard.flatMap Atom.terms, t.parts ≠ [] → (placeOf m.eval t).isSome = true

instance (m : Assignment) (path : Path) : Decidable (ReadsPlaced m path) :=
  inferInstanceAs (Decidable (∀ t ∈ path.hard.flatMap Atom.terms, t.parts ≠ [] → (placeOf m.eval t).isSome = true))

/-- Both sides of an atom have values over the heap before the call, where a place is given by an address, and the
values are related. -/
def TrueBefore (m : Assignment) (path : Path) (a : Atom) : Prop :=
  ∃ x y, readBefore m path a.lhs = some x ∧ readBefore m path a.rhs = some y ∧ a.relation.holds x y = true

/-- Both sides of an atom denote something, and whatever they denote is related. -/
def Holds (m : Assignment) (path : Path) (a : Atom) : Prop :=
  (∃ x, Denotes m path a.lhs x) ∧ (∃ y, Denotes m path a.rhs y) ∧
    ∀ x y, Denotes m path a.lhs x → Denotes m path a.rhs y → a.relation.holds x y = true

/-! ### Reads at a given place -/

theorem placeOf_eq_field {eval : Term → Option Value} {t : Term} {a : Address} {f : Field}
    (h : placeOf eval t = some (.field a f)) : ∃ c, t = .field c f ∧ eval c = some (.addr a) := by
  cases t with
  | field c g =>
    obtain ⟨d, hc, he⟩ := fieldPlace_eq_some.mp h
    cases he
    exact ⟨c, rfl, hc⟩
  | element c i e =>
    obtain ⟨_, _, _, _, he⟩ := elementPlace_eq_some.mp h
    cases he
  | length c =>
    obtain ⟨_, _, he⟩ := lengthPlace_eq_some.mp h
    cases he
  | _ => cases h

theorem placeOf_eq_element {eval : Term → Option Value} {t : Term} {a : Address} {n : Int}
    (h : placeOf eval t = some (.element a n)) :
    ∃ c j g, t = .element c j g ∧ eval c = some (.addr a) ∧ eval j = some (.int n) := by
  cases t with
  | element c j g =>
    obtain ⟨d, k, hc, hj, he⟩ := elementPlace_eq_some.mp h
    cases he
    exact ⟨c, j, g, rfl, hc, hj⟩
  | field c g =>
    obtain ⟨_, _, he⟩ := fieldPlace_eq_some.mp h
    cases he
  | length c =>
    obtain ⟨_, _, he⟩ := lengthPlace_eq_some.mp h
    cases he
  | _ => cases h

theorem placeOf_eq_length {eval : Term → Option Value} {t : Term} {a : Address}
    (h : placeOf eval t = some (.length a)) : ∃ c, t = .length c ∧ eval c = some (.addr a) := by
  cases t with
  | length c =>
    obtain ⟨d, hc, he⟩ := lengthPlace_eq_some.mp h
    cases he
    exact ⟨c, rfl, hc⟩
  | field c g =>
    obtain ⟨_, _, he⟩ := fieldPlace_eq_some.mp h
    cases he
  | element c i e =>
    obtain ⟨_, _, _, _, he⟩ := elementPlace_eq_some.mp h
    cases he
  | _ => cases h

section Solved

variable {m : Assignment} {path : Path} {v : Solver.Valuation}

theorem eval_isSome_of_mem (sol : Solver.Solution path.hard m v) {t : Term}
    (ht : t ∈ path.hard.flatMap Atom.terms) : ∃ x, m.eval t = some x :=
  Option.isSome_iff_exists.mp (sol.eval_isSome (Solver.mem_termsOf.mpr (List.mem_flatMap.mp ht)))

theorem mem_of_eval_read (sol : Solver.Solution path.hard m v) {t : Term} {x : Value} (hc : t.isConst = false)
    (ht : m.eval t = some x) : t ∈ path.hard.flatMap Atom.terms :=
  List.mem_flatMap.mpr (Solver.mem_termsOf.mp (sol.mem_of_eval hc ht))

theorem part_mem_terms {t u : Term} (ht : t ∈ path.hard.flatMap Atom.terms) (hu : u ∈ t.parts) :
    u ∈ path.hard.flatMap Atom.terms := by
  have hsub : u ∈ t.subterms := List.mem_of_mem_tail (Term.mem_tail_of_part hu (Term.self_mem_subterms u))
  exact subterm_mem_terms ht hsub

theorem Denotes.eval_eq {t : Term} {x y : Value} (h : Denotes m path t x) (hy : m.eval t = some y) :
    m.eval t = some x := by
  cases h with
  | own h => exact h
  | field hn => rw [hn] at hy; cases hy
  | element hn => rw [hn] at hy; cases hy
  | length hn => rw [hn] at hy; cases hy

/-- A term denotes one value only: all reads of the path at one place agree. -/
theorem Denotes.unique (sol : Solver.Solution path.hard m v) {t : Term} {x y : Value} (hx : Denotes m path t x)
    (hy : Denotes m path t y) : x = y := by
  have hm := sol.isFunctional
  induction hx generalizing y with
  | own h => exact Option.some.inj (h.symm.trans (hy.eval_eq h))
  | field hn _ _ hc hv ih =>
    cases hy with
    | own h => rw [hn] at h; cases h
    | field _ hb' _ hc' hv' =>
      rw [← ih hb'] at hc'
      exact hm.field hc hc' hv hv'
  | element hn _ _ _ hb hj hv iha ihi =>
    cases hy with
    | own h => rw [hn] at h; cases h
    | element _ ha' hi' _ hb' hj' hv' =>
      rw [← iha ha'] at hb'
      rw [← ihi hi'] at hj'
      exact hm.element hb hb' hj hj' hv hv'
  | length hn _ _ hb hv ih =>
    cases hy with
    | own h => rw [hn] at h; cases h
    | length _ ha' _ hb' hv' =>
      rw [← ih ha'] at hb'
      exact hm.length hb hb' hv hv'

/-! ### Reads by place -/

theorem denotes_field (sol : Solver.Solution path.hard m v) {b : Term} {f : Field} {y : Value} :
    Denotes m path (.field b f) y ↔ ∃ c x, Denotes m path b x ∧ Term.field c f ∈ path.hard.flatMap Atom.terms ∧
      m.eval c = some x ∧ m.eval (.field c f) = some y := by
  constructor
  · intro h
    cases h with
    | own h =>
      have hmem := mem_of_eval_read sol rfl h
      obtain ⟨x, hx⟩ := eval_isSome_of_mem sol (part_mem_terms hmem List.mem_cons_self)
      exact ⟨b, x, .own hx, hmem, hx, h⟩
    | field _ hb hr hc hy => exact ⟨_, _, hb, hr, hc, hy⟩
  · rintro ⟨c, x, hb, hr, hc, hy⟩
    cases hn : m.eval (.field b f) with
    | none => exact .field hn hb hr hc hy
    | some z =>
      -- The read has a value of its own, which the heap forces to be the one found on the path.
      obtain ⟨w, hw⟩ := eval_isSome_of_mem sol (part_mem_terms (mem_of_eval_read sol rfl hn) List.mem_cons_self)
      have hwx : x = w := hb.unique sol (.own hw)
      rw [← hwx] at hw
      rw [sol.isFunctional.field hc hw hy hn]
      exact .own hn

theorem denotes_element (sol : Solver.Solution path.hard m v) {a i : Term} {e : Ty} {z : Value} :
    Denotes m path (.element a i e) z ↔ ∃ b j g x y, Denotes m path a x ∧ Denotes m path i y ∧
      Term.element b j g ∈ path.hard.flatMap Atom.terms ∧ m.eval b = some x ∧ m.eval j = some y ∧
      m.eval (.element b j g) = some z := by
  constructor
  · intro h
    cases h with
    | own h =>
      have hmem := mem_of_eval_read sol rfl h
      obtain ⟨x, hx⟩ := eval_isSome_of_mem sol (part_mem_terms hmem List.mem_cons_self)
      obtain ⟨y, hy⟩ :=
        eval_isSome_of_mem sol (part_mem_terms hmem (List.mem_cons_of_mem _ List.mem_cons_self))
      exact ⟨a, i, e, x, y, .own hx, .own hy, hmem, hx, hy, h⟩
    | element _ ha hi hr hb hj hz => exact ⟨_, _, _, _, _, ha, hi, hr, hb, hj, hz⟩
  · rintro ⟨b, j, g, x, y, ha, hi, hr, hb, hj, hz⟩
    cases hn : m.eval (.element a i e) with
    | none => exact .element hn ha hi hr hb hj hz
    | some u =>
      have hmem := mem_of_eval_read sol rfl hn
      obtain ⟨w, hw⟩ := eval_isSome_of_mem sol (part_mem_terms hmem List.mem_cons_self)
      obtain ⟨k, hk⟩ :=
        eval_isSome_of_mem sol (part_mem_terms hmem (List.mem_cons_of_mem _ List.mem_cons_self))
      have hwx : x = w := ha.unique sol (.own hw)
      have hky : y = k := hi.unique sol (.own hk)
      rw [← hwx] at hw
      rw [← hky] at hk
      rw [sol.isFunctional.element hb hw hj hk hz hn]
      exact .own hn

theorem denotes_length (sol : Solver.Solution path.hard m v) {a : Term} {y : Value} :
    Denotes m path (.length a) y ↔ ∃ b x, Denotes m path a x ∧ Term.length b ∈ path.hard.flatMap Atom.terms ∧
      m.eval b = some x ∧ m.eval (.length b) = some y := by
  constructor
  · intro h
    cases h with
    | own h =>
      have hmem := mem_of_eval_read sol rfl h
      obtain ⟨x, hx⟩ := eval_isSome_of_mem sol (part_mem_terms hmem List.mem_cons_self)
      exact ⟨a, x, .own hx, hmem, hx, h⟩
    | length _ ha hr hb hy => exact ⟨_, _, ha, hr, hb, hy⟩
  · rintro ⟨b, x, ha, hr, hb, hy⟩
    cases hn : m.eval (.length a) with
    | none => exact .length hn ha hr hb hy
    | some z =>
      obtain ⟨w, hw⟩ := eval_isSome_of_mem sol (part_mem_terms (mem_of_eval_read sol rfl hn) List.mem_cons_self)
      have hwx : x = w := ha.unique sol (.own hw)
      rw [← hwx] at hw
      rw [sol.isFunctional.length hb hw hy hn]
      exact .own hn

/-- What evaluation over the heap before the call finds is what the term denotes. -/
theorem denotes_of_readBefore (sol : Solver.Solution path.hard m v) {t : Term} {x : Value}
    (h : readBefore m path t = some x) : Denotes m path t x := by
  induction t generalizing x with
  | const c => exact .own h
  | field b f ih =>
    rw [readBefore, readIn_eq _ _ rfl, Option.or_eq_some_iff] at h
    rcases h with h | ⟨-, h⟩
    · exact .own h
    · obtain ⟨p, hp, hx⟩ := Option.bind_eq_some_iff.mp h
      obtain ⟨a, hb, rfl⟩ := fieldPlace_eq_some.mp hp
      obtain ⟨u, hu, hpu, hux⟩ := (heapBefore_eq_some_iff sol).mp hx
      obtain ⟨c, rfl, hc⟩ := placeOf_eq_field hpu
      exact (denotes_field sol).mpr ⟨c, _, ih hb, hu, hc, hux⟩
  | element b i e ihb ihi =>
    rw [readBefore, readIn_eq _ _ rfl, Option.or_eq_some_iff] at h
    rcases h with h | ⟨-, h⟩
    · exact .own h
    · obtain ⟨p, hp, hx⟩ := Option.bind_eq_some_iff.mp h
      obtain ⟨a, n, hb, hi, rfl⟩ := elementPlace_eq_some.mp hp
      obtain ⟨u, hu, hpu, hux⟩ := (heapBefore_eq_some_iff sol).mp hx
      obtain ⟨c, j, g, rfl, hc, hj⟩ := placeOf_eq_element hpu
      exact (denotes_element sol).mpr ⟨c, j, g, _, _, ihb hb, ihi hi, hu, hc, hj, hux⟩
  | length b ih =>
    rw [readBefore, readIn_eq _ _ rfl, Option.or_eq_some_iff] at h
    rcases h with h | ⟨-, h⟩
    · exact .own h
    · obtain ⟨p, hp, hx⟩ := Option.bind_eq_some_iff.mp h
      obtain ⟨a, hb, rfl⟩ := lengthPlace_eq_some.mp hp
      obtain ⟨u, hu, hpu, hux⟩ := (heapBefore_eq_some_iff sol).mp hx
      obtain ⟨c, rfl, hc⟩ := placeOf_eq_length hpu
      exact (denotes_length sol).mpr ⟨c, _, ih hb, hu, hc, hux⟩
  | _ => exact .own h

theorem readBefore_of_eval {t : Term} {x : Value} (hx : m.eval t = some x) : readBefore m path t = some x := by
  cases hc : t.isConst with
  | true =>
    cases t with
    | const c => exact hx
    | _ => cases hc
  | false =>
    rw [m.eval_of_not_const hc] at hx
    rw [readBefore, readIn_eq _ _ hc, hx, Option.some_or]

theorem exists_readBefore_of_mem (sol : Solver.Solution path.hard m v) {t : Term}
    (ht : t ∈ path.hard.flatMap Atom.terms) : ∃ x, readBefore m path t = some x ∧ m.eval t = some x := by
  obtain ⟨x, hx⟩ := eval_isSome_of_mem sol ht
  exact ⟨x, readBefore_of_eval hx, hx⟩

/-- Where every read of the path looks at a place, what a term denotes is what is read by addresses. -/
theorem readBefore_of_denotes (sol : Solver.Solution path.hard m v) (hp : ReadsPlaced m path) {t : Term} {x : Value}
    (h : Denotes m path t x) : readBefore m path t = some x := by
  -- A read that looks where a read of the path looks has its value.
  have hsame : ∀ {t u : Term} {x : Value}, m.eval t = none → t.isConst = false →
      placeOf (readBefore m path) t = placeOf m.eval u → u ∈ path.hard.flatMap Atom.terms → u.parts ≠ [] →
      m.eval u = some x → readBefore m path t = some x := by
    intro t u x hn hc hplace hu hparts hx
    obtain ⟨p, hpu⟩ := Option.isSome_iff_exists.mp (hp u hu hparts)
    have hpt : placeOf (readIn m.find? (heapBefore m path)) t = some p := hplace.trans hpu
    rw [m.eval_of_not_const hc] at hn
    rw [readBefore, readIn_eq _ _ hc, hn, Option.none_or, hpt, Option.bind_some]
    exact (heapBefore_eq_some_iff sol).mpr ⟨u, hu, hpu, hx⟩
  induction h with
  | own ht => exact readBefore_of_eval ht
  | field hn _ hr hc hy ih => exact hsame hn rfl (by rw [placeOf, placeOf, ih, hc]) hr (List.cons_ne_nil _ _) hy
  | element hn _ _ hr hb hj hz iha ihi =>
    exact hsame hn rfl (by rw [placeOf, placeOf, iha, ihi, hb, hj]) hr (List.cons_ne_nil _ _) hz
  | length hn _ hr hb hy ih => exact hsame hn rfl (by rw [placeOf, placeOf, ih, hb]) hr (List.cons_ne_nil _ _) hy

theorem Holds.trueBefore (sol : Solver.Solution path.hard m v) (hp : ReadsPlaced m path) {a : Atom}
    (h : Holds m path a) : TrueBefore m path a := by
  obtain ⟨⟨x, hx⟩, ⟨y, hy⟩, hxy⟩ := h
  exact ⟨x, y, readBefore_of_denotes sol hp hx, readBefore_of_denotes sol hp hy, hxy x y hx hy⟩

/-! ### Replacing names -/

/-- A replacement by terms that denote the same keeps what a term denotes, however deep the replaced terms are. -/
theorem Denotes.substitute (sol : Solver.Solution path.hard m v) {r : Term.Renaming}
    (hr : ∀ {k u : Term} {x : Value}, r.find? k = some u → Denotes m path k x → Denotes m path u x) {t : Term}
    {x : Value} (h : Denotes m path t x) : Denotes m path (t.substitute r) x := by
  -- Either the whole term is replaced, or its parts are.
  have hhead : ∀ {k u : Term} {x : Value}, Denotes m path k x → Denotes m path u x →
      Denotes m path ((r.find? k).getD u) x := by
    intro k u x hk hu
    cases hf : r.find? k with
    | some w => exact hr hf hk
    | none => exact hu
  induction t generalizing x with
  | field b f ih =>
    obtain ⟨c, y, hb, hrest⟩ := (denotes_field sol).mp h
    exact hhead h ((denotes_field sol).mpr ⟨c, y, ih hb, hrest⟩)
  | element a i e iha ihi =>
    obtain ⟨b, j, g, y, z, ha, hi, hrest⟩ := (denotes_element sol).mp h
    exact hhead h ((denotes_element sol).mpr ⟨b, j, g, y, z, iha ha, ihi hi, hrest⟩)
  | length a ih =>
    obtain ⟨b, y, ha, hrest⟩ := (denotes_length sol).mp h
    exact hhead h ((denotes_length sol).mpr ⟨b, y, ih ha, hrest⟩)
  | _ => exact hhead h h

theorem holds_of_mem (sol : Solver.Solution path.hard m v) {a : Atom} (ha : a ∈ path.hard) : Holds m path a := by
  have hside : ∀ t ∈ a.terms, ∃ x, m.eval t = some x :=
    fun t ht => eval_isSome_of_mem sol (List.mem_flatMap.mpr ⟨a, ha, ht⟩)
  obtain ⟨x, hx⟩ := hside a.lhs (List.mem_append_left _ (Term.self_mem_subterms _))
  obtain ⟨y, hy⟩ := hside a.rhs (List.mem_append_right _ (Term.self_mem_subterms _))
  have htrue : a.relation.holds x y = true := by
    have h := sol.holds ha
    rw [Assignment.holds, hx, hy] at h
    exact Option.some.inj h
  refine ⟨⟨x, .own hx⟩, ⟨y, .own hy⟩, ?_⟩
  intro w z hw hz
  rw [hw.unique sol (.own hx), hz.unique sol (.own hy)]
  exact htrue

theorem Holds.substitute (sol : Solver.Solution path.hard m v) {r : Term.Renaming}
    (hr : ∀ {k u : Term} {x : Value}, r.find? k = some u → Denotes m path k x → Denotes m path u x) {a : Atom}
    (h : Holds m path a) : Holds m path (a.substitute r) := by
  obtain ⟨⟨x, hx⟩, ⟨y, hy⟩, hxy⟩ := h
  have hx' := hx.substitute sol hr
  have hy' := hy.substitute sol hr
  refine ⟨⟨x, hx'⟩, ⟨y, hy'⟩, ?_⟩
  intro w z hw hz
  rw [hw.unique sol hx', hz.unique sol hy']
  exact hxy x y hx hy

end Solved

/-! ### Models -/

theorem atoms_resolveNew (p : Pass) (inner : Inner) (t : Term) (wrapper : Option Wrapper) (a : Address) (w : Work) :
    (resolveNew p inner t wrapper a w).1.atoms? =
      some (canonical (p.about (t :: p.aliases a)) t (t :: p.aliases a)) := by
  have hseq : ∀ asSet raw as,
      (resolveSequence p inner t asSet raw as w).1.atoms? = some as := by
    intro asSet raw as
    unfold resolveSequence
    split
    · rfl
    · split
      · rfl
      · split <;> rfl
  have hmap : ∀ raw as, (resolveMap p inner t raw as w).1.atoms? = some as := by
    intro raw as
    unfold resolveMap
    dsimp only
    split
    · rfl
    · split <;> rfl
  unfold resolveNew
  dsimp only
  split
  · rfl
  · split
    · exact hseq false _ _
    · exact hseq true _ _
    · exact hmap _ _
    · rfl

/-- The names that the atoms have for the address of a reference, if it has one. -/
def Pass.namesOf (p : Pass) (a : Option Address) : List Term := (a.map p.aliases).getD []

theorem canonical_self (as : List Atom) (t : Term) : canonical as t [t] = .ofList as := by
  have hnone : [t].filter (· ≠ t) = [] := by simp
  rw [canonical, hnone]
  exact congrArg OrderedSet.ofList ((List.map_congr_left fun b _ => b.substitute_empty).trans (List.map_id' as))

/-- The atoms of the model of a reference are those about it and the other names of its address, in terms of it
alone. -/
theorem atoms_resolveReference_eq (p : Pass) (n : Nat) (wrapper : Option Wrapper) (t : Term) (w : Work) :
    ∃ model, (resolveReference p (n + 1) wrapper t w).2.store.get? (resolveReference p (n + 1) wrapper t w).1 =
        some model ∧
      ∀ as, model.atoms? = some as → as = canonical (p.about (t :: p.namesOf (p.address? w t))) t
        (t :: p.namesOf (p.address? w t)) := by
  rw [resolveReference]
  split
  next ha =>
    rw [ha]
    refine ⟨_, get?_answer_fst _ _ _, fun as has => (Option.some.inj has).symm.trans ?_⟩
    exact (canonical_self _ t).symm
  next a ha =>
    rw [ha]
    split
    · exact ⟨_, get?_answer_fst _ _ _, fun as has => by cases has⟩
    · split
      · exact ⟨_, get?_answer_fst _ _ _, fun as has => by cases has⟩
      · have hnew := (resolveNew_ok (w := (w.reserve a).2) (innerOk_reference p n) t wrapper a
          fun h => h.elim).step.extended
        refine ⟨(resolveNew p (resolveReference p n none) t wrapper a (w.reserve a).2).1, ?_, ?_⟩
        · have hsize : (w.reserve a).2.store.size = w.store.size + 1 := Store.size_reserve w.store
          have hlt : (w.reserve a).1.index < (w.reserve a).2.store.size := hsize ▸ Nat.lt_succ_self _
          exact (Store.get?_fill _ _ _ _).trans (if_pos ⟨rfl, hnew.lt hlt⟩)
        · intro as has
          rw [atoms_resolveNew] at has
          exact (Option.some.inj has).symm

/-- The atoms stand as they are if the reference has no address. -/
theorem atoms_resolveReference (p : Pass) (n : Nat) (wrapper : Option Wrapper) (t : Term) (w : Work) :
    ∃ model, (resolveReference p (n + 1) wrapper t w).2.store.get? (resolveReference p (n + 1) wrapper t w).1 =
        some model ∧
      ∀ as, model.atoms? = some as → as = .ofList (p.about [t]) ∨
        ∃ a, p.address? w t = some a ∧ as = canonical (p.about (t :: p.aliases a)) t (t :: p.aliases a) := by
  obtain ⟨model, hmodel, hatoms⟩ := atoms_resolveReference_eq p n wrapper t w
  refine ⟨model, hmodel, fun as has => ?_⟩
  rw [hatoms as has]
  cases p.address? w t with
  | none => exact Or.inl (canonical_self _ t)
  | some a => exact Or.inr ⟨a, rfl, rfl⟩

theorem atoms_start_initial {settings : Settings} (hsoft : settings.useSoft = false) (s : State) (m : Assignment) :
    (Pass.start settings s m .initial).atoms = s.path.hard := by
  show s.path.atoms settings.useSoft = s.path.hard
  rw [hsoft, Path.atoms_false]

theorem exists_budget (p : Pass) (t : Term) : ∃ n, p.bound + t.subterms.length = n + 1 := by
  have hpos := List.length_pos_of_mem t.self_mem_subterms
  exact ⟨p.bound + t.subterms.length - 1, by omega⟩

theorem mem_nameTerms_iff {eval : Term → Option Value} {ts : List Term} {a : Address} {t : Term} :
    (a, t) ∈ nameTerms eval ts ↔
      t ∈ ts ∧ t.isReference = true ∧ t.isConst = false ∧ eval t = some (.addr a) := by
  constructor
  · intro h
    obtain ⟨u, hu, he⟩ := List.mem_filterMap.mp h
    obtain ⟨b, hb, he⟩ := Option.map_eq_some_iff.mp he
    cases he
    obtain ⟨hmem, hkind⟩ := List.mem_filter.mp (List.mem_eraseDups.mp hu)
    simp only [Bool.and_eq_true, Bool.not_eq_true'] at hkind
    exact ⟨hmem, hkind.1, hkind.2, eq_addr_of_addr? hb⟩
  · rintro ⟨hmem, href, hconst, hvalue⟩
    refine List.mem_filterMap.mpr ⟨t, ?_, by simp [hvalue, Value.addr?]⟩
    exact List.mem_eraseDups.mpr (List.mem_filter.mpr ⟨hmem, by simp [href, hconst]⟩)

theorem mem_nameTerms {eval : Term → Option Value} {ts : List Term} {a : Address} {t : Term}
    (h : (a, t) ∈ nameTerms eval ts) : eval t = some (.addr a) :=
  (mem_nameTerms_iff.mp h).2.2.2

theorem Pass.mem_aliases_iff {p : Pass} {eval : Term → Option Value}
    (hp : p.named = nameTerms eval (p.atoms.flatMap Atom.terms)) {a : Address} {t : Term} :
    t ∈ p.aliases a ↔
      t ∈ p.atoms.flatMap Atom.terms ∧ t.isReference = true ∧ t.isConst = false ∧ eval t = some (.addr a) := by
  rw [← mem_nameTerms_iff, ← hp]
  simp [Pass.aliases]

theorem named_start (settings : Settings) (s : State) (m : Assignment) (snapshot : Snapshot) :
    let p := Pass.start settings s m snapshot
    p.named = nameTerms (p.eval {}) (p.atoms.flatMap Atom.terms) := by
  cases snapshot <;> rfl

theorem find?_names_iff {names : List Term} {t k u : Term} :
    (Table.ofList ((names.filter (· ≠ t)).map fun a => (a, t))).find? k = some u ↔ k ∈ names ∧ k ≠ t ∧ u = t := by
  have hforward : ∀ {y : Term}, (Table.ofList ((names.filter (· ≠ t)).map fun a => (a, t))).find? k = some y →
      k ∈ names ∧ k ≠ t ∧ y = t := by
    intro y hy
    rw [Table.find?_ofList] at hy
    obtain ⟨a, ha, he⟩ := List.mem_map.mp (List.mem_reverse.mp (mem_of_lookup hy))
    cases he
    simpa using ha
  constructor
  · exact hforward
  · rintro ⟨hk, hne, rfl⟩
    have hkey : k ∈ ((names.filter (· ≠ u)).map fun a => (a, u)).reverse.map (·.1) := by simp [hk, hne]
    obtain ⟨y, hy⟩ := exists_lookup_of_mem hkey
    rw [← Table.find?_ofList] at hy
    rw [hy, (hforward hy).2.2]

/-- The atoms about an address under one of its names are true. -/
theorem holds_canonical {m : Assignment} {path : Path} {v : Solver.Valuation} (sol : Solver.Solution path.hard m v)
    {as : List Atom} (has : ∀ a ∈ as, a ∈ path.hard) {t : Term} {aliases : List Term} {x : Value}
    (ht : Denotes m path t x) (hal : ∀ u ∈ aliases, Denotes m path u x) :
    ∀ a ∈ canonical as t aliases, Holds m path a := by
  intro a ha
  obtain ⟨b, hb, rfl⟩ := List.mem_map.mp (OrderedSet.mem_ofList.mp ha)
  refine (holds_of_mem sol (has b hb)).substitute sol ?_
  intro k u y hk hy
  obtain ⟨hmem, -, rfl⟩ := find?_names_iff.mp hk
  rw [hy.unique sol (hal k hmem)]
  exact ht

/-- The indices that are made up while values are resolved before the call. -/
def madeUpBefore (settings : Settings) (s : State) (m : Assignment) (values : List Sym) : StandIns :=
  (resolveValues (Pass.start settings s m .initial) values {}).2.standIns

/-- The atoms of the model of a reference that is asked for before the call are true, unless the reference bears the
name of an index that was made up for an earlier value. If the path reads through numbers as well, a place is given by
any value. -/
theorem resolve_initial_atoms {settings : Settings} (hsoft : settings.useSoft = false) {s : State} {limit : Nat}
    {m : Assignment} (hm : Solver.check limit s.path false = some m) {values : List Sym} {i : Nat} {t : Term}
    {wrapper : Option Wrapper} (ht : values[i]? = some (.ref t wrapper))
    (hnew : ∀ u ∈ t.subterms, (madeUpBefore settings s m (values.take i)).find? u = none) :
    ∃ h model, (resolve settings s m .initial values).params[i]? = some h ∧
      (resolve settings s m .initial values).store.get? h = some model ∧
      ∀ as, model.atoms? = some as → ∀ a ∈ as,
        (ReadsPlaced m s.path → TrueBefore m s.path a) ∧ Holds m s.path a := by
  rw [Solver.check_hard] at hm
  obtain ⟨v, sol⟩ := Solver.solve_some hm
  suffices hholds : ∃ h model, (resolve settings s m .initial values).params[i]? = some h ∧
      (resolve settings s m .initial values).store.get? h = some model ∧
      ∀ as, model.atoms? = some as → ∀ a ∈ as, Holds m s.path a by
    obtain ⟨h, model, hget, hmodel, hatoms⟩ := hholds
    refine ⟨h, model, hget, hmodel, fun as has a ha => ?_⟩
    exact ⟨fun hp => (hatoms as has a ha).trueBefore sol hp, hatoms as has a ha⟩
  have hs := (seesCall_start sol settings .initial).toSeesReads
  have hatoms := atoms_start_initial hsoft s m
  obtain ⟨hget, hext⟩ := resolveValues_get (Pass.start settings s m .initial) ht {}
  obtain ⟨n, hn⟩ := exists_budget (Pass.start settings s m .initial) t
  rw [resolveValue, hn] at hget hext
  obtain ⟨model, hmodel, hmodels⟩ := atoms_resolveReference (Pass.start settings s m .initial) n wrapper t
    (resolveValues (Pass.start settings s m .initial) (values.take i) {}).2
  refine ⟨_, model, hget, hext.get?_some hmodel, ?_⟩
  intro as has
  have habout : ∀ ts, ∀ a ∈ (Pass.start settings s m .initial).about ts, a ∈ s.path.hard :=
    fun ts a ha => hatoms ▸ (List.mem_filter.mp ha).1
  rcases hmodels as has with rfl | ⟨b, hb, rfl⟩
  · intro a ha
    exact holds_of_mem sol (habout _ a (OrderedSet.mem_ofList.mp ha))
  · -- The reference and all its aliases denote the address, so each may stand for the other.
    have hread : ∀ u, (Pass.start settings s m .initial).heap.before {} u = some (.addr b) →
        Denotes m s.path u (.addr b) :=
      fun u hu => denotes_of_readBefore sol ((hs.before_eq u).symm.trans hu)
    have hself : Denotes m s.path t (.addr b) := by
      apply hread
      rw [← before_of_absent _ hnew]
      exact eq_addr_of_addr? hb
    refine holds_canonical sol (habout _) hself ?_
    intro u hu
    rcases List.mem_cons.mp hu with rfl | hu
    · exact hself
    · obtain ⟨⟨c, z⟩, hc, rfl⟩ := List.mem_map.mp hu
      have hcb : c = b := by simpa using (List.mem_filter.mp hc).2
      subst hcb
      exact hread z (mem_nameTerms (List.mem_filter.mp hc).1)

/-- An array, and a list whose tail is the list itself. -/
def knotted : State :=
  let node : Ty := .object "Node"
  let next : Field := ⟨"Node", "next", node⟩
  let item : Field := ⟨"Node", "item", .int⟩
  let a : Term := .param "a" (.array .int)
  let x : Term := .param "x" node
  { path := { hard := [.ne a .null, .eq (.length a) (.int 2), .eq (.element a (.int 0) .int) (.int 9), .ne x .null,
      .eq (.field x next) x, .eq (.field (.field x next) item) (.int 5), .lt (.field x item) (.int 6)] } }

/-- The tail of the list, asked for after the array. -/
def tailAfterArray : List Sym :=
  [.ref (.param "a" (.array .int)) none,
    .ref (.field (.param "x" (.object "Node")) ⟨"Node", "next", .object "Node"⟩) none]

theorem resolve_initial_atoms_knotted : ∃ m, Solver.check 1000 knotted.path false = some m ∧
    (madeUpBefore {} knotted m (tailAfterArray.take 1)).size = 1 ∧ ReadsPlaced m knotted.path ∧
    ∃ h model, (resolve {} knotted m .initial tailAfterArray).params[1]? = some h ∧
      (resolve {} knotted m .initial tailAfterArray).store.get? h = some model ∧
      ∀ as, model.atoms? = some as → ∀ a ∈ as,
        (ReadsPlaced m knotted.path → TrueBefore m knotted.path a) ∧ Holds m knotted.path a := by
  have hall : ∃ m ∈ Solver.check 1000 knotted.path false,
      (madeUpBefore {} knotted m (tailAfterArray.take 1)).size = 1 ∧ ReadsPlaced m knotted.path ∧
      ∀ u ∈ (Term.field (.param "x" (.object "Node")) ⟨"Node", "next", .object "Node"⟩).subterms,
        (madeUpBefore {} knotted m (tailAfterArray.take 1)).find? u = none := by
    decide +kernel
  obtain ⟨m, hm, hsize, hplaced, hnew⟩ := hall
  exact ⟨m, hm, hsize, hplaced, resolve_initial_atoms rfl hm rfl hnew⟩

/-- Two arrays, and a local with the name that is made up for an index of the first. -/
def namesakeIndex : State :=
  let node : Ty := .object "Node"
  let item : Field := ⟨"Node", "item", .int⟩
  let a : Term := .param "a" (.array .int)
  let b : Term := .param "b" (.array node)
  { path := { hard := [.ne a .null, .eq (.length a) (.int 2), .eq (.element a (.int 0) .int) (.int 9),
      .eq (.localVar "a_index0" .int) (.int 1), .ne b .null, .eq (.field (.element b (.int 0) node) item) (.int 7),
      .eq (.field (.element b (.int 1) node) item) (.int 5)] } }

/-- The object in the second array that the local points at. -/
def pointedAt : Term := .element (.param "b" (.array (.object "Node"))) (.localVar "a_index0" .int) (.object "Node")

/-- The local is taken for the index of the first array, so the object at index `0` is described in place of the one
at index `1`, whose item is not `7`. -/
theorem resolve_initial_atoms_captured : ∃ m, Solver.check 1000 namesakeIndex.path false = some m ∧
    ReadsPlaced m namesakeIndex.path ∧ ∃ as, (resolve {} namesakeIndex m .initial
          [.ref (.param "a" (.array .int)) none, .ref pointedAt none]).params[1]? = some ⟨4⟩ ∧
      (resolve {} namesakeIndex m .initial
          [.ref (.param "a" (.array .int)) none, .ref pointedAt none]).store.get? ⟨4⟩ =
        some (.object pointedAt as) ∧
      ∃ a ∈ as, ¬ TrueBefore m namesakeIndex.path a ∧ ¬ Holds m namesakeIndex.path a := by
  have hall : ∃ m ∈ Solver.check 1000 namesakeIndex.path false, ReadsPlaced m namesakeIndex.path ∧
      (resolve {} namesakeIndex m .initial
          [.ref (.param "a" (.array .int)) none, .ref pointedAt none]).params[1]? = some ⟨4⟩ ∧
      (resolve {} namesakeIndex m .initial
          [.ref (.param "a" (.array .int)) none, .ref pointedAt none]).store.get? ⟨4⟩ =
        some (.object pointedAt ⟨[.eq (.field pointedAt ⟨"Node", "item", .int⟩) (.int 7)]⟩) ∧
      readBefore m namesakeIndex.path (.field pointedAt ⟨"Node", "item", .int⟩) = some (.int 5) := by
    decide +kernel
  obtain ⟨m, hm, hplaced, hparams, hget, hread⟩ := hall
  have hm' : Solver.check 1000 namesakeIndex.path false = some m := hm
  rw [Solver.check_hard] at hm'
  obtain ⟨v, sol⟩ := Solver.solve_some hm'
  refine ⟨m, hm, hplaced, _, hparams, hget, _, List.mem_singleton_self _, ?_, ?_⟩
  · rintro ⟨x, y, hx, hy, htrue⟩
    cases hread.symm.trans hx
    cases hy
    exact absurd htrue (by decide)
  · rintro ⟨-, -, htrue⟩
    have h := htrue _ _ (denotes_of_readBefore sol hread) (.own (Assignment.eval_const m (.int 7)))
    exact absurd h (by decide)

end Resolve

end Symex
