import Symex.Proofs.Solver.Valuation
import Symex.Solver.Basic

/-!
# The solver is sound

An answer of the solver makes every atom that was solved true, gives a value to every term in them, and describes a
heap: reads of the same place have the same value, also where the places coincide only by the values that the
search happened to try.
-/

namespace Symex

theorem Assignment.eval_of_not_const (m : Assignment) {t : Term} (h : t.isConst = false) : m.eval t = m.find? t := by
  cases t with
  | const v => cases h
  | _ => rfl

/-- Reads of equal places have equal values. -/
structure Assignment.Functional (m : Assignment) : Prop where
  field : ∀ {b c : Term} {f : Field} {x v w : Value}, m.eval b = some x → m.eval c = some x →
    m.eval (.field b f) = some v → m.eval (.field c f) = some w → v = w
  element : ∀ {a b i j : Term} {s t : Ty} {x y v w : Value}, m.eval a = some x → m.eval b = some x →
    m.eval i = some y → m.eval j = some y →
    m.eval (.element a i s) = some v → m.eval (.element b j t) = some w → v = w
  length : ∀ {a b : Term} {x v w : Value}, m.eval a = some x → m.eval b = some x →
    m.eval (.length a) = some v → m.eval (.length b) = some w → v = w

namespace Solver

open Problem

theorem mem_pairs {α : Type} {l : List α} {a b : α} (ha : a ∈ l) (hb : b ∈ l) (hne : a ≠ b) :
    (a, b) ∈ pairs l ∨ (b, a) ∈ pairs l := by
  induction l with
  | nil => cases ha
  | cons x l ih =>
    rw [pairs, List.mem_append, List.mem_append]
    rcases List.mem_cons.mp ha with rfl | ha'
    · rcases List.mem_cons.mp hb with rfl | hb'
      · exact absurd rfl hne
      · exact Or.inl (Or.inl (List.mem_map.mpr ⟨b, hb', rfl⟩))
    · rcases List.mem_cons.mp hb with rfl | hb'
      · exact Or.inr (Or.inl (List.mem_map.mpr ⟨a, ha', rfl⟩))
      · rcases ih ha' hb' with h | h
        · exact Or.inl (Or.inr h)
        · exact Or.inr (Or.inr h)

theorem lhs_mem_termsOf {as : List Atom} {a : Atom} (h : a ∈ as) : a.lhs ∈ termsOf as :=
  mem_termsOf.mpr ⟨a, h, List.mem_append_left _ (Term.self_mem_subterms _)⟩

theorem rhs_mem_termsOf {as : List Atom} {a : Atom} (h : a ∈ as) : a.rhs ∈ termsOf as :=
  mem_termsOf.mpr ⟨a, h, List.mem_append_right _ (Term.self_mem_subterms _)⟩

theorem subterm_mem_termsOf {as : List Atom} {t u : Term} (ht : t ∈ termsOf as) (hu : u ∈ t.subterms) :
    u ∈ termsOf as := by
  obtain ⟨a, ha, hta⟩ := mem_termsOf.mp ht
  exact mem_termsOf.mpr ⟨a, ha, Atom.mem_terms_of_subterm hta hu⟩

theorem part_mem_termsOf {as : List Atom} {t u : Term} (ht : t ∈ termsOf as) (hu : u ∈ t.parts) : u ∈ termsOf as :=
  subterm_mem_termsOf ht (Term.mem_subterms_iff.mpr (Or.inr ⟨u, hu, Term.self_mem_subterms u⟩))

/-- A solution with the classes and the valuation that it comes from. -/
structure Solution (as : List Atom) (m : Assignment) (v : Valuation) : Prop where
  consistent : (problemOf as (Classes.ofAtoms as)).consistent v = true
  functional : (problemOf as (Classes.ofAtoms as)).functional v = true
  eval_label : ∀ {t : Term} {l : Nat}, (Classes.ofAtoms as).label? t = some l → m.eval t = valueAt v l
  valued : ∀ {t : Term} {l : Nat}, (Classes.ofAtoms as).label? t = some l → (valueAt v l).isSome
  outside : ∀ {t : Term}, t ∉ termsOf as → m.find? t = none

theorem find?_assignmentOf (as : List Atom) (v : Valuation) (t : Term) :
    (Table.ofList (assignmentOf (Classes.ofAtoms as) v)).find? t =
      ((Classes.ofAtoms as).label? t).bind (valueAt v) := by
  have hn : ((assignmentOf (Classes.ofAtoms as) v).map (·.1)).Nodup := by
    apply List.Nodup.sublist _ (Classes.nodup_ofAtoms as)
    rw [assignmentOf]
    induction (Classes.ofAtoms as).members with
    | nil => exact List.Sublist.refl _
    | cons e l ih =>
      cases hv : valueAt v e.2 with
      | none =>
        simp only [List.filterMap_cons, hv, Option.map_none, List.map_cons]
        exact ih.cons e.1
      | some x =>
        simp only [List.filterMap_cons, hv, Option.map_some, List.map_cons]
        exact ih.cons_cons e.1
  apply Option.ext
  intro x
  have hleft : (Table.ofList (assignmentOf (Classes.ofAtoms as) v)).find? t = some x ↔
      (t, x) ∈ assignmentOf (Classes.ofAtoms as) v := Table.find?_ofList_of_nodup hn
  rw [hleft, assignmentOf, List.mem_filterMap, Option.bind_eq_some_iff]
  constructor
  · rintro ⟨⟨s, l⟩, hm, he⟩
    obtain ⟨y, hy, hp⟩ := Option.map_eq_some_iff.mp he
    have hs : s = t := congrArg Prod.fst hp
    have hyx : y = x := congrArg Prod.snd hp
    exact ⟨l, Classes.label?_eq_some_iff.mpr (hs ▸ hm), hyx ▸ hy⟩
  · rintro ⟨l, hl, hv⟩
    exact ⟨(t, l), Classes.label?_eq_some_iff.mp hl, by rw [hv]; rfl⟩

theorem searchClasses_eq {as : List Atom} (h : clash (Classes.ofAtoms as) = false) (limit : Nat) :
    searchClasses limit as (Classes.ofAtoms as) = leaving (fixedValues (Classes.ofAtoms as)).1
      (search (problemOf as (Classes.ofAtoms as)) limit (fixedValues (Classes.ofAtoms as)).2
        (fixedValues (Classes.ofAtoms as)).1 0) := by
  have hfixed := fixed_fixedValues (Classes.bounded_ofAtoms as) h
  exact backtrack_eq hfixed.nodup (fun k hk => (hfixed.unset k hk).2) 0

theorem solve_eq_map {as : List Atom} (h : clash (Classes.ofAtoms as) = false) (limit : Nat) :
    solve limit as = (search (problemOf as (Classes.ofAtoms as)) limit (fixedValues (Classes.ofAtoms as)).2
      (fixedValues (Classes.ofAtoms as)).1 0).2.map fun v => Table.ofList (assignmentOf (Classes.ofAtoms as) v) := by
  unfold solve
  dsimp only
  rw [h, if_neg Bool.false_ne_true, searchClasses_eq h]
  cases hs : (search (problemOf as (Classes.ofAtoms as)) limit (fixedValues (Classes.ofAtoms as)).2
    (fixedValues (Classes.ofAtoms as)).1 0).2 <;> simp [leaving, hs]

/-- An answer is read off the valuation that the search found. -/
theorem solve_eq_some {limit : Nat} {as : List Atom} {m : Assignment} (h : solve limit as = some m) :
    clash (Classes.ofAtoms as) = false ∧ ∃ n v, search (problemOf as (Classes.ofAtoms as)) limit
      (fixedValues (Classes.ofAtoms as)).2 (fixedValues (Classes.ofAtoms as)).1 0 = (n, some v) ∧
      m = Table.ofList (assignmentOf (Classes.ofAtoms as) v) := by
  cases hclash : clash (Classes.ofAtoms as) with
  | true => simp [solve, hclash] at h
  | false =>
    rw [solve_eq_map hclash] at h
    obtain ⟨v, hv, rfl⟩ := Option.map_eq_some_iff.mp h
    exact ⟨rfl, _, v, Prod.ext rfl hv, rfl⟩

/-- A valuation with the fixed values, and with some value for every open class. -/
structure Total (as : List Atom) (w : Valuation) : Prop where
  kept : ∀ k, k ∉ (fixedValues (Classes.ofAtoms as)).2 → valueAt w k = valueAt (fixedValues (Classes.ofAtoms as)).1 k
  filled : ∀ k ∈ (fixedValues (Classes.ofAtoms as)).2, (valueAt w k).isSome

namespace Total

variable {as : List Atom} {w : Valuation} (h : Total as w) (hclash : clash (Classes.ofAtoms as) = false)

include h hclash

theorem eval_label {t : Term} {l : Nat} (hl : (Classes.ofAtoms as).label? t = some l) :
    Assignment.eval (Table.ofList (assignmentOf (Classes.ofAtoms as) w)) t = valueAt w l := by
  have hfixed := fixed_fixedValues (Classes.bounded_ofAtoms as) hclash
  cases t with
  | const x =>
    have hc := hfixed.constant (mem_constants.mpr (Classes.label?_eq_some_iff.mp hl))
    rw [h.kept l hc.2, hc.1]
    rfl
  | _ => simp only [Assignment.eval, find?_assignmentOf, hl, Option.bind_some]

theorem valued {t : Term} {l : Nat} (hl : (Classes.ofAtoms as).label? t = some l) : (valueAt w l).isSome := by
  have hfixed := fixed_fixedValues (Classes.bounded_ofAtoms as) hclash
  by_cases ho : l ∈ (fixedValues (Classes.ofAtoms as)).2
  · exact h.filled l ho
  · rw [h.kept l ho]
    exact (hfixed.covered (Classes.label?_eq_some_iff.mp hl)).resolve_right ho

theorem solution (hc : (problemOf as (Classes.ofAtoms as)).consistent w = true)
    (hf : (problemOf as (Classes.ofAtoms as)).functional w = true) :
    Solution as (Table.ofList (assignmentOf (Classes.ofAtoms as) w)) w := by
  refine ⟨hc, hf, h.eval_label hclash, h.valued hclash, ?_⟩
  intro t ht
  rw [find?_assignmentOf]
  cases hl : (Classes.ofAtoms as).label? t with
  | none => rfl
  | some l => exact absurd (Classes.mem_termsOf_of_label hl) ht

end Total

theorem solution_of_search {limit n : Nat} {as : List Atom} {v : Valuation}
    (hclash : clash (Classes.ofAtoms as) = false)
    (hv : search (problemOf as (Classes.ofAtoms as)) limit (fixedValues (Classes.ofAtoms as)).2
      (fixedValues (Classes.ofAtoms as)).1 0 = (n, some v)) :
    Solution as (Table.ofList (assignmentOf (Classes.ofAtoms as) v)) v := by
  have hfilled := search_some hv
  have hfixed := fixed_fixedValues (Classes.bounded_ofAtoms as) hclash
  have htotal : Total as v := by
    refine ⟨hfilled.kept, ?_⟩
    intro k hk
    obtain ⟨x, -, hx⟩ := hfilled.filled k hk (hfixed.unset k hk).1
    exact Option.isSome_iff_exists.mpr ⟨x, hx⟩
  exact htotal.solution hclash hfilled.consistent hfilled.functional

theorem solve_some {limit : Nat} {as : List Atom} {m : Assignment} (h : solve limit as = some m) :
    ∃ v, Solution as m v := by
  obtain ⟨hclash, n, v, hv, rfl⟩ := solve_eq_some h
  exact ⟨v, solution_of_search hclash hv⟩

namespace Solution

variable {as : List Atom} {m : Assignment} {v : Valuation}

theorem eval_isSome (s : Solution as m v) {t : Term} (h : t ∈ termsOf as) : (m.eval t).isSome := by
  obtain ⟨l, hl⟩ := Classes.exists_label h
  rw [s.eval_label hl]
  exact s.valued hl

theorem holds (s : Solution as m v) {a : Atom} (h : a ∈ as) : m.holds a = some true := by
  obtain ⟨i, hi⟩ := Classes.exists_label (lhs_mem_termsOf h)
  obtain ⟨j, hj⟩ := Classes.exists_label (rhs_mem_termsOf h)
  obtain ⟨x, hx⟩ := Option.isSome_iff_exists.mp (s.valued hi)
  obtain ⟨y, hy⟩ := Option.isSome_iff_exists.mp (s.valued hj)
  have hmem : (a.relation, i, j) ∈ (problemOf as (Classes.ofAtoms as)).atoms :=
    List.mem_filterMap.mpr ⟨a, h, by rw [hi, hj]; rfl⟩
  have hall := List.all_eq_true.mp s.consistent _ hmem
  simp only [hx, hy] at hall
  simp only [Assignment.holds, s.eval_label hi, s.eval_label hj, hx, hy, hall]

/-- A term that is no constant and has a value was solved. -/
theorem mem_of_eval (s : Solution as m v) {t : Term} {x : Value} (ht : t.isConst = false) (h : m.eval t = some x) :
    t ∈ termsOf as := by
  by_contra hn
  rw [m.eval_of_not_const ht, s.outside hn] at h
  cases h

theorem valueAt_eq_of_agree {r q : Read} (h : Problem.agree v r q = true) (hslot : r.slot = q.slot)
    (hbase : valueAt v r.base = valueAt v q.base)
    (hindex : ∀ i j, r.index = some i → q.index = some j → valueAt v i = valueAt v j) :
    valueAt v r.value = valueAt v q.value := by
  simp only [Problem.agree, hslot, hbase, bne_self_eq_false, Bool.false_or, Bool.or_eq_true, beq_iff_eq,
    Bool.not_eq_true'] at h
  rcases h with h | h
  · split at h
    · next i j hi hj =>
      rw [hindex i j hi hj] at h
      simp at h
    · cases h
  · exact h

theorem agree (s : Solution as m v) {r q : Read} (hr : r ∈ readsOf (Classes.ofAtoms as))
    (hq : q ∈ readsOf (Classes.ofAtoms as)) (hslot : r.slot = q.slot)
    (hbase : valueAt v r.base = valueAt v q.base)
    (hindex : ∀ i j, r.index = some i → q.index = some j → valueAt v i = valueAt v j) :
    valueAt v r.value = valueAt v q.value := by
  by_cases hrq : r = q
  · rw [hrq]
  · -- The test looks at each pair once, so either order may be the one that was looked at.
    have hall := List.all_eq_true.mp s.functional
    rcases mem_pairs hr hq hrq with hp | hp
    · exact valueAt_eq_of_agree (hall _ hp) hslot hbase hindex
    · exact (valueAt_eq_of_agree (hall _ hp) hslot.symm hbase.symm fun i j hi hj => (hindex j i hj hi).symm).symm

theorem exists_label (s : Solution as m v) {t : Term} {x : Value} (ht : t.isConst = false)
    (h : m.eval t = some x) : ∃ l, (Classes.ofAtoms as).label? t = some l ∧ valueAt v l = some x := by
  obtain ⟨l, hl⟩ := Classes.exists_label (s.mem_of_eval ht h)
  exact ⟨l, hl, by rw [← s.eval_label hl]; exact h⟩

theorem exists_label_of_subterm (s : Solution as m v) {t u : Term} {x : Value} (ht : t ∈ termsOf as)
    (hu : u ∈ t.subterms) (h : m.eval u = some x) :
    ∃ l, (Classes.ofAtoms as).label? u = some l ∧ valueAt v l = some x := by
  obtain ⟨l, hl⟩ := Classes.exists_label (subterm_mem_termsOf ht hu)
  exact ⟨l, hl, by rw [← s.eval_label hl]; exact h⟩

theorem exists_read_field (s : Solution as m v) {b : Term} {f : Field} {x y : Value} (hb : m.eval b = some x)
    (hy : m.eval (.field b f) = some y) : ∃ i l, (⟨.field f, i, none, l⟩ : Read) ∈ readsOf (Classes.ofAtoms as) ∧
      valueAt v i = some x ∧ valueAt v l = some y := by
  obtain ⟨l, hl, hly⟩ := s.exists_label rfl hy
  obtain ⟨i, hi, hix⟩ := s.exists_label_of_subterm (u := b) (s.mem_of_eval rfl hy)
    (List.mem_cons_of_mem _ (Term.self_mem_subterms b)) hb
  refine ⟨i, l, List.mem_filterMap.mpr ⟨_, Classes.label?_eq_some_iff.mp hl, ?_⟩, hix, hly⟩
  simp only [hi, Option.map_some]

theorem exists_read_length (s : Solution as m v) {a : Term} {x y : Value} (ha : m.eval a = some x)
    (hy : m.eval (.length a) = some y) : ∃ i l, (⟨.length, i, none, l⟩ : Read) ∈ readsOf (Classes.ofAtoms as) ∧
      valueAt v i = some x ∧ valueAt v l = some y := by
  obtain ⟨l, hl, hly⟩ := s.exists_label rfl hy
  obtain ⟨i, hi, hix⟩ := s.exists_label_of_subterm (u := a) (s.mem_of_eval rfl hy)
    (List.mem_cons_of_mem _ (Term.self_mem_subterms a)) ha
  refine ⟨i, l, List.mem_filterMap.mpr ⟨_, Classes.label?_eq_some_iff.mp hl, ?_⟩, hix, hly⟩
  simp only [hi, Option.map_some]

theorem exists_read_element (s : Solution as m v) {a i : Term} {t : Ty} {x y z : Value} (ha : m.eval a = some x)
    (hi : m.eval i = some y) (hz : m.eval (.element a i t) = some z) :
    ∃ la li l, (⟨.element, la, some li, l⟩ : Read) ∈ readsOf (Classes.ofAtoms as) ∧
      valueAt v la = some x ∧ valueAt v li = some y ∧ valueAt v l = some z := by
  have hmem := s.mem_of_eval rfl hz
  obtain ⟨l, hl, hlz⟩ := s.exists_label rfl hz
  obtain ⟨la, hla, hlax⟩ := s.exists_label_of_subterm (u := a) hmem
    (List.mem_cons_of_mem _ (List.mem_append_left _ (Term.self_mem_subterms a))) ha
  obtain ⟨li, hli, hliy⟩ := s.exists_label_of_subterm (u := i) hmem
    (List.mem_cons_of_mem _ (List.mem_append_right _ (Term.self_mem_subterms i))) hi
  refine ⟨la, li, l, List.mem_filterMap.mpr ⟨_, Classes.label?_eq_some_iff.mp hl, ?_⟩, hlax, hliy, hlz⟩
  simp only [hla, hli, Option.bind_some, Option.map_some]

theorem isFunctional (s : Solution as m v) : m.Functional := by
  constructor
  · intro b c f x y z hb hc hy hz
    obtain ⟨i, l, hr, hix, hly⟩ := s.exists_read_field hb hy
    obtain ⟨j, k, hq, hjx, hkz⟩ := s.exists_read_field hc hz
    have ha := s.agree hr hq rfl (hix.trans hjx.symm) (by simp)
    exact Option.some.inj (hly.symm.trans (ha.trans hkz))
  · intro a b i j s' t x y p q ha hb hi hj hp hq
    obtain ⟨la, li, l, hr, hlax, hliy, hlp⟩ := s.exists_read_element ha hi hp
    obtain ⟨lb, lj, k, hr', hlbx, hljy, hkq⟩ := s.exists_read_element hb hj hq
    have hindex : ∀ n n', some li = some n → some lj = some n' → valueAt v n = valueAt v n' := by
      intro n n' hn hn'
      rw [← Option.some.inj hn, ← Option.some.inj hn']
      exact hliy.trans hljy.symm
    have hag := s.agree hr hr' rfl (hlax.trans hlbx.symm) hindex
    exact Option.some.inj (hlp.symm.trans (hag.trans hkq))
  · intro a b x y z ha hb hy hz
    obtain ⟨i, l, hr, hix, hly⟩ := s.exists_read_length ha hy
    obtain ⟨j, k, hq, hjx, hkz⟩ := s.exists_read_length hb hz
    have hag := s.agree hr hq rfl (hix.trans hjx.symm) (by simp)
    exact Option.some.inj (hly.symm.trans (hag.trans hkz))

end Solution

/-- The answer of a check solves the soft atoms too exactly if they were asked for and can be solved. -/
theorem check_eq_some {limit : Nat} {p : Path} {respectSoft : Bool} {m : Assignment}
    (h : check limit p respectSoft = some m) :
    solve limit (p.atoms (respectSoft && (solve limit (p.atoms true)).isSome)) = some m := by
  cases respectSoft with
  | false => simpa [check] using h
  | true =>
    by_cases he : p.soft = []
    · have hatoms : p.atoms true = p.atoms false := by simp [Path.atoms, he]
      have hs : solve limit (p.atoms false) = some m := by simpa [check, he] using h
      rw [hatoms, hs, Option.isSome_some, Bool.and_true, hatoms]
      exact hs
    · have hs : (solve limit (p.atoms true)).or (solve limit (p.atoms false)) = some m := by
        simpa [check, he] using h
      cases hboth : solve limit (p.atoms true) with
      | none =>
        rw [hboth, Option.none_or] at hs
        exact hs
      | some x =>
        rw [hboth, Option.some_or] at hs
        rw [Option.isSome_some, Bool.and_true, hboth]
        exact hs

/-- An answer makes every hard atom true, gives a value to every term and subterm of the atoms that were solved, and
describes a heap. The soft atoms are true too if they were asked for and can be solved together with the hard
ones. -/
theorem check_sound {limit : Nat} {p : Path} {respectSoft : Bool} {m : Assignment}
    (h : check limit p respectSoft = some m) :
    (∀ a ∈ p.hard, m.holds a = some true) ∧
      (∀ a ∈ p.atoms (respectSoft && (solve limit (p.atoms true)).isSome), ∀ t ∈ a.terms, (m.eval t).isSome) ∧
      m.Functional ∧
      (respectSoft = true → (solve limit (p.atoms true)).isSome → ∀ a ∈ p.soft, m.holds a = some true) := by
  obtain ⟨v, s⟩ := solve_some (check_eq_some h)
  refine ⟨?_, ?_, s.isFunctional, ?_⟩
  · intro a ha
    exact s.holds (List.mem_append_left _ ha)
  · intro a ha t ht
    exact s.eval_isSome (mem_termsOf.mpr ⟨a, ha, ht⟩)
  · intro hsoft hsome a ha
    apply s.holds
    rw [hsoft, hsome]
    exact List.mem_append_right _ ha

/-- Two arrays that are the same, two indices that can only be equal, and a soft atom that can be respected. -/
def aliasedPath : Path :=
  let ints : Ty := .array .int
  let a : Term := .param "a" ints
  let b : Term := .param "b" ints
  let i : Term := .param "i" .int
  let j : Term := .param "j" .int
  { hard := [.eq a b, .ge i (.int 3), .lt i (.int 4), .ge j (.int 3), .lt j (.int 4),
      .ge (.element a i .int) (.int 7)]
    soft := [.lt (.element b j .int) (.int 9)] }

theorem check_sound_aliasedPath : ∃ m, check 1000 aliasedPath true = some m ∧
    (∀ a ∈ aliasedPath.hard, m.holds a = some true) ∧
      (∀ a ∈ aliasedPath.atoms (true && (solve 1000 (aliasedPath.atoms true)).isSome), ∀ t ∈ a.terms,
        (m.eval t).isSome) ∧
      m.Functional ∧
      (true = true → (solve 1000 (aliasedPath.atoms true)).isSome → ∀ a ∈ aliasedPath.soft,
        m.holds a = some true) := by
  have hs : (check 1000 aliasedPath true).isSome = true := by decide +kernel
  obtain ⟨m, hm⟩ := Option.isSome_iff_exists.mp hs
  exact ⟨m, hm, check_sound hm⟩

end Solver

end Symex
