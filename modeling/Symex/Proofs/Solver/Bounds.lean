import Mathlib.Algebra.Order.Ring.Int
import Mathlib.Data.Finset.Max
import Symex.Proofs.Solver.Decides

/-!
# Bounds are decided

Where numbers are only compared with constants, or said to be equal, a number can be moved next to a constant without
changing how it compares with any of them. So the small domain is enough. No atom is about two open classes, so a
value that passes for one class is never taken back, and the search looks at each candidate of each class at most once.
-/

namespace Symex

/-- A parameter or a local of integer type. -/
def Term.isNumber : Term → Bool
  | .param _ t => t = .int
  | .localVar _ t => t = .int
  | _ => false

/-- An integer constant. -/
def Term.isNumeral : Term → Bool
  | .const (.int _) => true
  | _ => false

/-- A comparison of numbers and numerals, where of two numbers it may only be said that they are equal. -/
def Atom.isBound (a : Atom) : Bool :=
  (a.lhs.isNumber || a.lhs.isNumeral) && (a.rhs.isNumber || a.rhs.isNumeral) &&
    (a.relation == .eq || a.lhs.isNumeral || a.rhs.isNumeral)

/-- The integer that a term stands for, given integers for the numbers. -/
def Term.intIn (val : Term → Int) : Term → Int
  | .const (.int n) => n
  | t => val t

/-- The relation between integers. -/
def Relation.Compares : Relation → Int → Int → Prop
  | eq, m, n => m = n
  | ne, m, n => m ≠ n
  | lt, m, n => m < n
  | le, m, n => m ≤ n
  | gt, m, n => m > n
  | ge, m, n => m ≥ n

/-- Whether a comparison is true, given integers for the numbers. -/
def Atom.TrueFor (val : Term → Int) (a : Atom) : Prop := a.relation.Compares (a.lhs.intIn val) (a.rhs.intIn val)

theorem Relation.holds_int_iff (r : Relation) (m n : Int) : r.holds (.int m) (.int n) = true ↔ r.Compares m n := by
  cases r with
  | eq => simp [holds, Compares]
  | ne => simp [holds, Compares]
  | lt => simp [holds, Compares, Value.cmp, Int.compare_eq_lt]
  | le => simp [holds, Compares, Value.cmp, Int.compare_ne_gt]
  | gt => simp [holds, Compares, Value.cmp, Int.compare_eq_gt]
  | ge => simp [holds, Compares, Value.cmp, Int.compare_ne_lt]

/-- Integers that compare alike with `k` stand in the same relations to it. -/
theorem Relation.compares_congr (r : Relation) {m n k : Int} (h : (m < k ↔ n < k) ∧ (k < m ↔ k < n)) :
    (r.Compares m k ↔ r.Compares n k) ∧ (r.Compares k m ↔ r.Compares k n) := by
  cases r <;> simp only [Compares] <;> omega

/-! ### Values that are no integers -/

/-- Values that are no integers, moved beyond all integers between `-b` and `b`. -/
def Value.clip (b : Int) : Value → Int
  | bool _ => -b
  | int n => n
  | addr _ => b

theorem Relation.compares_clip_left {r : Relation} {v : Value} {k b : Int} (hk : -b < k ∧ k < b)
    (h : r.holds v (.int k) = true) : r.Compares (v.clip b) k := by
  cases v with
  | int n => exact (r.holds_int_iff n k).mp h
  | bool x => cases r <;> simp [holds, Value.cmp] at h <;> simp only [Compares, Value.clip] <;> omega
  | addr a => cases r <;> simp [holds, Value.cmp] at h <;> simp only [Compares, Value.clip] <;> omega

theorem Relation.compares_clip_right {r : Relation} {v : Value} {k b : Int} (hk : -b < k ∧ k < b)
    (h : r.holds (.int k) v = true) : r.Compares k (v.clip b) := by
  cases v with
  | int n => exact (r.holds_int_iff k n).mp h
  | bool x => cases r <;> simp [holds, Value.cmp] at h <;> simp only [Compares, Value.clip] <;> omega
  | addr a => cases r <;> simp [holds, Value.cmp] at h <;> simp only [Compares, Value.clip] <;> omega

theorem Term.exists_of_isNumeral {t : Term} (h : t.isNumeral = true) : ∃ n, t = .int n := by
  cases t with
  | const v =>
    cases v with
    | int n => exact ⟨n, rfl⟩
    | _ => cases h
  | _ => cases h

theorem Term.ty_of_isNumber {t : Term} (h : t.isNumber = true) : t.ty = .int := by
  cases t with
  | param x y => exact of_decide_eq_true h
  | localVar x y => exact of_decide_eq_true h
  | _ => cases h

theorem Term.exists_bound (ts : List Term) : ∃ b : Int, ∀ n, Term.int n ∈ ts → -b < n ∧ n < b := by
  induction ts with
  | nil => exact ⟨0, fun n hn => absurd hn List.not_mem_nil⟩
  | cons t ts ih =>
    obtain ⟨b, hb⟩ := ih
    by_cases ht : t.isNumeral = true
    · obtain ⟨k, rfl⟩ := Term.exists_of_isNumeral ht
      refine ⟨max b (k.natAbs + 1), ?_⟩
      intro n hn
      rcases List.mem_cons.mp hn with he | hn
      · cases he
        omega
      · have hbn := hb n hn
        omega
    · refine ⟨b, fun n hn => hb n ((List.mem_cons.mp hn).resolve_left ?_)⟩
      rintro rfl
      exact ht rfl

namespace Solver

open Problem

/-- What an atom compares: a number and a numeral, two numerals, or two numbers that are said to be equal. -/
theorem cases_of_isBound {a : Atom} (h : a.isBound = true) :
    ((∃ n, a.lhs = .int n) ∨ a.lhs.isNumber = true) ∧ ((∃ n, a.rhs = .int n) ∨ a.rhs.isNumber = true) ∧
      ((∃ n, a.lhs = .int n) ∨ (∃ n, a.rhs = .int n) ∨ a.relation = .eq) := by
  simp only [Atom.isBound, Bool.and_eq_true, Bool.or_eq_true, beq_iff_eq] at h
  obtain ⟨⟨hl, hr⟩, hrel⟩ := h
  refine ⟨hl.symm.imp_left Term.exists_of_isNumeral, hr.symm.imp_left Term.exists_of_isNumeral, ?_⟩
  rcases hrel with (hrel | hrel) | hrel
  · exact Or.inr (Or.inr hrel)
  · exact Or.inl (Term.exists_of_isNumeral hrel)
  · exact Or.inr (Or.inl (Term.exists_of_isNumeral hrel))

section Bounds

variable {as : List Atom} (hb : ∀ a ∈ as, a.isBound = true)

include hb

theorem cases_of_mem_termsOf {t : Term} (ht : t ∈ termsOf as) : (∃ n, t = .int n) ∨ t.isNumber = true := by
  obtain ⟨a, ha, hta⟩ := mem_termsOf.mp ht
  obtain ⟨hl, hr, -⟩ := cases_of_isBound (hb a ha)
  -- Numbers and numerals have no parts.
  have hself : ∀ {s : Term}, (∃ n, s = .int n) ∨ s.isNumber = true → t ∈ s.subterms → t = s := by
    intro s hs hts
    cases s with
    | param x y => exact List.mem_singleton.mp hts
    | localVar x y => exact List.mem_singleton.mp hts
    | const v => exact List.mem_singleton.mp hts
    | _ =>
      rcases hs with ⟨n, hn⟩ | hs
      · cases hn
      · cases hs
  rcases List.mem_append.mp hta with h | h
  · exact hself hl h ▸ hl
  · exact hself hr h ▸ hr

/-- Values that satisfy bounds can be taken to be integers. -/
theorem Satisfying.exists_integers {val : Term → Value} (h : Satisfying as val) :
    ∃ ints : Term → Int, ∀ a ∈ as, a.TrueFor ints := by
  obtain ⟨b, hlarge⟩ := Term.exists_bound (termsOf as)
  have hclip : ∀ {t : Term}, (∃ n, t = .int n) ∨ t.isNumber = true →
      t.intIn (fun t => (val t).clip b) = (val t).clip b := by
    rintro t (⟨n, rfl⟩ | ht)
    · rw [Term.int, h.const]
      rfl
    · cases t with
      | const v => cases ht
      | _ => rfl
  refine ⟨fun t => (val t).clip b, fun a ha => ?_⟩
  obtain ⟨hl, hr, hrel⟩ := cases_of_isBound (hb a ha)
  have hholds := h.holds a ha
  rw [Atom.TrueFor, hclip hl, hclip hr]
  rcases hrel with ⟨n, hn⟩ | ⟨n, hn⟩ | hrel
  · have hbn := hlarge n (hn ▸ lhs_mem_termsOf ha)
    rw [hn, Term.int, h.const] at hholds ⊢
    exact Relation.compares_clip_right hbn hholds
  · have hbn := hlarge n (hn ▸ rhs_mem_termsOf ha)
    rw [hn, Term.int, h.const] at hholds ⊢
    exact Relation.compares_clip_left hbn hholds
  · rw [hrel] at hholds ⊢
    have hsame : val a.lhs = val a.rhs := beq_iff_eq.mp hholds
    rw [hsame]
    rfl

/-- The values of terms, given integers for the numbers. -/
def valueFor (ints : Term → Int) : Term → Value
  | .const v => v
  | t => .int (ints t)

omit hb in
theorem valueFor_eq {ints : Term → Int} {t : Term} (ht : (∃ n, t = .int n) ∨ t.isNumber = true) :
    valueFor ints t = .int (t.intIn ints) := by
  rcases ht with ⟨n, rfl⟩ | ht
  · rfl
  · cases t with
    | const v => cases ht
    | _ => rfl

theorem satisfying_valueFor {ints : Term → Int} (h : ∀ a ∈ as, a.TrueFor ints) : Satisfying as (valueFor ints) := by
  have hread : ∀ {t : Term}, t ∈ termsOf as → t.parts = [] := by
    intro t ht
    rcases cases_of_mem_termsOf hb ht with ⟨n, rfl⟩ | hn
    · rfl
    · cases t <;> first | rfl | cases hn
  refine ⟨fun v => rfl, ?_, ?_, ?_, ?_⟩
  · intro a ha
    obtain ⟨hl, hr, -⟩ := cases_of_isBound (hb a ha)
    rw [valueFor_eq hl, valueFor_eq hr, Relation.holds_int_iff]
    exact h a ha
  · exact fun hb => absurd (hread hb) (List.cons_ne_nil _ _)
  · exact fun ha => absurd (hread ha) (List.cons_ne_nil _ _)
  · exact fun ha => absurd (hread ha) (List.cons_ne_nil _ _)

end Bounds

/-! ### The small domain -/

theorem mem_insertSmaller {m n : Int} {l : List Int} : m ∈ insertSmaller n l ↔ m = n ∨ m ∈ l := by
  induction l with
  | nil => simp [insertSmaller]
  | cons k l ih =>
    unfold insertSmaller
    split
    next he =>
      subst he
      simp
    next =>
      split
      · simp
      · rw [List.mem_cons, ih, List.mem_cons]
        tauto

theorem length_insertSmaller_le (n : Int) (l : List Int) : (insertSmaller n l).length ≤ l.length + 1 := by
  induction l with
  | nil => simp [insertSmaller]
  | cons k l ih =>
    unfold insertSmaller
    split
    · omega
    · split
      · simp
      · simp only [List.length_cons]
        omega

/-- The integer constants of some classes. -/
def integersOf (c : Classes) : List Int := (constants c).filterMap fun e => e.2.int?

theorem mem_integersOf {c : Classes} {n : Int} : n ∈ integersOf c ↔ ∃ l, (Term.int n, l) ∈ c.members := by
  simp only [integersOf, List.mem_filterMap]
  constructor
  · rintro ⟨⟨l, v⟩, hv, hn⟩
    cases v with
    | int k =>
      cases hn
      exact ⟨l, mem_constants.mp hv⟩
    | _ => cases hn
  · rintro ⟨l, hl⟩
    exact ⟨(l, .int n), mem_constants.mpr hl, rfl⟩

theorem length_integersOf (c : Classes) : (integersOf c).length = c.terms.countP Term.isNumeral := by
  rw [integersOf, constants, Classes.terms]
  induction c.members with
  | nil => rfl
  | cons e l ih =>
    obtain ⟨t, k⟩ := e
    rw [List.map_cons]
    cases t with
    | const v =>
      cases v with
      | int n =>
        rw [List.countP_cons_of_pos rfl, ← ih]
        rfl
      | _ =>
        rw [List.countP_cons_of_neg Bool.false_ne_true, ← ih]
        rfl
    | _ =>
      rw [List.countP_cons_of_neg Bool.false_ne_true, ← ih]
      rfl

theorem mem_domainOf {c : Classes} {m : Int} :
    m ∈ domainOf c ↔ m = 0 ∨ m = 1 ∨ ∃ k ∈ integersOf c, m = k - 1 ∨ m = k + 1 ∨ m = k := by
  have hfold : ∀ l : List Int, m ∈ l.foldr insertSmaller [] ↔ m ∈ l := by
    intro l
    induction l with
    | nil => simp
    | cons n l ih => rw [List.foldr_cons, mem_insertSmaller, ih, List.mem_cons]
  have hdomain : domainOf c = ([0, 1] ++ (integersOf c).flatMap fun n => [n - 1, n + 1, n]).foldr insertSmaller [] := rfl
  rw [hdomain, hfold]
  simp [List.mem_flatMap]

theorem length_domainOf_le (c : Classes) : (domainOf c).length ≤ 2 + 3 * (integersOf c).length := by
  have hfold : ∀ l : List Int, (l.foldr insertSmaller []).length ≤ l.length := by
    intro l
    induction l with
    | nil => exact le_refl _
    | cons n l ih => exact (length_insertSmaller_le n _).trans (Nat.succ_le_succ ih)
  have hdomain : domainOf c = ([0, 1] ++ (integersOf c).flatMap fun n => [n - 1, n + 1, n]).foldr insertSmaller [] := rfl
  rw [hdomain]
  refine (hfold _).trans ?_
  simp [List.length_flatMap]
  omega

/-- Every integer has another in the domain that compares with all constants as it does: itself if it is one of them,
else the neighbour of the greatest constant below it, or of the least one above. -/
theorem exists_mem_domainOf (c : Classes) (n : Int) :
    ∃ m ∈ domainOf c, ∀ k ∈ integersOf c, (m < k ↔ n < k) ∧ (k < m ↔ k < n) := by
  by_cases hn : n ∈ integersOf c
  · exact ⟨n, mem_domainOf.mpr (Or.inr (Or.inr ⟨n, hn, Or.inr (Or.inr rfl)⟩)), fun k _ => ⟨Iff.rfl, Iff.rfl⟩⟩
  have hne : ∀ k ∈ integersOf c, k ≠ n := fun k hk he => hn (he ▸ hk)
  by_cases hbelow : ((integersOf c).toFinset.filter (· < n)).Nonempty
  · obtain ⟨g, hg, hmax⟩ := Finset.exists_max_image _ id hbelow
    simp only [Finset.mem_filter, List.mem_toFinset, id] at hg hmax
    refine ⟨g + 1, mem_domainOf.mpr (Or.inr (Or.inr ⟨g, hg.1, Or.inr (Or.inl rfl)⟩)), fun k hk => ?_⟩
    have hkn := hne k hk
    by_cases hlt : k < n
    · have hkg := hmax k ⟨hk, hlt⟩
      omega
    · omega
  · have habove : ∀ k ∈ integersOf c, n < k := by
      intro k hk
      have hkn := hne k hk
      have hge : ¬ k < n := fun hlt =>
        hbelow ⟨k, Finset.mem_filter.mpr ⟨List.mem_toFinset.mpr hk, hlt⟩⟩
      omega
    by_cases hsome : (integersOf c).toFinset.Nonempty
    · obtain ⟨g, hg, hmin⟩ := Finset.exists_min_image _ id hsome
      simp only [List.mem_toFinset, id] at hg hmin
      refine ⟨g - 1, mem_domainOf.mpr (Or.inr (Or.inr ⟨g, hg, Or.inl rfl⟩)), fun k hk => ?_⟩
      have hgk := hmin k hk
      have hng := habove g hg
      have hnk := habove k hk
      omega
    · refine ⟨0, mem_domainOf.mpr (Or.inl rfl), fun k hk => ?_⟩
      exact absurd ⟨k, List.mem_toFinset.mpr hk⟩ hsome

/-! ### A search that never goes back -/

/-- Candidates that fail at once cost one valuation each. -/
theorem firstSuccess_of_quick {α β : Type} {limit : Nat} (trial : α → Nat → Nat × Option β) (good : α → Prop)
    {as : List α} {cost : Nat} (hbad : ∀ a, ¬ good a → ∀ n, trial a n = (n + 1, none))
    (hgood : ∀ a, good a → ∀ n, n + 1 + cost ≤ limit → ∃ m b, trial a n = (m, some b) ∧ m ≤ n + 1 + cost)
    (hsome : ∃ a ∈ as, good a) {n : Nat} (hn : n + as.length + cost ≤ limit) :
    ∃ m b, firstSuccess limit trial as n = (m, some b) ∧ m ≤ n + as.length + cost := by
  induction as generalizing n with
  | nil =>
    obtain ⟨a, ha, -⟩ := hsome
    cases ha
  | cons a as ih =>
    rw [List.length_cons] at hn ⊢
    rw [firstSuccess]
    by_cases ha : good a
    · obtain ⟨m, b, hm, hle⟩ := hgood a ha n (by omega)
      rw [hm]
      exact ⟨m, b, rfl, by omega⟩
    · obtain ⟨x, hx, hgx⟩ := hsome
      have hx' : x ∈ as := (List.mem_cons.mp hx).resolve_left fun he => ha (he ▸ hgx)
      obtain ⟨m, b, hm, hle⟩ := ih ⟨x, hx', hgx⟩ (n := n + 1) (by omega)
      rw [hbad a ha n]
      dsimp only
      rw [if_neg (by omega : ¬ n + 1 > limit), hm]
      exact ⟨m, b, rfl, by omega⟩

/-- Values for two classes that no atom compares can be given one after the other. -/
theorem consistent_set_set {p : Problem} {v : Valuation} {c d : Nat} {x y : Value} (hne : c ≠ d)
    (hsep : ∀ a ∈ p.atoms, ¬ (a.2.1 = c ∧ a.2.2 = d) ∧ ¬ (a.2.1 = d ∧ a.2.2 = c))
    (hc : p.consistent (v.setIfInBounds c (some x)) = true) (hd : p.consistent (v.setIfInBounds d (some y)) = true) :
    p.consistent ((v.setIfInBounds c (some x)).setIfInBounds d (some y)) = true := by
  have hother : ∀ k, k ≠ c → valueAt ((v.setIfInBounds c (some x)).setIfInBounds d (some y)) k =
      valueAt (v.setIfInBounds d (some y)) k := by
    intro k hk
    rw [valueAt_set, valueAt_set_of_ne hk.symm, valueAt_set, Array.size_setIfInBounds]
  rw [consistent_iff] at hc hd ⊢
  intro a ha s t hs ht
  obtain ⟨hcd, hdc⟩ := hsep a ha
  by_cases hside : a.2.1 = d ∨ a.2.2 = d
  · have hsides : a.2.1 ≠ c ∧ a.2.2 ≠ c := by
      rcases hside with he | he
      · exact ⟨fun h => hne (h.symm.trans he), fun h => hdc ⟨he, h⟩⟩
      · exact ⟨fun h => hcd ⟨h, he⟩, fun h => hne (h.symm.trans he)⟩
    rw [hother _ hsides.1] at hs
    rw [hother _ hsides.2] at ht
    exact hd a ha s t hs ht
  · obtain ⟨hl, hr⟩ := not_or.mp hside
    rw [valueAt_set_of_ne (Ne.symm hl)] at hs
    rw [valueAt_set_of_ne (Ne.symm hr)] at ht
    exact hc a ha s t hs ht

/-- Where no atom compares two open classes and each of them has a value that passes, the search succeeds and looks at
each candidate of each class at most once. -/
theorem search_of_separate {p : Problem} {limit bound : Nat} (hreads : p.reads = []) {opened : List Nat}
    (hnodup : opened.Nodup) (hsep : ∀ a ∈ p.atoms, a.2.1 ∈ opened → a.2.2 ∈ opened → a.2.1 = a.2.2)
    (hbound : ∀ c ∈ opened, (p.candidates c).length ≤ bound) {v : Valuation} (hv : p.consistent v = true)
    (hpass : ∀ c ∈ opened, ∃ x ∈ p.candidates c, p.consistent (v.setIfInBounds c (some x)) = true) {n : Nat}
    (hn : n + 1 + opened.length * bound ≤ limit) :
    ∃ m w, search p limit opened v n = (m, some w) ∧ m ≤ n + 1 + opened.length * bound := by
  induction opened generalizing v n with
  | nil =>
    have hfun : p.functional v = true := by simp [functional, hreads, pairs]
    have hle : ¬ n + 1 > limit := by omega
    refine ⟨n + 1, v, ?_, by omega⟩
    rw [search]
    simp [hle, hv, hfun]
  | cons c rest ih =>
    obtain ⟨hc, hrest⟩ := List.nodup_cons.mp hnodup
    rw [List.length_cons, Nat.succ_mul] at hn ⊢
    have hle : ¬ n + 1 > limit := by omega
    have hcount := hbound c List.mem_cons_self
    have hsep' : ∀ a ∈ p.atoms, a.2.1 ∈ rest → a.2.2 ∈ rest → a.2.1 = a.2.2 := fun a ha hl hr =>
      hsep a ha (List.mem_cons_of_mem _ hl) (List.mem_cons_of_mem _ hr)
    -- What passes for this class leaves the others as they were.
    have hgood : ∀ x, p.consistent (v.setIfInBounds c (some x)) = true → ∀ k, k + 1 + rest.length * bound ≤ limit →
        ∃ m w, search p limit rest (v.setIfInBounds c (some x)) k = (m, some w) ∧ m ≤ k + 1 + rest.length * bound := by
      intro x hx k hk
      refine ih hrest hsep' (fun d hd => hbound d (List.mem_cons_of_mem _ hd)) hx ?_ hk
      intro d hd
      obtain ⟨y, hy, hpassy⟩ := hpass d (List.mem_cons_of_mem _ hd)
      have hcd : c ≠ d := fun he => hc (he ▸ hd)
      refine ⟨y, hy, consistent_set_set hcd ?_ hx hpassy⟩
      intro a ha
      have hsame := hsep a ha
      constructor
      · rintro ⟨hl, hr⟩
        exact hcd (hl.symm.trans ((hsame (hl ▸ List.mem_cons_self) (hr ▸ List.mem_cons_of_mem _ hd)).trans hr))
      · rintro ⟨hl, hr⟩
        exact hcd (hr.symm.trans ((hsame (hl ▸ List.mem_cons_of_mem _ hd) (hr ▸ List.mem_cons_self)).symm.trans hl))
    have hbad : ∀ x, ¬ p.consistent (v.setIfInBounds c (some x)) = true → ∀ k,
        search p limit rest (v.setIfInBounds c (some x)) k = (k + 1, none) := by
      intro x hx k
      rw [search.eq_def]
      simp [Bool.eq_false_iff.mpr hx]
    obtain ⟨m, w, hm, hmle⟩ := firstSuccess_of_quick
      (fun x k => search p limit rest (v.setIfInBounds c (some x)) k)
      (fun x => p.consistent (v.setIfInBounds c (some x)) = true) hbad hgood (hpass c List.mem_cons_self)
      (n := n + 1) (by omega)
    refine ⟨m, w, ?_, by omega⟩
    rw [search]
    simp only [hle, hv, decide_false, Bool.not_true, Bool.or_self, Bool.false_eq_true, if_false]
    exact hm

/-! ### Decision -/

/-- How many numbers a conjunction is about. -/
def numberCount (as : List Atom) : Nat := (termsOf as).countP Term.isNumber

/-- How many different integer constants a conjunction has. -/
def numeralCount (as : List Atom) : Nat := (termsOf as).countP Term.isNumeral

section Bounds

variable {as : List Atom} (hb : ∀ a ∈ as, a.isBound = true)

include hb

theorem cases_of_member {t : Term} {l : Nat} (h : (t, l) ∈ (Classes.ofAtoms as).members) :
    (∃ n, t = .int n) ∨ t.isNumber = true :=
  cases_of_mem_termsOf hb (Classes.mem_termsOf_of_label (Classes.label?_eq_some_iff.mpr h))

/-- Every open class holds a number of its own. -/
theorem length_opened_le (hclash : clash (Classes.ofAtoms as) = false) :
    (fixedValues (Classes.ofAtoms as)).2.length ≤ numberCount as := by
  have hfixed := fixed_fixedValues (Classes.bounded_ofAtoms as) hclash
  have hsub : (fixedValues (Classes.ofAtoms as)).2 ⊆
      ((Classes.ofAtoms as).members.filter fun m => m.1.isNumber).map (·.2) := by
    intro l hl
    obtain ⟨⟨t, ht⟩, -⟩ := exists_member_of_opened hl
    rcases cases_of_member hb ht with ⟨n, rfl⟩ | hn
    · exact absurd hl (hfixed.constant (mem_constants.mpr ht)).2
    · exact List.mem_map.mpr ⟨(t, l), List.mem_filter.mpr ⟨ht, hn⟩, rfl⟩
  refine (List.subperm_of_subset hfixed.nodup hsub).length_le.trans_eq ?_
  rw [List.length_map, numberCount, ← Classes.terms_ofAtoms, Classes.terms, List.countP_map, List.countP_eq_length_filter]
  rfl

theorem candidates_eq (l : Nat) :
    (problemOf as (Classes.ofAtoms as)).candidates l = (domainOf (Classes.ofAtoms as)).map .int := by
  have hbool : l ∉ (problemOf as (Classes.ofAtoms as)).booleans := by
    intro hmem
    obtain ⟨⟨t, k⟩, hk, -⟩ := List.mem_map.mp hmem
    obtain ⟨ht, hty⟩ := List.mem_filter.mp hk
    rcases cases_of_member hb ht with ⟨n, rfl⟩ | hn
    · cases of_decide_eq_true hty
    · rw [Term.ty_of_isNumber hn] at hty
      cases of_decide_eq_true hty
  rw [candidates, if_neg hbool]
  rfl

theorem length_candidates_le (l : Nat) :
    ((problemOf as (Classes.ofAtoms as)).candidates l).length ≤ 2 + 3 * numeralCount as := by
  rw [candidates_eq hb, List.length_map]
  refine (length_domainOf_le _).trans_eq ?_
  rw [length_integersOf, Classes.terms_ofAtoms, numeralCount]

theorem readsOf_eq_nil : readsOf (Classes.ofAtoms as) = [] := by
  rw [List.eq_nil_iff_forall_not_mem]
  intro r hr
  obtain ⟨⟨t, l⟩, hm, he⟩ := List.mem_filterMap.mp hr
  rcases cases_of_member hb hm with ⟨n, rfl⟩ | hn
  · cases he
  · cases t with
    | param x y => cases he
    | localVar x y => cases he
    | _ => cases hn

/-- An atom between two open classes is an equality, so the two are one. -/
theorem separate_opened (hclash : clash (Classes.ofAtoms as) = false) :
    ∀ e ∈ (problemOf as (Classes.ofAtoms as)).atoms, e.2.1 ∈ (fixedValues (Classes.ofAtoms as)).2 →
      e.2.2 ∈ (fixedValues (Classes.ofAtoms as)).2 → e.2.1 = e.2.2 := by
  have hfixed := fixed_fixedValues (Classes.bounded_ofAtoms as) hclash
  have hopen : ∀ {n : Int} {l : Nat}, (Classes.ofAtoms as).label? (.int n) = some l →
      l ∉ (fixedValues (Classes.ofAtoms as)).2 := fun hl =>
    (hfixed.constant (mem_constants.mpr (Classes.label?_eq_some_iff.mp hl))).2
  intro e he hl hr
  obtain ⟨a, ha, hlabels⟩ := List.mem_filterMap.mp he
  obtain ⟨i, hi, hlabels⟩ := Option.bind_eq_some_iff.mp hlabels
  obtain ⟨j, hj, rfl⟩ := Option.map_eq_some_iff.mp hlabels
  obtain ⟨-, -, ⟨n, hn⟩ | ⟨n, hn⟩ | hrel⟩ := cases_of_isBound (hb a ha)
  · exact absurd hl (hopen (hn ▸ hi))
  · exact absurd hr (hopen (hn ▸ hj))
  · obtain ⟨l, hil, hjl⟩ := Classes.same_of_eq ha hrel
    rw [hi] at hil
    rw [hj] at hjl
    exact Option.some.inj (hil.trans hjl.symm)

/-- Integers for the classes that satisfy the atoms and lie in the domain. -/
theorem exists_classIntegers {ints : Term → Int} (h : ∀ a ∈ as, a.TrueFor ints) :
    ∃ g : Nat → Int, (∀ l, g l ∈ domainOf (Classes.ofAtoms as)) ∧
      (∀ {n : Int} {l : Nat}, (Term.int n, l) ∈ (Classes.ofAtoms as).members → g l = n) ∧
      ∀ e ∈ (problemOf as (Classes.ofAtoms as)).atoms, e.1.holds (.int (g e.2.1)) (.int (g e.2.2)) = true := by
  classical
  have hcongr := (satisfying_valueFor hb h).congruence
  -- The terms of one class stand for the same integer, which is then moved into the domain.
  obtain ⟨f, hf⟩ : ∃ f : Nat → Int, ∀ {t : Term} {l : Nat}, (t, l) ∈ (Classes.ofAtoms as).members →
      f l = t.intIn ints := by
    refine ⟨fun l => if hl : ∃ t, (t, l) ∈ (Classes.ofAtoms as).members then hl.choose.intIn ints else 0, ?_⟩
    intro t l ht
    have hl : ∃ t, (t, l) ∈ (Classes.ofAtoms as).members := ⟨t, ht⟩
    have hsame : valueFor ints hl.choose = valueFor ints t :=
      hcongr.of_same ⟨l, Classes.label?_eq_some_iff.mpr hl.choose_spec, Classes.label?_eq_some_iff.mpr ht⟩
    rw [valueFor_eq (cases_of_member hb hl.choose_spec), valueFor_eq (cases_of_member hb ht)] at hsame
    exact (dif_pos hl).trans (Value.int.inj hsame)
  choose near hnear hcompare using exists_mem_domainOf (Classes.ofAtoms as)
  have hconst : ∀ {n : Int} {l : Nat}, (Term.int n, l) ∈ (Classes.ofAtoms as).members → near (f l) = n := by
    intro n l hl
    have hfl : f l = n := hf hl
    have hself := hcompare n n (mem_integersOf.mpr ⟨l, hl⟩)
    rw [hfl]
    omega
  refine ⟨fun l => near (f l), fun l => hnear _, hconst, ?_⟩
  intro e he
  obtain ⟨a, ha, hlabels⟩ := List.mem_filterMap.mp he
  obtain ⟨i, hi, hlabels⟩ := Option.bind_eq_some_iff.mp hlabels
  obtain ⟨j, hj, rfl⟩ := Option.map_eq_some_iff.mp hlabels
  have hil := Classes.label?_eq_some_iff.mp hi
  have hjl := Classes.label?_eq_some_iff.mp hj
  have htrue : a.relation.Compares (f i) (f j) := by
    rw [hf hil, hf hjl]
    exact h a ha
  refine (Relation.holds_int_iff a.relation (near (f i)) (near (f j))).mpr ?_
  obtain ⟨-, -, ⟨n, hn⟩ | ⟨n, hn⟩ | hrel⟩ := cases_of_isBound (hb a ha)
  · rw [hn] at hil
    rw [hconst hil]
    rw [hf hil] at htrue
    exact (a.relation.compares_congr (hcompare (f j) n (mem_integersOf.mpr ⟨i, hil⟩))).2.mpr htrue
  · rw [hn] at hjl
    rw [hconst hjl]
    rw [hf hjl] at htrue
    exact (a.relation.compares_congr (hcompare (f i) n (mem_integersOf.mpr ⟨j, hjl⟩))).1.mpr htrue
  · rw [hrel] at htrue ⊢
    exact congrArg near htrue

theorem solve_isSome_of_integers {ints : Term → Int} (h : ∀ a ∈ as, a.TrueFor ints) {limit : Nat}
    (hl : 1 + numberCount as * (2 + 3 * numeralCount as) ≤ limit) : (solve limit as).isSome := by
  have hclash := (satisfying_valueFor hb h).clash_eq_false
  have hfixed := fixed_fixedValues (Classes.bounded_ofAtoms as) hclash
  obtain ⟨g, hdomain, hconst, hholds⟩ := exists_classIntegers hb h
  -- What is given before the search, with or without one class more, agrees with these integers.
  have hstart : ∀ {l : Nat} {x : Value}, valueAt (fixedValues (Classes.ofAtoms as)).1 l = some x → x = .int (g l) := by
    intro l x hx
    rcases hfixed.source hx with ⟨y, hy⟩ | href
    · obtain ⟨hy', -⟩ := hfixed.constant hy
      rw [hx] at hy'
      cases hy'
      rcases cases_of_member hb (mem_constants.mp hy) with ⟨n, hn⟩ | hn
      · cases hn
        rw [hconst (mem_constants.mp hy)]
      · cases hn
    · obtain ⟨⟨t, k⟩, ht, hk⟩ := List.any_eq_true.mp href
      obtain ⟨-, hreference⟩ := Bool.and_eq_true_iff.mp hk
      rcases cases_of_member hb ht with ⟨n, rfl⟩ | hn
      · cases hreference
      · rw [Term.isReference, Term.ty_of_isNumber hn] at hreference
        cases hreference
  have hagree : ∀ {v : Valuation}, (∀ l x, valueAt v l = some x → x = .int (g l)) →
      (problemOf as (Classes.ofAtoms as)).consistent v = true := by
    intro v hv
    rw [consistent_iff]
    intro e he x y hx hy
    rw [hv _ x hx, hv _ y hy]
    exact hholds e he
  have hpass : ∀ c ∈ (fixedValues (Classes.ofAtoms as)).2, ∃ x ∈ (problemOf as (Classes.ofAtoms as)).candidates c,
      (problemOf as (Classes.ofAtoms as)).consistent
        ((fixedValues (Classes.ofAtoms as)).1.setIfInBounds c (some x)) = true := by
    intro c _
    refine ⟨.int (g c), ?_, hagree fun l x hx => ?_⟩
    · rw [candidates_eq hb]
      exact List.mem_map.mpr ⟨g c, hdomain c, rfl⟩
    · rw [valueAt_set] at hx
      split at hx
      next hcl =>
        cases hx
        rw [hcl.1]
      next => exact hstart hx
  have hcount : 0 + 1 + (fixedValues (Classes.ofAtoms as)).2.length * (2 + 3 * numeralCount as) ≤ limit := by
    have hopened := Nat.mul_le_mul_right (2 + 3 * numeralCount as) (length_opened_le hb hclash)
    omega
  obtain ⟨m, w, hm, -⟩ := search_of_separate (readsOf_eq_nil hb) hfixed.nodup (separate_opened hb hclash)
    (fun c _ => length_candidates_le hb c) (hagree fun l x hx => hstart hx) hpass hcount
  rw [solve_eq_map hclash, hm]
  rfl

end Bounds

/-- Bounds are decided: there is no answer exactly if no integers satisfy the atoms. The limit is one for the start, and
for each number one for each member of the small domain. -/
theorem check_bounds_eq_none_iff {p : Path} (hp : ∀ a ∈ p.hard, a.isBound = true) {limit : Nat}
    (hl : 1 + numberCount p.hard * (2 + 3 * numeralCount p.hard) ≤ limit) (respectSoft : Bool) :
    check limit p respectSoft = none ↔ ¬ ∃ ints : Term → Int, ∀ a ∈ p.hard, a.TrueFor ints := by
  rw [← Option.not_isSome_iff_eq_none, not_iff_not]
  constructor
  · intro h
    obtain ⟨m, hm⟩ := Option.isSome_iff_exists.mp h
    obtain ⟨v, s⟩ := solve_some (check_eq_some hm)
    exact (s.satisfying.mono fun a ha => List.mem_append_left _ ha).exists_integers hp
  · rintro ⟨ints, h⟩
    have hhard := solve_isSome_of_integers hp h hl
    unfold check
    split
    · rw [p.atoms_false, Option.isSome_or, hhard, Bool.or_true]
    · rw [p.atoms_false]
      exact hhard

/-- Two numbers that are the same, strictly between two constants with one number between them, which is excluded. -/
def squeezedPath : Path :=
  let x : Term := .param "x" .int
  let y : Term := .localVar "y" .int
  { hard := [⟨.gt, x, .int (10 ^ 30)⟩, ⟨.ge, .int (10 ^ 30 + 1), y⟩, .eq x y, .ne y (.int (10 ^ 30 + 1))]
    soft := [.eq x (.const (.bool true))] }

theorem squeezedPath_unsatisfiable :
    ((∀ a ∈ squeezedPath.hard, a.isBound = true) ∧
      1 + numberCount squeezedPath.hard * (2 + 3 * numeralCount squeezedPath.hard) ≤ 17) ∧
    check 17 squeezedPath true = none ∧ ¬ ∃ ints : Term → Int, ∀ a ∈ squeezedPath.hard, a.TrueFor ints := by
  have hp : ∀ a ∈ squeezedPath.hard, a.isBound = true := by decide
  have hl : 1 + numberCount squeezedPath.hard * (2 + 3 * numeralCount squeezedPath.hard) ≤ 17 := by decide +kernel
  have hnone : check 17 squeezedPath true = none := by decide +kernel
  exact ⟨⟨hp, hl⟩, hnone, (check_bounds_eq_none_iff hp hl true).mp hnone⟩

end Solver

end Symex
