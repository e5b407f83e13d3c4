import Symex.Proofs.Solver.Congruence

/-!
# Small numbers first

A search that stays within its limit finds a valuation if there is one, and tries the candidates of a class in order.
So a parameter that the atoms only compare, each time in a way that zero passes, is zero in the answer.
-/

namespace Symex.Solver

open Problem

/-! ### Searches within their limit -/

/-- A valuation that a search can end with. -/
structure Completes (p : Problem) (opened : List Nat) (v w : Valuation) : Prop where
  consistent : p.consistent w = true
  functional : p.functional w = true
  lt : ∀ k ∈ opened, k < v.size
  above : ∀ {k : Nat} {x : Value}, valueAt v k = some x → valueAt w k = some x
  kept : ∀ k, k ∉ opened → valueAt w k = valueAt v k
  chosen : ∀ k ∈ opened, ∃ x ∈ p.candidates k, valueAt w k = some x

theorem consistent_of_above {p : Problem} {v w : Valuation} (hw : p.consistent w = true)
    (h : ∀ {k : Nat} {x : Value}, valueAt v k = some x → valueAt w k = some x) : p.consistent v = true := by
  rw [consistent, List.all_eq_true] at hw ⊢
  intro a ha
  have hall := hw a ha
  split
  next l r hl hr =>
    rw [h hl, h hr] at hall
    exact hall
  next => rfl

theorem functional_of_agree {p : Problem} {v w : Valuation} (hw : p.functional w = true)
    (h : ∀ q ∈ pairs p.reads, agree v q.1 q.2 = agree w q.1 q.2) : p.functional v = true := by
  rw [functional, List.all_eq_true] at hw ⊢
  intro q hq
  rw [h q hq]
  exact hw q hq

theorem Completes.tail {p : Problem} {c : Nat} {rest : List Nat} {v w : Valuation}
    (hw : Completes p (c :: rest) v w) {x : Value} (hx : valueAt w c = some x) :
    Completes p rest (v.setIfInBounds c (some x)) w := by
  refine ⟨hw.consistent, hw.functional, ?_, ?_, ?_, fun k hk => hw.chosen k (List.mem_cons_of_mem _ hk)⟩
  · intro k hk
    rw [Array.size_setIfInBounds]
    exact hw.lt k (List.mem_cons_of_mem _ hk)
  · intro k y hk
    rw [valueAt_set] at hk
    split at hk
    next hc => rw [← hc.1, hx, hk]
    next => exact hw.above hk
  · intro k hk
    by_cases hck : c = k
    · rw [← hck, hx, valueAt_set_self (hw.lt c List.mem_cons_self)]
    · rw [valueAt_set_of_ne hck]
      exact hw.kept k fun hmem => (List.mem_cons.mp hmem).elim (fun e => hck e.symm) hk

theorem firstSuccess_of_mem {α β : Type} {limit : Nat} {trial : α → Nat → Nat × Option β} {as : List α} {a : α}
    (ha : a ∈ as) (h : ∀ n, (trial a n).2.isSome ∨ limit < (trial a n).1) (n : Nat) :
    (firstSuccess limit trial as n).2.isSome ∨ limit < (firstSuccess limit trial as n).1 := by
  induction as generalizing n with
  | nil => cases ha
  | cons b as ih =>
    rw [firstSuccess]
    cases hb : trial b n with
    | mk m r =>
      cases r with
      | some x => exact Or.inl rfl
      | none =>
        dsimp only
        by_cases hm : m > limit
        · rw [if_pos hm]
          exact Or.inr hm
        · rw [if_neg hm]
          rcases List.mem_cons.mp ha with rfl | ha
          · have hfail := h n
            rw [hb] at hfail
            exact absurd (hfail.resolve_left Bool.false_ne_true) hm
          · exact ih ha m

/-- Where there is a valuation to find, a search finds one or runs out. -/
theorem search_of_completes {p : Problem} {opened : List Nat} {v w : Valuation} (hw : Completes p opened v w)
    (limit n : Nat) :
    (search p limit opened v n).2.isSome ∨ limit < (search p limit opened v n).1 := by
  induction opened generalizing v n with
  | nil =>
    have hv : ∀ k, valueAt w k = valueAt v k := fun k => hw.kept k List.not_mem_nil
    have hfun : p.functional v = true := functional_of_agree hw.functional fun q _ => by simp only [agree, hv]
    have hcon := consistent_of_above hw.consistent hw.above
    rw [search]
    by_cases hn : n + 1 > limit
    · simp [hn]
    · simp [hn, hcon, hfun]
  | cons c rest ih =>
    obtain ⟨x, hx, hwx⟩ := hw.chosen c List.mem_cons_self
    have hcon := consistent_of_above hw.consistent hw.above
    rw [search]
    by_cases hn : n + 1 > limit
    · simp [hn]
    · simp only [hn, hcon, decide_false, Bool.not_true, Bool.or_self, Bool.false_eq_true, if_false]
      exact firstSuccess_of_mem hx (fun m => ih (hw.tail hwx) m) (n + 1)

/-- A valuation that takes at every open class what was found or the first candidate is the one that was found. -/
theorem search_first {p : Problem} {limit : Nat} {opened : List Nat} {v w u : Valuation} {n m : Nat}
    (h : search p limit opened v n = (m, some w)) (hnodup : opened.Nodup) (hu : Completes p opened v u)
    (hfirst : ∀ k ∈ opened, valueAt u k = valueAt w k ∨ valueAt u k = (p.candidates k).head?) :
    ∀ k ∈ opened, valueAt w k = valueAt u k := by
  induction opened generalizing v n with
  | nil => exact fun k hk => absurd hk List.not_mem_nil
  | cons c rest ih =>
    obtain ⟨hc, hrest⟩ := List.nodup_cons.mp hnodup
    have hlt := hu.lt c List.mem_cons_self
    -- The value found for the first class is that of the other valuation, and the search goes on from it.
    have hstep : ∃ x k, valueAt u c = some x ∧ search p limit rest (v.setIfInBounds c (some x)) k = (m, some w) := by
      rw [search] at h
      split at h
      · cases h
      · rcases hfirst c List.mem_cons_self with hsame | hhead
        · obtain ⟨x, -, k, hk⟩ := firstSuccess_some h
          refine ⟨x, k, ?_, hk⟩
          rw [hsame, (search_some hk).kept c hc, valueAt_set_self hlt]
        · obtain ⟨y, -, huy⟩ := hu.chosen c List.mem_cons_self
          obtain ⟨xs, hxs⟩ : ∃ xs, p.candidates c = y :: xs := List.head?_eq_some_iff.mp (hhead.symm.trans huy)
          rw [hxs, firstSuccess] at h
          have hfound := search_of_completes (hu.tail huy) limit (n + 1)
          split at h
          next k r hk => exact ⟨y, n + 1, huy, hk.trans h⟩
          next k hk =>
            rw [hk] at hfound
            split at h
            · cases h
            next hle => exact absurd (hfound.resolve_left Bool.false_ne_true) hle
    obtain ⟨x, k, hux, hk⟩ := hstep
    intro j hj
    rcases List.mem_cons.mp hj with rfl | hj
    · rw [(search_some hk).kept j hc, valueAt_set_self hlt, hux]
    · exact ih hk hrest (hu.tail hux) (fun i hi => hfirst i (List.mem_cons_of_mem _ hi)) j hj

/-! ### Parameters that are only compared -/

/-- Parameters of integer type that no equality and no read is about, and that may be zero wherever they are
compared. -/
structure Slack (as : List Atom) (m : Assignment) (free : Term → Prop) : Prop where
  param : ∀ {t : Term}, free t → ∃ x, t = .param x .int
  parts : ∀ {t : Term}, t ∈ termsOf as → ∀ u ∈ t.parts, ¬ free u
  right : ∀ a ∈ as, ¬ free a.rhs
  left : ∀ a ∈ as, free a.lhs → a.relation ≠ .eq ∧ m.holds { a with lhs := .int 0 } = some true

/-- No free term is in a class with one that is not. -/
def Classes.Apart (free : Term → Prop) (c : Classes) : Prop :=
  ∀ ⦃t u : Term⦄ ⦃l : Nat⦄, (t, l) ∈ c.members → (u, l) ∈ c.members → free t → free u

-- Being free or not is an equivalence that has all equalities and reads, since none of them is about a free term.
theorem Slack.apart {as : List Atom} {m : Assignment} {free : Term → Prop} (h : Slack as m free) :
    (Classes.ofAtoms as).Apart free := by
  have hread : ∀ {s t : Term}, s.parts ≠ [] → t.parts ≠ [] → (free s ↔ free t) := by
    have hnot : ∀ {t : Term}, t.parts ≠ [] → ¬ free t := by
      intro t ht hfree
      obtain ⟨x, rfl⟩ := h.param hfree
      exact ht rfl
    intro s t hs ht
    exact iff_of_false (hnot hs) (hnot ht)
  have hcongr : Congruence as fun s t => free s ↔ free t := by
    refine ⟨⟨fun _ => Iff.rfl, Iff.symm, Iff.trans⟩, ?_, ?_, ?_, ?_⟩
    · exact fun a ha heq => iff_of_false (fun hfree => (h.left a ha hfree).1 heq) (h.right a ha)
    · exact fun _ _ _ => hread (List.cons_ne_nil _ _) (List.cons_ne_nil _ _)
    · exact fun _ _ _ _ => hread (List.cons_ne_nil _ _) (List.cons_ne_nil _ _)
    · exact fun _ _ _ => hread (List.cons_ne_nil _ _) (List.cons_ne_nil _ _)
  intro t u l ht hu
  exact (hcongr.of_same ⟨l, Classes.label?_eq_some_iff.mpr ht, Classes.label?_eq_some_iff.mpr hu⟩).mp

theorem head?_domainOf (c : Classes) : (domainOf c).head? = some 0 := by
  have hzero : ∀ l : List Int, (insertSmaller 0 l).head? = some 0 := by
    intro l
    cases l with
    | nil => rfl
    | cons n l =>
      unfold insertSmaller
      by_cases hn : 0 = n
      · simp [← hn]
      · have hsmall : smallerFirst 0 n = true := by
          simp only [smallerFirst, Bool.or_eq_true, decide_eq_true_eq]
          left
          omega
        simp [hn, hsmall]
  exact hzero _

/-- A valuation with zero at some classes. -/
def zeroAt (z : Nat → Prop) [DecidablePred z] (v : Valuation) : Valuation :=
  v.mapIdx fun k x => if z k then some (.int 0) else x

theorem valueAt_zeroAt (z : Nat → Prop) [DecidablePred z] (v : Valuation) (k : Nat) :
    valueAt (zeroAt z v) k = if z k ∧ k < v.size then some (.int 0) else valueAt v k := by
  rw [valueAt, valueAt, zeroAt, Array.getD_eq_getD_getElem?, Array.getD_eq_getD_getElem?, Array.getElem?_mapIdx]
  by_cases hk : k < v.size
  · by_cases hz : z k <;> simp [hk, hz]
  · simp [hk]

theorem valueAt_zeroAt_of_not {z : Nat → Prop} [DecidablePred z] (v : Valuation) {k : Nat} (hk : ¬ z k) :
    valueAt (zeroAt z v) k = valueAt v k := by
  rw [valueAt_zeroAt, if_neg fun hz => hk hz.1]

theorem lt_size_of_valueAt {v : Valuation} {k : Nat} {x : Value} (h : valueAt v k = some x) : k < v.size := by
  by_contra hk
  rw [valueAt, Array.getD_eq_getD_getElem?, Array.getElem?_eq_none (by omega)] at h
  cases h

namespace Slack

variable {as : List Atom} {m : Assignment} {free : Term → Prop} (h : Slack as m free)

/-- The class of a free term. -/
def IsFree (as : List Atom) (free : Term → Prop) (l : Nat) : Prop :=
  ∃ t, (t, l) ∈ (Classes.ofAtoms as).members ∧ free t

include h

theorem isFree_iff {t : Term} {l : Nat} (ht : (t, l) ∈ (Classes.ofAtoms as).members) : IsFree as free l ↔ free t := by
  constructor
  · intro ⟨u, hu, hfree⟩
    exact h.apart hu ht hfree
  · exact fun hfree => ⟨t, ht, hfree⟩

theorem not_isFree_of_label {t : Term} {l : Nat} (ht : (Classes.ofAtoms as).label? t = some l) (hno : ¬ free t) :
    ¬ IsFree as free l :=
  fun hl => hno ((h.isFree_iff (Classes.label?_eq_some_iff.mp ht)).mp hl)

theorem not_isFree_read {r : Read} (hr : r ∈ readsOf (Classes.ofAtoms as)) :
    ¬ IsFree as free r.base ∧ ¬ IsFree as free r.value ∧ ∀ i, r.index = some i → ¬ IsFree as free i := by
  obtain ⟨⟨t, l⟩, hmem, hread⟩ := List.mem_filterMap.mp hr
  have hterm : t ∈ termsOf as := Classes.mem_termsOf_of_label (Classes.label?_eq_some_iff.mpr hmem)
  have hpart : ∀ u ∈ t.parts, ∀ k, (Classes.ofAtoms as).label? u = some k → ¬ IsFree as free k :=
    fun u hu k hk => h.not_isFree_of_label hk (h.parts hterm u hu)
  have hvalue : t.parts ≠ [] → ¬ IsFree as free l := by
    intro hne hl
    obtain ⟨x, rfl⟩ := h.param ((h.isFree_iff hmem).mp hl)
    exact hne rfl
  cases t with
  | field b f =>
    obtain ⟨k, hk, rfl⟩ := Option.map_eq_some_iff.mp hread
    exact ⟨hpart b List.mem_cons_self k hk, hvalue (List.cons_ne_nil _ _), nofun⟩
  | element a i e =>
    obtain ⟨k, hk, hread⟩ := Option.bind_eq_some_iff.mp hread
    obtain ⟨j, hj, rfl⟩ := Option.map_eq_some_iff.mp hread
    refine ⟨hpart a List.mem_cons_self k hk, hvalue (List.cons_ne_nil _ _), ?_⟩
    intro _ he
    cases he
    exact hpart i (List.mem_cons_of_mem _ List.mem_cons_self) j hj
  | length a =>
    obtain ⟨k, hk, rfl⟩ := Option.map_eq_some_iff.mp hread
    exact ⟨hpart a List.mem_cons_self k hk, hvalue (List.cons_ne_nil _ _), nofun⟩
  | _ => cases hread

theorem head?_candidates {l : Nat} (hl : IsFree as free l) :
    ((problemOf as (Classes.ofAtoms as)).candidates l).head? = some (.int 0) := by
  have hbool : l ∉ (problemOf as (Classes.ofAtoms as)).booleans := by
    intro hmem
    obtain ⟨⟨t, k⟩, hk, hkl⟩ := List.mem_map.mp hmem
    obtain ⟨ht, hty⟩ := List.mem_filter.mp hk
    have hkl : k = l := hkl
    obtain ⟨x, rfl⟩ := h.param ((h.isFree_iff (hkl ▸ ht)).mp hl)
    cases of_decide_eq_true hty
  rw [candidates, if_neg hbool, List.head?_map]
  exact congrArg (Option.map Value.int) (head?_domainOf _)

section Zero

variable {v u : Valuation} (sol : Solution as m v) (hother : ∀ k, ¬ IsFree as free k → valueAt u k = valueAt v k)

include sol hother

theorem consistent_of_zero (hfree : ∀ k, IsFree as free k → valueAt u k = some (.int 0)) :
    (problemOf as (Classes.ofAtoms as)).consistent u = true := by
  rw [consistent, List.all_eq_true]
  intro e he
  obtain ⟨a, ha, hlabels⟩ := List.mem_filterMap.mp he
  obtain ⟨i, hi, hlabels⟩ := Option.bind_eq_some_iff.mp hlabels
  obtain ⟨j, hj, rfl⟩ := Option.map_eq_some_iff.mp hlabels
  have hright : valueAt u j = valueAt v j := hother j (h.not_isFree_of_label hj (h.right a ha))
  by_cases hl : free a.lhs
  · obtain ⟨-, hholds⟩ := h.left a ha hl
    have hleft : valueAt u i = some (.int 0) := hfree i ⟨_, Classes.label?_eq_some_iff.mp hi, hl⟩
    obtain ⟨x, hx⟩ := Option.isSome_iff_exists.mp (sol.valued hj)
    rw [Assignment.holds, sol.eval_label hj, hx] at hholds
    simp only [hleft, hright, hx]
    exact Option.some.inj hholds
  · have hleft : valueAt u i = valueAt v i := hother i (h.not_isFree_of_label hi hl)
    have hall := List.all_eq_true.mp sol.consistent _ he
    simp only [hleft, hright]
    exact hall

theorem functional_of_zero : (problemOf as (Classes.ofAtoms as)).functional u = true := by
  refine functional_of_agree sol.functional ?_
  intro q hq
  obtain ⟨h₁, h₂⟩ := mem_of_mem_pairs hq
  obtain ⟨hbase₁, hvalue₁, hindex₁⟩ := h.not_isFree_read h₁
  obtain ⟨hbase₂, hvalue₂, hindex₂⟩ := h.not_isFree_read h₂
  rw [agree, agree, hother _ hbase₁, hother _ hbase₂, hother _ hvalue₁, hother _ hvalue₂]
  cases hi : q.1.index with
  | none => rfl
  | some i =>
    cases hj : q.2.index with
    | none => rfl
    | some j =>
      dsimp only
      rw [hother i (hindex₁ i hi), hother j (hindex₂ j hj)]

end Zero

section Answer

variable {start v : Valuation} {opened : List Nat} (hfixed : Fixed (Classes.ofAtoms as) start opened)

include hfixed

theorem mem_opened {l : Nat} (hl : IsFree as free l) : l ∈ opened := by
  obtain ⟨t, ht, hfree⟩ := hl
  refine (hfixed.covered ht).resolve_left fun hsome => ?_
  -- A class with a value at the start holds a constant or a reference, and a free parameter is neither.
  obtain ⟨x, hx⟩ := Option.isSome_iff_exists.mp hsome
  rcases hfixed.source hx with ⟨y, hy⟩ | href
  · obtain ⟨z, hz⟩ := h.param (h.apart ht (mem_constants.mp hy) hfree)
    cases hz
  · obtain ⟨⟨r, k⟩, hr, hrk⟩ := List.any_eq_true.mp href
    simp only [Bool.and_eq_true, beq_iff_eq] at hrk
    obtain ⟨z, rfl⟩ := h.param (h.apart ht (hrk.1 ▸ hr) hfree)
    cases hrk.2

variable (hfilled : Filled (problemOf as (Classes.ofAtoms as)) opened start v) [DecidablePred (IsFree as free)]

include hfilled

theorem valueAt_zeroAt_of_isFree {k : Nat} (hk : IsFree as free k) :
    valueAt (zeroAt (IsFree as free) v) k = some (.int 0) := by
  have hopen := h.mem_opened hfixed hk
  obtain ⟨x, -, hx⟩ := hfilled.filled k hopen (hfixed.unset k hopen).1
  rw [valueAt_zeroAt, if_pos ⟨hk, lt_size_of_valueAt hx⟩]

/-- An answer stays one if the free parameters become zero. -/
theorem completes_zeroAt (sol : Solution as m v) :
    Completes (problemOf as (Classes.ofAtoms as)) opened start (zeroAt (IsFree as free) v) := by
  have hzero : ∀ k, IsFree as free k → valueAt (zeroAt (IsFree as free) v) k = some (.int 0) :=
    fun k hk => h.valueAt_zeroAt_of_isFree hfixed hfilled hk
  have hother : ∀ k, ¬ IsFree as free k → valueAt (zeroAt (IsFree as free) v) k = valueAt v k :=
    fun k hk => valueAt_zeroAt_of_not v hk
  have hkept : ∀ k, k ∉ opened → valueAt (zeroAt (IsFree as free) v) k = valueAt start k := by
    intro k hk
    rw [hother k fun hz => hk (h.mem_opened hfixed hz), hfilled.kept k hk]
  refine ⟨h.consistent_of_zero sol hother hzero, h.functional_of_zero sol hother,
    fun k hk => (hfixed.unset k hk).1, ?_, hkept, ?_⟩
  · intro k x hx
    rw [hkept k, hx]
    intro hk
    rw [(hfixed.unset k hk).2] at hx
    cases hx
  · intro k hk
    by_cases hz : IsFree as free k
    · exact ⟨_, List.mem_of_mem_head? (h.head?_candidates hz), hzero k hz⟩
    · rw [hother k hz]
      exact hfilled.filled k hk (hfixed.unset k hk).1

end Answer

/-- Free parameters are zero in an answer. -/
theorem eval_eq_zero {limit : Nat} (hm : solve limit as = some m) {t : Term} (ht : t ∈ termsOf as) (hfree : free t) :
    m.eval t = some (.int 0) := by
  classical
  obtain ⟨hclash, n, v, hv, rfl⟩ := solve_eq_some hm
  have sol := solution_of_search hclash hv
  have hfixed := fixed_fixedValues (Classes.bounded_ofAtoms as) hclash
  have hfilled := search_some hv
  obtain ⟨l, hl⟩ := Classes.exists_label ht
  have htl : IsFree as free l := ⟨t, Classes.label?_eq_some_iff.mp hl, hfree⟩
  -- Zero is the first candidate of every free class, so the search cannot have passed it by.
  have hfirst : ∀ k ∈ (fixedValues (Classes.ofAtoms as)).2,
      valueAt (zeroAt (IsFree as free) v) k = valueAt v k ∨
        valueAt (zeroAt (IsFree as free) v) k = ((problemOf as (Classes.ofAtoms as)).candidates k).head? := by
    intro k _
    by_cases hz : IsFree as free k
    · exact Or.inr (by rw [h.valueAt_zeroAt_of_isFree hfixed hfilled hz, h.head?_candidates hz])
    · exact Or.inl (valueAt_zeroAt_of_not v hz)
  have hcompletes := h.completes_zeroAt hfixed hfilled sol
  rw [sol.eval_label hl, search_first hv hfixed.nodup hcompletes hfirst l (h.mem_opened hfixed htl),
    h.valueAt_zeroAt_of_isFree hfixed hfilled htl]

end Slack

end Symex.Solver
