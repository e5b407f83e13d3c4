import Symex.Proofs.Data.Lookup
import Symex.Proofs.Term.Parts
import Symex.Solver.Search

/-!
# What the search over classes leaves

The number of a class is below the number of terms. The values that are fixed before the search keep the constants,
and every class has a value or is open. A search that succeeds has filled the open classes and touched no other, and
what it leaves passes both tests.
-/

namespace Symex.Solver

theorem mem_of_mem_pairs {α : Type} {l : List α} {p : α × α} (h : p ∈ pairs l) : p.1 ∈ l ∧ p.2 ∈ l := by
  induction l with
  | nil => cases h
  | cons a l ih =>
    rcases List.mem_append.mp h with h | h
    · obtain ⟨b, hb, rfl⟩ := List.mem_map.mp h
      exact ⟨List.mem_cons_self, List.mem_cons_of_mem _ hb⟩
    · exact ⟨List.mem_cons_of_mem _ (ih h).1, List.mem_cons_of_mem _ (ih h).2⟩

/-! ### Class numbers -/

namespace Classes

/-- Every class number is below the number of terms. -/
def Bounded (c : Classes) : Prop := ∀ m ∈ c.members, m.2 < c.members.length

theorem bounded_ofAtoms (as : List Atom) : (ofAtoms as).Bounded := by
  intro m hm
  rw [ofAtoms, members_ofForest] at hm ⊢
  obtain ⟨i, -, rfl⟩ := List.mem_map.mp hm
  rw [List.length_map, List.length_finRange]
  exact (Forest.root _ i).isLt

theorem nodup_ofAtoms (as : List Atom) : ((ofAtoms as).members.map (·.1)).Nodup := by
  have h : (ofAtoms as).members.map (·.1) = termsOf as := terms_ofAtoms as
  rw [h]
  exact nodup_eraseDups _

theorem label?_eq_some_iff {as : List Atom} {t : Term} {l : Nat} :
    (ofAtoms as).label? t = some l ↔ (t, l) ∈ (ofAtoms as).members :=
  lookup_eq_some_iff_mem (nodup_ofAtoms as)

theorem exists_label {as : List Atom} {t : Term} (h : t ∈ termsOf as) : ∃ l, (ofAtoms as).label? t = some l := by
  apply exists_lookup_of_mem
  have hm : (ofAtoms as).members.map (·.1) = termsOf as := terms_ofAtoms as
  rw [hm]
  exact h

theorem mem_termsOf_of_label {as : List Atom} {t : Term} {l : Nat} (h : (ofAtoms as).label? t = some l) :
    t ∈ termsOf as := by
  have hm : (ofAtoms as).members.map (·.1) = termsOf as := terms_ofAtoms as
  rw [← hm]
  exact List.mem_map.mpr ⟨(t, l), mem_of_lookup h, rfl⟩

theorem mem_labels {c : Classes} {t : Term} {l : Nat} (h : (t, l) ∈ c.members) : l ∈ c.labels := by
  rw [labels, List.mem_eraseDups]
  exact List.mem_map.mpr ⟨(t, l), h, rfl⟩

end Classes

/-! ### Valuations -/

namespace Problem

theorem valueAt_set (v : Valuation) (c k : Nat) (x : Value) :
    valueAt (v.setIfInBounds c (some x)) k = if c = k ∧ c < v.size then some x else valueAt v k := by
  simp only [valueAt, Array.getD_eq_getD_getElem?, Array.getElem?_setIfInBounds]
  by_cases hck : c = k
  · subst hck
    by_cases hc : c < v.size
    · simp [hc]
    · simp [hc]
  · simp [hck]

theorem valueAt_set_of_ne {v : Valuation} {c k : Nat} {x : Value} (h : c ≠ k) :
    valueAt (v.setIfInBounds c (some x)) k = valueAt v k := by
  rw [valueAt_set, if_neg fun e => h e.1]

theorem valueAt_set_self {v : Valuation} {c : Nat} {x : Value} (h : c < v.size) :
    valueAt (v.setIfInBounds c (some x)) c = some x := by
  rw [valueAt_set, if_pos ⟨rfl, h⟩]

theorem valueAt_replicate (n k : Nat) : valueAt (Array.replicate n none) k = none := by
  rw [valueAt, Array.getD_eq_getD_getElem?, Array.getElem?_replicate]
  split <;> rfl

theorem consistent_iff {p : Problem} {v : Valuation} :
    p.consistent v = true ↔ ∀ a ∈ p.atoms, ∀ x y, valueAt v a.2.1 = some x → valueAt v a.2.2 = some y →
      a.1.holds x y = true := by
  rw [consistent, List.all_eq_true]
  constructor
  · intro h a ha x y hx hy
    have hall := h a ha
    rw [hx, hy] at hall
    exact hall
  · intro h a ha
    split
    next x y hx hy => exact h a ha x y hx hy
    next => rfl

end Problem

open Problem

/-! ### The search -/

/-- Tries the candidates in order until one succeeds, the counter going from one trial to the next. -/
def firstSuccess {α β : Type} (limit : Nat) (trial : α → Nat → Nat × Option β) : List α → Nat → Nat × Option β
  | [], n => (n, none)
  | a :: as, n =>
    match trial a n with
    | (m, some b) => (m, some b)
    | (m, none) => if m > limit then (m, none) else firstSuccess limit trial as m

/-- The search with a valuation of its own for every branch, so that nothing has to be emptied again. -/
def search (p : Problem) (limit : Nat) : List Nat → Valuation → Nat → Nat × Option Valuation
  | opened, v, nodes =>
    let nodes := nodes + 1
    if nodes > limit || !p.consistent v then (nodes, none)
    else match opened with
      | [] => (nodes, if p.functional v then some v else none)
      | c :: rest =>
        firstSuccess limit (fun x n => search p limit rest (v.setIfInBounds c (some x)) n) (p.candidates c) nodes

/-- Tells whether something was found, and leaves that or else the valuation at the start. -/
def leaving (v : Valuation) (found : Nat × Option Valuation) : Bool × Valuation × Nat :=
  (found.2.isSome, found.2.getD v, found.1)

theorem setIfInBounds_none {v : Valuation} {c : Nat} (h : valueAt v c = none) : v.setIfInBounds c none = v := by
  apply Array.ext_getElem?
  intro i
  rw [Array.getElem?_setIfInBounds]
  split
  next hci =>
    subst hci
    split
    next hlt =>
      rw [valueAt, Array.getD_eq_getD_getElem?, Array.getElem?_eq_getElem hlt, Option.getD_some] at h
      rw [Array.getElem?_eq_getElem hlt, h]
    next hlt => rw [Array.getElem?_eq_none (Nat.not_lt.mp hlt)]
  next => rfl

-- What is written at the class before a trial is written over by the trial.
theorem exists_tryValues_eq (limit : Nat) {c : Nat} {v : Valuation} (rest : Valuation → Nat → Bool × Valuation × Nat)
    {found : Value → Nat → Nat × Option Valuation}
    (h : ∀ x n, rest (v.setIfInBounds c (some x)) n = leaving (v.setIfInBounds c (some x)) (found x n))
    (xs : List Value) {u : Valuation} (hu : ∀ x, u.setIfInBounds c x = v.setIfInBounds c x) (n : Nat) :
    ∃ w, (∀ x, w.setIfInBounds c x = v.setIfInBounds c x) ∧
      tryValues limit (fun x v n => rest (v.setIfInBounds c (some x)) n) xs u n =
        leaving w (firstSuccess limit found xs n) := by
  induction xs generalizing u n with
  | nil => exact ⟨u, hu, rfl⟩
  | cons x xs ih =>
    have hset : ∀ y, (v.setIfInBounds c (some x)).setIfInBounds c y = v.setIfInBounds c y :=
      fun _ => Array.setIfInBounds_setIfInBounds _
    rw [tryValues, firstSuccess, hu, h]
    cases hf : found x n with
    | mk m r =>
      cases r with
      | some w => exact ⟨u, hu, rfl⟩
      | none =>
        dsimp only [leaving, Option.isSome, Option.getD]
        split
        · exact ⟨_, hset, rfl⟩
        · exact ih hset m

/-- Writing over one valuation and emptying it again comes to the same as a valuation for every branch. -/
theorem backtrack_eq {p : Problem} {limit : Nat} {opened : List Nat} (hnodup : opened.Nodup) {v : Valuation}
    (hv : ∀ k ∈ opened, valueAt v k = none) (n : Nat) :
    backtrack p limit opened v n = leaving v (search p limit opened v n) := by
  induction opened generalizing v n with
  | nil =>
    rw [backtrack, search]
    split
    · rfl
    · cases hf : p.functional v <;> simp [leaving]
  | cons c rest ih =>
    obtain ⟨hc, hrest⟩ := List.nodup_cons.mp hnodup
    rw [backtrack, search]
    split
    · rfl
    · have htrial : ∀ x n, backtrack p limit rest (v.setIfInBounds c (some x)) n =
          leaving (v.setIfInBounds c (some x)) (search p limit rest (v.setIfInBounds c (some x)) n) := by
        intro x n
        refine ih hrest ?_ n
        intro k hk
        have hck : c ≠ k := fun he => hc (he ▸ hk)
        rw [valueAt_set_of_ne hck]
        exact hv k (List.mem_cons_of_mem _ hk)
      obtain ⟨w, hw, hall⟩ :=
        exists_tryValues_eq limit (backtrack p limit rest) htrial (p.candidates c) (fun _ => rfl) (n + 1)
      rw [hall]
      cases hf : (firstSuccess limit (fun x n => search p limit rest (v.setIfInBounds c (some x)) n) (p.candidates c)
          (n + 1)).2 with
      | some r => simp [leaving, hf]
      | none =>
        simp only [leaving, hf, Option.isSome_none, Option.getD_none, hw]
        rw [setIfInBounds_none (hv c List.mem_cons_self)]

theorem firstSuccess_some {α β : Type} {limit : Nat} {trial : α → Nat → Nat × Option β} {as : List α} {n m : Nat}
    {b : β} (h : firstSuccess limit trial as n = (m, some b)) : ∃ a ∈ as, ∃ k, trial a k = (m, some b) := by
  induction as generalizing n with
  | nil => simp [firstSuccess] at h
  | cons a as ih =>
    rw [firstSuccess] at h
    split at h
    · next k c hk =>
      refine ⟨a, List.mem_cons_self, n, ?_⟩
      rw [hk, h]
    · next k hk =>
      split at h
      · simp at h
      · obtain ⟨x, hx, j, hj⟩ := ih h
        exact ⟨x, List.mem_cons_of_mem _ hx, j, hj⟩

/-- What a search that succeeds leaves: a valuation that passes both tests, differs from the one it started from
only at open classes, and has a candidate for each of these. -/
structure Filled (p : Problem) (opened : List Nat) (v w : Valuation) : Prop where
  consistent : p.consistent w = true
  functional : p.functional w = true
  kept : ∀ k, k ∉ opened → valueAt w k = valueAt v k
  filled : ∀ k ∈ opened, k < v.size → ∃ x ∈ p.candidates k, valueAt w k = some x

theorem search_some {p : Problem} {limit : Nat} {opened : List Nat} {v w : Valuation} {n m : Nat}
    (h : search p limit opened v n = (m, some w)) : Filled p opened v w := by
  induction opened generalizing v n with
  | nil =>
    rw [search] at h
    split at h
    · simp at h
    · next hgo =>
      have hc : p.consistent v = true := by
        simp only [Bool.or_eq_true, Bool.not_eq_true', not_or] at hgo
        simpa using hgo.2
      have hw : (if p.functional v then some v else none) = some w := congrArg Prod.snd h
      split at hw
      · next hf =>
        have he : v = w := Option.some.inj hw
        subst he
        exact ⟨hc, hf, fun _ _ => rfl, by simp⟩
      · cases hw
  | cons c rest ih =>
    rw [search] at h
    split at h
    · simp at h
    · obtain ⟨x, hx, k, hk⟩ := firstSuccess_some h
      have hr := ih hk
      have hsize : (v.setIfInBounds c (some x)).size = v.size := Array.size_setIfInBounds
      refine ⟨hr.consistent, hr.functional, ?_, ?_⟩
      · intro j hj
        have hjc : c ≠ j := fun e => hj (e ▸ List.mem_cons_self)
        have hjr : j ∉ rest := fun e => hj (List.mem_cons_of_mem _ e)
        rw [hr.kept j hjr, valueAt_set_of_ne hjc]
      · intro j hj hlt
        by_cases hjr : j ∈ rest
        · exact hr.filled j hjr (by rw [hsize]; exact hlt)
        · have hjc : j = c := by
            rcases List.mem_cons.mp hj with he | he
            · exact he
            · exact absurd he hjr
          subst hjc
          exact ⟨x, hx, by rw [hr.kept j hjr, valueAt_set_self hlt]⟩

/-! ### The values before the search -/

/-- Writes the constants into a valuation. -/
def giveConstants (es : List (Nat × Value)) (v : Valuation) : Valuation :=
  es.foldl (fun v e => v.setIfInBounds e.1 (some e.2)) v

/-- Decides about one class: it has a value, or gets an address, or stays open. -/
def settleClass (c : Classes) (s : Valuation × Int × List Nat) (l : Nat) : Valuation × Int × List Nat :=
  if (valueAt s.1 l).isSome then s
  else if isReferenceClass c l then (s.1.setIfInBounds l (some (.addr ⟨s.2.1 + 1⟩)), s.2.1 + 1, s.2.2)
  else (s.1, s.2.1, s.2.2 ++ [l])

theorem fixedValues_eq (c : Classes) :
    fixedValues c =
      ((c.labels.foldl (settleClass c)
          (giveConstants (constants c) (Array.replicate c.members.length none), topAddress c, [])).1,
        (c.labels.foldl (settleClass c)
          (giveConstants (constants c) (Array.replicate c.members.length none), topAddress c, [])).2.2) := rfl

theorem size_giveConstants (es : List (Nat × Value)) (v : Valuation) : (giveConstants es v).size = v.size := by
  induction es generalizing v with
  | nil => rfl
  | cons e es ih =>
    have h : giveConstants (e :: es) v = giveConstants es (v.setIfInBounds e.1 (some e.2)) := rfl
    rw [h, ih, Array.size_setIfInBounds]

theorem valueAt_giveConstants_of_forall {es : List (Nat × Value)} {v : Valuation} {l : Nat} {x : Value}
    (hx : ∀ e ∈ es, e.1 = l → e.2 = x) (hv : valueAt v l = some x) : valueAt (giveConstants es v) l = some x := by
  induction es generalizing v with
  | nil => exact hv
  | cons e es ih =>
    have h : giveConstants (e :: es) v = giveConstants es (v.setIfInBounds e.1 (some e.2)) := rfl
    rw [h]
    apply ih fun d hd => hx d (List.mem_cons_of_mem _ hd)
    rw [valueAt_set]
    split
    · next he => rw [hx e List.mem_cons_self he.1]
    · exact hv

theorem valueAt_giveConstants {es : List (Nat × Value)} {v : Valuation} {l : Nat} {x : Value}
    (hx : ∀ e ∈ es, e.1 = l → e.2 = x) (hm : (l, x) ∈ es) (hl : l < v.size) :
    valueAt (giveConstants es v) l = some x := by
  induction es generalizing v with
  | nil => cases hm
  | cons e es ih =>
    have h : giveConstants (e :: es) v = giveConstants es (v.setIfInBounds e.1 (some e.2)) := rfl
    have htail : ∀ d ∈ es, d.1 = l → d.2 = x := fun d hd => hx d (List.mem_cons_of_mem _ hd)
    rw [h]
    rcases List.mem_cons.mp hm with he | hes
    · rw [← he]
      exact valueAt_giveConstants_of_forall htail (valueAt_set_self hl)
    · exact ih htail hes (by rw [Array.size_setIfInBounds]; exact hl)

/-- What settling classes does: values are kept, classes that are opened had none, and every class settled has a
value or is open. -/
structure Settled (ls : List Nat) (s r : Valuation × Int × List Nat) : Prop where
  size : r.1.size = s.1.size
  kept : ∀ k, (valueAt s.1 k).isSome → valueAt r.1 k = valueAt s.1 k
  opened : ∀ k ∈ r.2.2, k ∈ s.2.2 ∨ valueAt s.1 k = none
  still : ∀ k ∈ s.2.2, k ∈ r.2.2
  covered : ∀ l ∈ ls, l < s.1.size → (valueAt r.1 l).isSome ∨ l ∈ r.2.2

theorem settled_cons {l : Nat} {ls : List Nat} {s q r : Valuation × Int × List Nat} (h : Settled [l] s q)
    (h' : Settled ls q r) : Settled (l :: ls) s r := by
  refine ⟨h'.size.trans h.size, ?_, ?_, fun k hk => h'.still k (h.still k hk), ?_⟩
  · intro k hk
    have hq := h.kept k hk
    rw [h'.kept k (by rw [hq]; exact hk), hq]
  · intro k hk
    rcases h'.opened k hk with hq | hq
    · exact h.opened k hq
    · right
      cases hs : valueAt s.1 k with
      | none => rfl
      | some x =>
        have hks := h.kept k (by rw [hs]; rfl)
        rw [hq, hs] at hks
        cases hks
  · intro k hk hlt
    rcases List.mem_cons.mp hk with rfl | hk
    · rcases h.covered k List.mem_cons_self hlt with hq | hq
      · left
        rw [h'.kept k hq]
        exact hq
      · exact Or.inr (h'.still k hq)
    · exact h'.covered k hk (by rw [h.size]; exact hlt)

theorem settled_settleClass (c : Classes) (s : Valuation × Int × List Nat) (l : Nat) :
    Settled [l] s (settleClass c s l) := by
  unfold settleClass
  split
  · next hs =>
    refine ⟨rfl, fun _ _ => rfl, fun _ hk => Or.inl hk, fun _ hk => hk, ?_⟩
    intro k hk _
    rw [List.mem_singleton.mp hk]
    exact Or.inl hs
  · next hn =>
    split
    · refine ⟨Array.size_setIfInBounds, ?_, fun _ hk => Or.inl hk, fun _ hk => hk, ?_⟩
      · intro k hk
        apply valueAt_set_of_ne
        intro he
        exact hn (he ▸ hk)
      · intro k hk hlt
        have hkl := List.mem_singleton.mp hk
        left
        rw [hkl, valueAt_set_self (by rw [← hkl]; exact hlt)]
        rfl
    · refine ⟨rfl, fun _ _ => rfl, ?_, fun _ hk => List.mem_append_left _ hk, ?_⟩
      · intro k hk
        rcases List.mem_append.mp hk with hk | hk
        · exact Or.inl hk
        · right
          rw [List.mem_singleton.mp hk]
          simpa using hn
      · intro k hk _
        exact Or.inr (List.mem_append_right _ hk)

theorem settled_foldl (c : Classes) (ls : List Nat) (s : Valuation × Int × List Nat) :
    Settled ls s (ls.foldl (settleClass c) s) := by
  induction ls generalizing s with
  | nil => exact ⟨rfl, fun _ _ => rfl, fun _ hk => Or.inl hk, fun _ hk => hk, by simp⟩
  | cons l ls ih => exact settled_cons (settled_settleClass c s l) (ih _)

theorem valueAt_of_giveConstants {es : List (Nat × Value)} {v : Valuation} {l : Nat} {x : Value}
    (h : valueAt (giveConstants es v) l = some x) : valueAt v l = some x ∨ (l, x) ∈ es := by
  induction es generalizing v with
  | nil => exact Or.inl h
  | cons e es ih =>
    rcases ih h with h | h
    · rw [valueAt_set] at h
      split at h
      next he =>
        right
        rw [← he.1, ← Option.some.inj h]
        exact List.mem_cons_self
      next => exact Or.inl h
    · exact Or.inr (List.mem_cons_of_mem _ h)

/-- Only reference classes get a value when they are settled. -/
theorem isSome_of_foldl_settleClass {c : Classes} {ls : List Nat} {s : Valuation × Int × List Nat} {k : Nat}
    (h : (valueAt (ls.foldl (settleClass c) s).1 k).isSome) : (valueAt s.1 k).isSome ∨ isReferenceClass c k = true := by
  induction ls generalizing s with
  | nil => exact Or.inl h
  | cons l ls ih =>
    rcases ih h with h | h
    · unfold settleClass at h
      split at h
      · exact Or.inl h
      · split at h
        next href =>
          by_cases hlk : l = k
          · exact Or.inr (hlk ▸ href)
          · rw [valueAt_set_of_ne hlk] at h
            exact Or.inl h
        next => exact Or.inl h
    · exact Or.inr h

/-- The classes that stay open are no reference classes, and come in the order in which they were settled. -/
theorem exists_opened (c : Classes) (ls : List Nat) (s : Valuation × Int × List Nat) :
    ∃ os, (ls.foldl (settleClass c) s).2.2 = s.2.2 ++ os ∧ os.Sublist ls ∧ ∀ k ∈ os, isReferenceClass c k = false := by
  induction ls generalizing s with
  | nil => exact ⟨[], (List.append_nil _).symm, .slnil, nofun⟩
  | cons l ls ih =>
    obtain ⟨os, hos, hsub, hno⟩ := ih (settleClass c s l)
    rw [List.foldl_cons, hos]
    unfold settleClass
    split
    · exact ⟨os, rfl, hsub.cons l, hno⟩
    · split
      · exact ⟨os, rfl, hsub.cons l, hno⟩
      next href =>
        refine ⟨l :: os, List.append_assoc _ _ _, hsub.cons_cons l, ?_⟩
        intro k hk
        rcases List.mem_cons.mp hk with rfl | hk
        · exact Bool.eq_false_iff.mpr href
        · exact hno k hk

theorem constant_unique {c : Classes} (h : clash c = false) {l : Nat} {x y : Value} (hx : (l, x) ∈ constants c)
    (hy : (l, y) ∈ constants c) : x = y := by
  simp only [clash, List.any_eq_false, bne_iff_ne, ne_eq, not_not] at h
  have h₁ := h (l, x) hx
  have h₂ := h (l, y) hy
  exact Option.some.inj (h₁.symm.trans h₂)

theorem mem_constants {c : Classes} {l : Nat} {x : Value} : (l, x) ∈ constants c ↔ (Term.const x, l) ∈ c.members := by
  simp only [constants, List.mem_filterMap]
  constructor
  · rintro ⟨⟨t, k⟩, hm, he⟩
    cases t with
    | const v =>
      have hp : (k, v) = (l, x) := Option.some.inj he
      have hk : k = l := congrArg Prod.fst hp
      have hv : v = x := congrArg Prod.snd hp
      rw [← hk, ← hv]
      exact hm
    | _ => cases he
  · intro h
    exact ⟨(.const x, l), h, rfl⟩

/-- The values that a search starts from, when no two constants clash: those of the constants and of references. -/
structure Fixed (c : Classes) (v : Valuation) (opened : List Nat) : Prop where
  constant : ∀ {l : Nat} {x : Value}, (l, x) ∈ constants c → valueAt v l = some x ∧ l ∉ opened
  source : ∀ {l : Nat} {x : Value}, valueAt v l = some x → (∃ y, (l, y) ∈ constants c) ∨ isReferenceClass c l = true
  nodup : opened.Nodup
  unset : ∀ l ∈ opened, l < v.size ∧ valueAt v l = none
  covered : ∀ {t : Term} {l : Nat}, (t, l) ∈ c.members → (valueAt v l).isSome ∨ l ∈ opened

theorem fixed_fixedValues {c : Classes} (hb : c.Bounded) (hc : clash c = false) :
    Fixed c (fixedValues c).1 (fixedValues c).2 := by
  rw [fixedValues_eq]
  have hs := settled_foldl c c.labels
    (giveConstants (constants c) (Array.replicate c.members.length none), topAddress c, [])
  have hsize : (giveConstants (constants c) (Array.replicate c.members.length none)).size = c.members.length := by
    rw [size_giveConstants, Array.size_replicate]
  have hv : ∀ {l : Nat} {x : Value}, (l, x) ∈ constants c →
      valueAt (giveConstants (constants c) (Array.replicate c.members.length none)) l = some x := by
    intro l x hx
    apply valueAt_giveConstants _ hx (by rw [Array.size_replicate]; exact hb _ (mem_constants.mp hx))
    intro e he hel
    exact constant_unique hc (hel ▸ he) hx
  have hconst : ∀ {l : Nat} {x : Value}, (l, x) ∈ constants c → l ∉ (c.labels.foldl (settleClass c)
      (giveConstants (constants c) (Array.replicate c.members.length none), topAddress c, [])).2.2 := by
    intro l x hx ho
    rcases hs.opened l ho with h | h
    · cases h
    · rw [hv hx] at h
      cases h
  have hsource : ∀ {l : Nat} {x : Value}, valueAt (c.labels.foldl (settleClass c)
      (giveConstants (constants c) (Array.replicate c.members.length none), topAddress c, [])).1 l = some x →
      (∃ y, (l, y) ∈ constants c) ∨ isReferenceClass c l = true := by
    intro l x hx
    rcases isSome_of_foldl_settleClass (Option.isSome_iff_exists.mpr ⟨x, hx⟩) with h | h
    · obtain ⟨y, hy⟩ := Option.isSome_iff_exists.mp h
      rcases valueAt_of_giveConstants hy with h | h
      · rw [valueAt_replicate] at h
        cases h
      · exact Or.inl ⟨y, h⟩
    · exact Or.inr h
  obtain ⟨os, hos, hsub, href⟩ := exists_opened c c.labels
    (giveConstants (constants c) (Array.replicate c.members.length none), topAddress c, [])
  refine ⟨?_, hsource, ?_, ?_, ?_⟩
  · intro l x hx
    refine ⟨?_, hconst hx⟩
    rw [hs.kept _ (by rw [hv hx]; rfl), hv hx]
  · rw [hos]
    exact (nodup_eraseDups _).sublist hsub
  · intro l hl
    constructor
    · rw [hos] at hl
      obtain ⟨m, hm, rfl⟩ := List.mem_map.mp (List.mem_eraseDups.mp (hsub.subset hl))
      rw [hs.size, hsize]
      exact hb m hm
    · cases hval : valueAt (c.labels.foldl (settleClass c)
          (giveConstants (constants c) (Array.replicate c.members.length none), topAddress c, [])).1 l with
      | none => rfl
      | some x =>
        rcases hsource hval with ⟨y, hy⟩ | h
        · exact absurd hl (hconst hy)
        · rw [hos] at hl
          rw [href l hl] at h
          cases h
  · intro t l hm
    have hlt : l < c.members.length := hb _ hm
    exact hs.covered l (Classes.mem_labels hm) (by rw [hsize]; exact hlt)

end Symex.Solver
