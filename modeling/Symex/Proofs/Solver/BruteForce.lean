import Mathlib.Data.List.Basic
import Symex.Proofs.Solver.Preference

/-!
# Pruning loses nothing

A search with room for the whole tree of choices finds what trying all of them would find: the first choice, in the
lexicographic order of the candidates, with which the atoms are true and reads of equal places have equal values.
A branch that is dropped early has no such choice above it, and a branch that fails leaves nothing behind.
-/

namespace Symex.Solver

open Problem

/-! ### Choices -/

section Choices

variable {α : Type}

/-- The ways to take one element of each list. Those that differ first in an earlier list come first, in its order. -/
def choices : List (List α) → List (List α)
  | [] => [[]]
  | d :: ds => d.flatMap fun x => (choices ds).map (x :: ·)

/-- The choice that takes the elements at the given positions. -/
def choice? : List (List α) → List Nat → Option (List α)
  | [], [] => some []
  | d :: ds, k :: ks => d[k]?.bind fun x => (choice? ds ks).map (x :: ·)
  | _, _ => none

/-- The nodes of the tree in which one list after the other is chosen from, the root included. -/
def treeSize : List (List α) → Nat
  | [] => 1
  | d :: ds => 1 + d.length * treeSize ds

theorem choice?_cons {d : List α} {ds : List (List α)} {ks : List Nat} {xs : List α}
    (h : choice? (d :: ds) ks = some xs) :
    ∃ k ks' x xs', ks = k :: ks' ∧ xs = x :: xs' ∧ d[k]? = some x ∧ choice? ds ks' = some xs' := by
  cases ks with
  | nil => cases h
  | cons k ks =>
    obtain ⟨x, hx, h⟩ := Option.bind_eq_some_iff.mp h
    obtain ⟨ys, hys, rfl⟩ := Option.map_eq_some_iff.mp h
    exact ⟨k, ks, x, ys, rfl, rfl, hx, hys⟩

theorem mem_choices_of_choice? {ds : List (List α)} {ks : List Nat} {xs : List α} (h : choice? ds ks = some xs) :
    xs ∈ choices ds := by
  induction ds generalizing ks xs with
  | nil =>
    cases ks with
    | nil =>
      cases h
      exact List.mem_singleton_self []
    | cons k ks => cases h
  | cons d ds ih =>
    obtain ⟨k, ks, x, ys, rfl, rfl, hx, hys⟩ := choice?_cons h
    exact List.mem_flatMap.mpr ⟨x, List.mem_of_getElem? hx, List.mem_map.mpr ⟨ys, ih hys, rfl⟩⟩

theorem length_of_mem_choices {ds : List (List α)} {xs : List α} (h : xs ∈ choices ds) : xs.length = ds.length := by
  induction ds generalizing xs with
  | nil =>
    rw [List.mem_singleton.mp h]
    rfl
  | cons d ds ih =>
    obtain ⟨x, -, hx⟩ := List.mem_flatMap.mp h
    obtain ⟨ys, hys, rfl⟩ := List.mem_map.mp hx
    rw [List.length_cons, List.length_cons, ih hys]

/-- A good choice, none of the good ones being before it. -/
structure IsFirst (good : List α → Prop) (ds : List (List α)) (ks : List Nat) (xs : List α) : Prop where
  chosen : choice? ds ks = some xs
  holds : good xs
  least : ∀ js ys, choice? ds js = some ys → good ys → ks = js ∨ ks < js

theorem exists_isFirst_of_find? {q : List α → Bool} {ds : List (List α)} {xs : List α}
    (h : (choices ds).find? q = some xs) : ∃ ks, IsFirst (fun ys => q ys = true) ds ks xs := by
  induction ds generalizing q xs with
  | nil =>
    have hmem := List.mem_singleton.mp (List.mem_of_find?_eq_some h)
    refine ⟨[], by rw [hmem]; rfl, List.find?_some h, ?_⟩
    intro js ys hjs _
    cases js with
    | nil => exact Or.inl rfl
    | cons j js => cases hjs
  | cons d ds ih =>
    rw [choices, List.find?_flatMap, List.findSome?_eq_some_iff] at h
    obtain ⟨before, x, after, rfl, hx, hbefore⟩ := h
    rw [List.find?_map] at hx
    obtain ⟨ys, hys, rfl⟩ := Option.map_eq_some_iff.mp hx
    obtain ⟨ks, hchosen, hgood, hleast⟩ := ih hys
    have hat : (before ++ x :: after)[before.length]? = some x := by simp
    refine ⟨before.length :: ks, by rw [choice?, hat, Option.bind_some, hchosen]; rfl, hgood, ?_⟩
    intro js zs hjs hz
    obtain ⟨j, js, y, zs, rfl, rfl, hy, hzs⟩ := choice?_cons hjs
    rcases Nat.lt_trichotomy before.length j with hlt | rfl | hlt
    · exact Or.inr (List.cons_lt_cons_iff.mpr (Or.inl hlt))
    · rw [hat] at hy
      cases hy
      rcases hleast js zs hzs hz with rfl | hlt
      · exact Or.inl rfl
      · exact Or.inr (List.cons_lt_cons_iff.mpr (Or.inr ⟨rfl, hlt⟩))
    · -- An earlier element was tried before, and nothing was found with it.
      rw [List.getElem?_append_left hlt] at hy
      have hnone := hbefore y (List.mem_of_getElem? hy)
      rw [List.find?_eq_none] at hnone
      exact absurd hz (hnone _ (List.mem_map.mpr ⟨zs, mem_choices_of_choice? hzs, rfl⟩))

end Choices

/-! ### The search goes through the choices -/

theorem firstSuccess_eq_findSome? {α β : Type} {limit cost : Nat} {trial : α → Nat → Nat × Option β}
    {g : α → Option β} (h : ∀ a n, n + cost ≤ limit → (trial a n).1 ≤ n + cost ∧ (trial a n).2 = g a) {as : List α}
    {n : Nat} (hn : n + as.length * cost ≤ limit) :
    (firstSuccess limit trial as n).1 ≤ n + as.length * cost ∧ (firstSuccess limit trial as n).2 = as.findSome? g := by
  induction as generalizing n with
  | nil => exact ⟨Nat.le_add_right n _, rfl⟩
  | cons a as ih =>
    rw [List.length_cons, Nat.succ_mul] at hn ⊢
    obtain ⟨hle, hg⟩ := h a n (by omega)
    rw [firstSuccess, List.findSome?_cons, ← hg]
    cases ht : trial a n with
    | mk m r =>
      rw [ht] at hle
      dsimp only at hle
      cases r with
      | some b => exact ⟨by dsimp only; omega, rfl⟩
      | none =>
        dsimp only
        rw [if_neg (by omega : ¬ m > limit)]
        obtain ⟨hle', hsome⟩ := ih (n := m) (by omega)
        exact ⟨by omega, hsome⟩

theorem valueAt_giveConstants_of_not_mem {es : List (Nat × Value)} {v : Valuation} {k : Nat}
    (h : ∀ e ∈ es, e.1 ≠ k) : valueAt (giveConstants es v) k = valueAt v k := by
  induction es generalizing v with
  | nil => rfl
  | cons e es ih =>
    have hstep : giveConstants (e :: es) v = giveConstants es (v.setIfInBounds e.1 (some e.2)) := rfl
    rw [hstep, ih fun d hd => h d (List.mem_cons_of_mem _ hd), valueAt_set_of_ne (h e List.mem_cons_self)]

theorem valueAt_zip_of_not_mem {opened : List Nat} {v : Valuation} {k : Nat} (hk : k ∉ opened) (xs : List Value) :
    valueAt (giveConstants (opened.zip xs) v) k = valueAt v k := by
  apply valueAt_giveConstants_of_not_mem
  intro e he hek
  exact hk (hek ▸ (List.of_mem_zip he).1)

/-- What no choice for the open classes can mend: an atom that is false already. -/
theorem consistent_of_zip {p : Problem} {opened : List Nat} {v : Valuation} (hv : ∀ k ∈ opened, valueAt v k = none)
    {xs : List Value} (h : p.consistent (giveConstants (opened.zip xs) v) = true) : p.consistent v = true := by
  apply consistent_of_above h
  intro k x hx
  have hk : k ∉ opened := fun hk => by rw [hv k hk] at hx; cases hx
  rw [valueAt_zip_of_not_mem hk]
  exact hx

/-- A search that cannot pass its limit finds the first choice that passes both tests. -/
theorem search_eq_find? {p : Problem} {limit : Nat} {opened : List Nat} (hnodup : opened.Nodup) {v : Valuation}
    (hv : ∀ k ∈ opened, valueAt v k = none) {n : Nat} (hn : n + treeSize (opened.map p.candidates) ≤ limit) :
    (search p limit opened v n).1 ≤ n + treeSize (opened.map p.candidates) ∧
      (search p limit opened v n).2 = ((choices (opened.map p.candidates)).map fun xs =>
        giveConstants (opened.zip xs) v).find? fun w => p.consistent w && p.functional w := by
  induction opened generalizing v n with
  | nil =>
    have hle : ¬ n + 1 > limit := by simpa [treeSize] using hn
    have hleaf : giveConstants [] v = v := rfl
    rw [search]
    cases hc : p.consistent v <;> cases hf : p.functional v <;> simp [hle, hc, hf, treeSize, choices, hleaf]
  | cons c rest ih =>
    obtain ⟨hc, hrest⟩ := List.nodup_cons.mp hnodup
    rw [List.map_cons, treeSize] at hn ⊢
    have hle : ¬ n + 1 > limit := by omega
    cases hcon : p.consistent v with
    | false =>
      have hnone : ((choices ((p.candidates c) :: rest.map p.candidates)).map fun xs =>
          giveConstants ((c :: rest).zip xs) v).find? (fun w => p.consistent w && p.functional w) = none := by
        rw [List.find?_eq_none]
        intro w hw hpass
        obtain ⟨xs, -, rfl⟩ := List.mem_map.mp hw
        have hv' := consistent_of_zip hv (Bool.and_eq_true_iff.mp hpass).1
        rw [hcon] at hv'
        cases hv'
      rw [hnone, search]
      simp [hcon]
    | true =>
      have htrial : ∀ x m, m + treeSize (rest.map p.candidates) ≤ limit →
          (search p limit rest (v.setIfInBounds c (some x)) m).1 ≤ m + treeSize (rest.map p.candidates) ∧
          (search p limit rest (v.setIfInBounds c (some x)) m).2 = ((choices (rest.map p.candidates)).map fun xs =>
            giveConstants (rest.zip xs) (v.setIfInBounds c (some x))).find?
              fun w => p.consistent w && p.functional w := by
        intro x m hm
        refine ih hrest ?_ hm
        intro k hk
        have hck : c ≠ k := fun he => hc (he ▸ hk)
        rw [valueAt_set_of_ne hck]
        exact hv k (List.mem_cons_of_mem _ hk)
      have hroom : n + 1 + (p.candidates c).length * treeSize (rest.map p.candidates) ≤ limit := by omega
      obtain ⟨hcount, hfound⟩ := firstSuccess_eq_findSome? htrial hroom
      rw [search]
      simp only [hle, hcon, decide_false, Bool.not_true, Bool.or_self, Bool.false_eq_true, if_false]
      refine ⟨Nat.le_trans hcount (by omega), hfound.trans ?_⟩
      rw [choices, List.map_flatMap, List.find?_flatMap]
      congr 1
      funext x
      rw [List.map_map]
      rfl

/-! ### What passes both tests -/

/-- The term that a read comes from, by its slot. -/
def ComesFrom (c : Classes) (r : Read) : Prop :=
  match r.slot with
  | .field f => ∃ b, c.label? b = some r.base ∧ (.field b f, r.value) ∈ c.members
  | .element => ∃ a i e j, r.index = some j ∧ c.label? a = some r.base ∧ c.label? i = some j ∧
      (.element a i e, r.value) ∈ c.members
  | .length => ∃ a, c.label? a = some r.base ∧ (.length a, r.value) ∈ c.members

theorem comesFrom_of_mem {c : Classes} {r : Read} (h : r ∈ readsOf c) : ComesFrom c r := by
  obtain ⟨⟨t, l⟩, hm, hr⟩ := List.mem_filterMap.mp h
  cases t with
  | field b f =>
    obtain ⟨k, hk, rfl⟩ := Option.map_eq_some_iff.mp hr
    exact ⟨b, hk, hm⟩
  | element a i e =>
    obtain ⟨k, hk, hr⟩ := Option.bind_eq_some_iff.mp hr
    obtain ⟨j, hj, rfl⟩ := Option.map_eq_some_iff.mp hr
    exact ⟨a, i, e, j, rfl, hk, hj, hm⟩
  | length a =>
    obtain ⟨k, hk, rfl⟩ := Option.map_eq_some_iff.mp hr
    exact ⟨a, hk, hm⟩
  | _ => cases hr

namespace Total

variable {as : List Atom} {w : Valuation} (h : Total as w) (hclash : clash (Classes.ofAtoms as) = false)

include h hclash

theorem consistent_of_holds
    (hm : ∀ a ∈ as, Assignment.holds (Table.ofList (assignmentOf (Classes.ofAtoms as) w)) a = some true) :
    (problemOf as (Classes.ofAtoms as)).consistent w = true := by
  rw [consistent_iff]
  intro e he x y hx hy
  obtain ⟨a, ha, hae⟩ := List.mem_filterMap.mp he
  obtain ⟨i, hi, hae⟩ := Option.bind_eq_some_iff.mp hae
  obtain ⟨j, hj, rfl⟩ := Option.map_eq_some_iff.mp hae
  have hholds := hm a ha
  rw [Assignment.holds, h.eval_label hclash hi, h.eval_label hclash hj, hx, hy] at hholds
  exact Option.some.inj hholds

theorem exists_value {t : Term} {l : Nat} (hm : (t, l) ∈ (Classes.ofAtoms as).members) : ∃ x, valueAt w l = some x ∧
    Assignment.eval (Table.ofList (assignmentOf (Classes.ofAtoms as) w)) t = some x := by
  have hl := Classes.label?_eq_some_iff.mpr hm
  obtain ⟨x, hx⟩ := Option.isSome_iff_exists.mp (h.valued hclash hl)
  exact ⟨x, hx, (h.eval_label hclash hl).trans hx⟩

theorem exists_values {t u : Term} {k l : Nat} (ht : (Classes.ofAtoms as).label? t = some k)
    (hu : (Classes.ofAtoms as).label? u = some l) (he : valueAt w k = valueAt w l) :
    ∃ x, Assignment.eval (Table.ofList (assignmentOf (Classes.ofAtoms as) w)) t = some x ∧
      Assignment.eval (Table.ofList (assignmentOf (Classes.ofAtoms as) w)) u = some x := by
  obtain ⟨x, hx, htx⟩ := h.exists_value hclash (Classes.label?_eq_some_iff.mp ht)
  obtain ⟨y, hy, huy⟩ := h.exists_value hclash (Classes.label?_eq_some_iff.mp hu)
  rw [hx, hy] at he
  cases he
  exact ⟨x, htx, huy⟩

theorem agree_of_functional
    (hm : Assignment.Functional (Table.ofList (assignmentOf (Classes.ofAtoms as) w))) {r q : Read}
    (hr : r ∈ readsOf (Classes.ofAtoms as)) (hq : q ∈ readsOf (Classes.ofAtoms as)) : agree w r q = true := by
  by_cases hslot : r.slot = q.slot
  swap
  · simp [agree, hslot]
  by_cases hbase : valueAt w r.base = valueAt w q.base
  swap
  · simp [agree, hbase]
  have hfrom := comesFrom_of_mem hr
  have hfrom' := comesFrom_of_mem hq
  rw [ComesFrom, ← hslot] at hfrom'
  rw [ComesFrom] at hfrom
  cases hs : r.slot with
  | field f =>
    rw [hs] at hfrom hfrom'
    obtain ⟨b, hb, hv⟩ := hfrom
    obtain ⟨c, hc, hv'⟩ := hfrom'
    obtain ⟨x, hbx, hcx⟩ := h.exists_values hclash hb hc hbase
    obtain ⟨y, hy, hvy⟩ := h.exists_value hclash hv
    obtain ⟨z, hz, hvz⟩ := h.exists_value hclash hv'
    simp [agree, hy, hz, hm.field hbx hcx hvy hvz]
  | element =>
    rw [hs] at hfrom hfrom'
    obtain ⟨a, i, e, k, hk, ha, hi, hv⟩ := hfrom
    obtain ⟨b, j, e', l, hl, hb, hj, hv'⟩ := hfrom'
    by_cases hindex : valueAt w k = valueAt w l
    swap
    · simp [agree, hk, hl, hindex]
    obtain ⟨x, hax, hbx⟩ := h.exists_values hclash ha hb hbase
    obtain ⟨n, hin, hjn⟩ := h.exists_values hclash hi hj hindex
    obtain ⟨y, hy, hvy⟩ := h.exists_value hclash hv
    obtain ⟨z, hz, hvz⟩ := h.exists_value hclash hv'
    simp [agree, hy, hz, hm.element hax hbx hin hjn hvy hvz]
  | length =>
    rw [hs] at hfrom hfrom'
    obtain ⟨a, ha, hv⟩ := hfrom
    obtain ⟨b, hb, hv'⟩ := hfrom'
    obtain ⟨x, hax, hbx⟩ := h.exists_values hclash ha hb hbase
    obtain ⟨y, hy, hvy⟩ := h.exists_value hclash hv
    obtain ⟨z, hz, hvz⟩ := h.exists_value hclash hv'
    simp [agree, hy, hz, hm.length hax hbx hvy hvz]

/-- On all classes the two tests say that the atoms are true and that reads of equal places have equal values. -/
theorem passes_iff : ((problemOf as (Classes.ofAtoms as)).consistent w &&
      (problemOf as (Classes.ofAtoms as)).functional w) = true ↔
    (∀ a ∈ as, Assignment.holds (Table.ofList (assignmentOf (Classes.ofAtoms as) w)) a = some true) ∧
      Assignment.Functional (Table.ofList (assignmentOf (Classes.ofAtoms as) w)) := by
  rw [Bool.and_eq_true_iff]
  constructor
  · rintro ⟨hc, hf⟩
    have hs := h.solution hclash hc hf
    exact ⟨fun a ha => hs.holds ha, hs.isFunctional⟩
  · rintro ⟨hholds, hm⟩
    refine ⟨h.consistent_of_holds hclash hholds, ?_⟩
    rw [functional, List.all_eq_true]
    intro e he
    obtain ⟨hr, hq⟩ := mem_of_mem_pairs he
    exact h.agree_of_functional hclash hm hr hq

end Total

/-! ### Brute force -/

/-- The candidates of the open classes. -/
def domains (as : List Atom) : List (List Value) :=
  (fixedValues (Classes.ofAtoms as)).2.map (problemOf as (Classes.ofAtoms as)).candidates

/-- The fixed values together with a choice for the open classes. -/
def chosen (as : List Atom) (xs : List Value) : Valuation :=
  giveConstants ((fixedValues (Classes.ofAtoms as)).2.zip xs) (fixedValues (Classes.ofAtoms as)).1

/-- A choice with which all atoms are true, and reads of equal places have equal values. -/
def Solves (as : List Atom) (xs : List Value) : Prop :=
  (∀ a ∈ as, Assignment.holds (Table.ofList (assignmentOf (Classes.ofAtoms as) (chosen as xs))) a = some true) ∧
    Assignment.Functional (Table.ofList (assignmentOf (Classes.ofAtoms as) (chosen as xs)))

theorem isSome_giveConstants {es : List (Nat × Value)} {v : Valuation} {k : Nat} (hk : k < v.size)
    (h : (valueAt v k).isSome ∨ ∃ e ∈ es, e.1 = k) : (valueAt (giveConstants es v) k).isSome := by
  induction es generalizing v with
  | nil =>
    rcases h with h | ⟨e, he, -⟩
    · exact h
    · cases he
  | cons e es ih =>
    refine ih (v := v.setIfInBounds e.1 (some e.2)) (by rw [Array.size_setIfInBounds]; exact hk) ?_
    rw [valueAt_set]
    split
    · exact Or.inl rfl
    next hne =>
      refine h.imp_right ?_
      rintro ⟨d, hd, rfl⟩
      rcases List.mem_cons.mp hd with rfl | hd
      · exact absurd ⟨rfl, hk⟩ hne
      · exact ⟨d, hd, rfl⟩

theorem total_chosen {as : List Atom} (hclash : clash (Classes.ofAtoms as) = false) {xs : List Value}
    (hx : xs ∈ choices (domains as)) : Total as (chosen as xs) := by
  have hfixed := fixed_fixedValues (Classes.bounded_ofAtoms as) hclash
  have hlength : xs.length = (fixedValues (Classes.ofAtoms as)).2.length :=
    (length_of_mem_choices hx).trans (List.length_map _)
  refine ⟨fun k hk => valueAt_zip_of_not_mem hk xs, ?_⟩
  intro k hk
  obtain ⟨i, hi, rfl⟩ := List.mem_iff_getElem.mp hk
  refine isSome_giveConstants (hfixed.unset _ hk).1 (Or.inr ⟨_, List.getElem_mem (n := i) ?_, ?_⟩)
  · rw [List.length_zip]
    omega
  · rw [List.getElem_zip]

theorem search_eq_chosen {as : List Atom} (hclash : clash (Classes.ofAtoms as) = false) {limit : Nat}
    (hl : treeSize (domains as) ≤ limit) :
    (search (problemOf as (Classes.ofAtoms as)) limit (fixedValues (Classes.ofAtoms as)).2
      (fixedValues (Classes.ofAtoms as)).1 0).2 =
    ((choices (domains as)).find? fun xs => (problemOf as (Classes.ofAtoms as)).consistent (chosen as xs) &&
      (problemOf as (Classes.ofAtoms as)).functional (chosen as xs)).map (chosen as) := by
  have hfixed := fixed_fixedValues (Classes.bounded_ofAtoms as) hclash
  have hroom : 0 + treeSize (domains as) ≤ limit := by omega
  have hfind := (search_eq_find? hfixed.nodup (fun k hk => (hfixed.unset k hk).2) hroom).2
  rw [List.find?_map] at hfind
  exact hfind

/-- With room for the whole tree, the search succeeds exactly if some choice of candidates solves the atoms. The values
it leaves are then those of the first such choice in lexicographic order; if there is none, those it started from. -/
theorem searchClasses_first_choice {as : List Atom} (hclash : clash (Classes.ofAtoms as) = false) {limit : Nat}
    (hl : treeSize (domains as) ≤ limit) :
    ((searchClasses limit as (Classes.ofAtoms as)).1 = true ↔
      ∃ ks xs, choice? (domains as) ks = some xs ∧ Solves as xs) ∧
    ((searchClasses limit as (Classes.ofAtoms as)).1 = true → ∃ ks xs, IsFirst (Solves as) (domains as) ks xs ∧
      (searchClasses limit as (Classes.ofAtoms as)).2.1 = chosen as xs) ∧
    ((searchClasses limit as (Classes.ofAtoms as)).1 = false →
      (searchClasses limit as (Classes.ofAtoms as)).2.1 = (fixedValues (Classes.ofAtoms as)).1) := by
  have hpass : ∀ {ks : List Nat} {xs : List Value}, choice? (domains as) ks = some xs →
      (((problemOf as (Classes.ofAtoms as)).consistent (chosen as xs) &&
        (problemOf as (Classes.ofAtoms as)).functional (chosen as xs)) = true ↔ Solves as xs) :=
    fun hks => (total_chosen hclash (mem_choices_of_choice? hks)).passes_iff hclash
  rw [searchClasses_eq hclash, leaving, search_eq_chosen hclash hl]
  cases hfind : (choices (domains as)).find? fun xs => (problemOf as (Classes.ofAtoms as)).consistent (chosen as xs) &&
      (problemOf as (Classes.ofAtoms as)).functional (chosen as xs) with
  | none =>
    refine ⟨⟨fun h => absurd h Bool.false_ne_true, ?_⟩, fun h => absurd h Bool.false_ne_true, fun _ => rfl⟩
    rintro ⟨ks, xs, hks, hsolves⟩
    have hno := List.find?_eq_none.mp hfind xs (mem_choices_of_choice? hks)
    exact absurd ((hpass hks).mpr hsolves) hno
  | some xs =>
    obtain ⟨ks, hks, hgood, hleast⟩ := exists_isFirst_of_find? hfind
    have hsolves := (hpass hks).mp hgood
    have hfirst : IsFirst (Solves as) (domains as) ks xs :=
      ⟨hks, hsolves, fun js ys hjs hys => hleast js ys hjs ((hpass hjs).mpr hys)⟩
    exact ⟨⟨fun _ => ⟨ks, xs, hks, hsolves⟩, fun _ => rfl⟩, fun _ => ⟨ks, xs, hfirst, rfl⟩,
      fun h => absurd h.symm Bool.false_ne_true⟩

/-- Elements of an array that differ, and a flag that is not off. -/
def partedAtoms : List Atom :=
  let a : Term := .param "a" (.array .int)
  [.ne (.element a (.param "i" .int) .int) (.element a (.param "j" .int) .int),
    .ne (.param "flag" .bool) (.const (.bool false))]

-- The first choice without a false atom has equal indices, so it is the second that is left.
theorem searchClasses_first_choice_parted :
    (clash (Classes.ofAtoms partedAtoms) = false ∧ treeSize (domains partedAtoms) ≤ 63) ∧
    (searchClasses 63 partedAtoms (Classes.ofAtoms partedAtoms)).1 = true ∧
    (searchClasses 63 partedAtoms (Classes.ofAtoms partedAtoms)).2.1 =
      chosen partedAtoms [.int 0, .int 0, .int 1, .int 1, .bool true] ∧
    ∃ ks xs, IsFirst (Solves partedAtoms) (domains partedAtoms) ks xs ∧
      (searchClasses 63 partedAtoms (Classes.ofAtoms partedAtoms)).2.1 = chosen partedAtoms xs := by
  have hclash : clash (Classes.ofAtoms partedAtoms) = false := by decide +kernel
  have hl : treeSize (domains partedAtoms) ≤ 63 := by decide +kernel
  have hfound : (searchClasses 63 partedAtoms (Classes.ofAtoms partedAtoms)).1 = true := by decide +kernel
  exact ⟨⟨hclash, hl⟩, hfound, by decide +kernel, (searchClasses_first_choice hclash hl).2.1 hfound⟩

end Symex.Solver
