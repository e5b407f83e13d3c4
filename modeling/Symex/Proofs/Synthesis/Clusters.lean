import Mathlib.Data.List.FinRange
import Mathlib.Data.List.Induction
import Mathlib.Data.List.Nodup
import Mathlib.Logic.Relation
import Symex.Proofs.Data.Outcome
import Symex.Synthesis.Cluster

/-!
# Clusters are connected components

Uniting two positions adds one link, so after all links two positions are in one class of the forest exactly if a chain
of links leads from one to the other. Positions are filed under their roots in increasing order, and a root stands
before the rest of its class; so each cluster begins with its root, and clusters are ordered by it.
-/

namespace Symex.Cluster

/-- A model is an alias of another one, or an atom of it mentions the other's term. -/
def Mentions (targets : Store) (a b : Handle) : Prop :=
  (∃ t k, targets.get? a = some (.sameAs t k) ∧ targets.deref k = .ok b) ∨
    ∃ m as n, targets.get? a = some m ∧ m.atoms? = some as ∧ targets.get? b = some n ∧
      ∃ x ∈ as.toList, n.term ∈ x.terms

/-- Two positions one of which mentions the other. -/
def Linked (targets : Store) (roots : List Handle) (i j : Nat) : Prop :=
  ∃ a b, roots[i]? = some a ∧ roots[j]? = some b ∧ (Mentions targets a b ∨ Mentions targets b a)

instance (targets : Store) (roots : List Handle) : Std.Symm (Linked targets roots) where
  symm i j h := by
    obtain ⟨a, b, ha, hb, hm⟩ := h
    exact ⟨b, a, hb, ha, hm.symm⟩

/-! ### Links -/

theorem mentions_iff {targets : Store} {a b : Handle} {v : Bool} (h : mentions targets a b = .ok v) :
    v = true ↔ Mentions targets a b := by
  obtain ⟨m, hm, h⟩ := bind_eq_ok.mp h
  rw [Store.get_eq_ok] at hm
  have hatoms : (targets.get b >>= fun n =>
      pure ((m.atoms?.map fun as => as.toList.any (·.mentions n.term)).getD false)) = .ok v →
      (v = true ↔ ∃ m as n, targets.get? a = some m ∧ m.atoms? = some as ∧ targets.get? b = some n ∧
        ∃ x ∈ as.toList, n.term ∈ x.terms) := by
    intro h
    obtain ⟨n, hn, h⟩ := bind_eq_ok.mp h
    rw [← pure_eq_ok.mp h]
    cases has : m.atoms? <;> simp [hm, Store.get_eq_ok.mp hn, has]
  cases m with
  | sameAs t k =>
    obtain ⟨r, hr, h⟩ := bind_eq_ok.mp h
    rw [← pure_eq_ok.mp h]
    simp [Mentions, hm, hr, Model.atoms?]
  | _ =>
    rw [hatoms h]
    simp [Mentions, hm]

section Links

variable {targets : Store} {roots : List Handle} (hbuilt : ∀ h ∈ roots, (targets.get? h).isSome)
  (hends : ∀ h ∈ roots, ∀ t k, targets.get? h = some (.sameAs t k) → ∃ r, targets.deref k = .ok r)

include hbuilt hends

theorem exists_mentions {a b : Handle} (ha : a ∈ roots) (hb : b ∈ roots) : ∃ v, mentions targets a b = .ok v := by
  obtain ⟨m, hm⟩ := Option.isSome_iff_exists.mp (hbuilt a ha)
  obtain ⟨n, hn⟩ := Option.isSome_iff_exists.mp (hbuilt b hb)
  rw [← Store.get_eq_ok] at hn
  cases m with
  | sameAs t k =>
    obtain ⟨r, hr⟩ := hends a ha t k hm
    exact ⟨_, bind_eq_ok.mpr ⟨_, Store.get_eq_ok.mpr hm, bind_eq_ok.mpr ⟨r, hr, rfl⟩⟩⟩
  | _ =>
    exact ⟨_, bind_eq_ok.mpr ⟨_, Store.get_eq_ok.mpr hm, bind_eq_ok.mpr ⟨false, rfl, bind_eq_ok.mpr ⟨n, hn, rfl⟩⟩⟩⟩

/-- The clusters are found without fault. -/
theorem exists_partition : ∃ cs, partition targets roots = .ok cs := by
  have hlink : ∀ (f : Forest roots.length) (p : Fin roots.length × Fin roots.length),
      ∃ g, link targets roots f p = .ok g := by
    intro f p
    rw [link]
    split
    · exact ⟨f, rfl⟩
    · obtain ⟨v, hv⟩ := exists_mentions hbuilt hends (roots.get_mem p.1) (roots.get_mem p.2)
      rw [hv]
      cases v <;> exact ⟨_, rfl⟩
  have hall : ∀ (l : List (Fin roots.length × Fin roots.length)) (f : Forest roots.length),
      ∃ g, l.foldlM (link targets roots) f = .ok g := by
    intro l
    induction l with
    | nil => exact fun f => ⟨f, rfl⟩
    | cons p l ih =>
      intro f
      obtain ⟨g, hg⟩ := hlink f p
      obtain ⟨e, he⟩ := ih g
      exact ⟨e, by rw [List.foldlM_cons, hg]; exact he⟩
  obtain ⟨f, hf⟩ := hall (pairs roots.length) (Forest.discrete roots.length)
  exact ⟨gather f, bind_eq_ok.mpr ⟨f, hf, rfl⟩⟩

end Links

/-! ### Classes of positions -/

/-- Positions are in one class exactly if a chain of `r` leads from one to the other. -/
def Connects {n : Nat} (r : Fin n → Fin n → Prop) (f : Forest n) : Prop :=
  ∀ i j, f.root i = f.root j ↔ Relation.EqvGen r i j

theorem connects_discrete (n : Nat) : Connects (fun _ _ => False) (Forest.discrete n) := by
  intro i j
  rw [Forest.root_discrete, Forest.root_discrete]
  constructor
  · rintro rfl
    exact .refl i
  · intro h
    induction h with
    | rel _ _ h => exact h.elim
    | refl => rfl
    | symm _ _ _ ih => exact ih.symm
    | trans _ _ _ _ _ ih ih' => exact ih.trans ih'

/-- Uniting two classes adds one link. -/
theorem Connects.union {n : Nat} {r : Fin n → Fin n → Prop} {f : Forest n} (h : Connects r f) (i j : Fin n) :
    Connects (fun a b => r a b ∨ (a, b) = (i, j)) (Forest.union i j f).2 := by
  intro a b
  constructor
  · refine Forest.of_root_union_eq (Relation.EqvGen.is_equivalence _) ?_ (.rel _ _ (Or.inr rfl))
    exact fun k l hkl => ((h k l).mp hkl).mono fun _ _ => Or.inl
  · intro hab
    induction hab with
    | rel a b hab =>
      rcases hab with hab | hab
      · exact Forest.root_union_eq ((h a b).mpr (.rel _ _ hab)) i j
      · cases hab
        exact f.root_union_self i j
    | refl => rfl
    | symm _ _ _ ih => exact ih.symm
    | trans _ _ _ _ _ ih ih' => exact ih.trans ih'

/-- Two different positions of which the first mentions the second. -/
def Speaks (targets : Store) (roots : List Handle) (i j : Fin roots.length) : Prop :=
  i ≠ j ∧ Mentions targets (roots.get i) (roots.get j)

theorem link_eq_ok {targets : Store} {roots : List Handle} {f g : Forest roots.length}
    {p : Fin roots.length × Fin roots.length} (h : link targets roots f p = .ok g) :
    Speaks targets roots p.1 p.2 ∧ g = (Forest.union p.1 p.2 f).2 ∨ ¬ Speaks targets roots p.1 p.2 ∧ g = f := by
  unfold link at h
  split at h
  next heq => exact Or.inr ⟨fun hs => hs.1 heq, (pure_eq_ok.mp h).symm⟩
  next hne =>
    obtain ⟨v, hv, h⟩ := bind_eq_ok.mp h
    have hiff := mentions_iff hv
    cases v with
    | true => exact Or.inl ⟨⟨hne, hiff.mp rfl⟩, (pure_eq_ok.mp h).symm⟩
    | false => exact Or.inr ⟨fun hs => Bool.false_ne_true (hiff.mpr hs.2), (pure_eq_ok.mp h).symm⟩

theorem Connects.foldlM_link {targets : Store} {roots : List Handle} {r : Fin roots.length → Fin roots.length → Prop}
    {f g : Forest roots.length} {l : List (Fin roots.length × Fin roots.length)} (h : Connects r f)
    (hg : l.foldlM (link targets roots) f = .ok g) :
    Connects (fun a b => r a b ∨ (a, b) ∈ l ∧ Speaks targets roots a b) g := by
  induction l generalizing r f with
  | nil =>
    cases hg
    simpa using h
  | cons p l ih =>
    rw [List.foldlM_cons] at hg
    obtain ⟨e, he, hrest⟩ := bind_eq_ok.mp hg
    -- One link more is taken into the relation if the pair is one, and the rest as before.
    rcases link_eq_ok he with ⟨hs, rfl⟩ | ⟨hs, rfl⟩
    · have hrel : (fun a b => r a b ∨ (a, b) ∈ p :: l ∧ Speaks targets roots a b) =
          fun a b => (r a b ∨ (a, b) = (p.1, p.2)) ∨ (a, b) ∈ l ∧ Speaks targets roots a b := by
        funext a b
        simp only [List.mem_cons, Prod.ext_iff, eq_iff_iff]
        constructor
        · rintro (h | ⟨h | h, hs⟩)
          · exact Or.inl (Or.inl h)
          · exact Or.inl (Or.inr h)
          · exact Or.inr ⟨h, hs⟩
        · rintro ((h | ⟨rfl, rfl⟩) | h)
          · exact Or.inl h
          · exact Or.inr ⟨Or.inl ⟨rfl, rfl⟩, hs⟩
          · exact Or.inr ⟨Or.inr h.1, h.2⟩
      rw [hrel]
      exact ih (h.union p.1 p.2) hrest
    · have hrel : (fun a b => r a b ∨ (a, b) ∈ p :: l ∧ Speaks targets roots a b) =
          fun a b => r a b ∨ (a, b) ∈ l ∧ Speaks targets roots a b := by
        funext a b
        simp only [List.mem_cons, Prod.ext_iff, eq_iff_iff]
        refine or_congr_right ⟨?_, fun h => ⟨Or.inr h.1, h.2⟩⟩
        rintro ⟨⟨rfl, rfl⟩ | h, hs'⟩
        · exact absurd hs' hs
        · exact ⟨h, hs'⟩
      rw [hrel]
      exact ih h hrest

/-- After all links, two positions are in one class exactly if they are connected. -/
theorem connects_linkAll {targets : Store} {roots : List Handle} {f : Forest roots.length}
    (h : linkAll targets roots = .ok f) : Connects (Speaks targets roots) f := by
  have hall : ∀ a b, (a, b) ∈ pairs roots.length := by simp [pairs]
  simpa [hall] using (connects_discrete roots.length).foldlM_link h

/-! ### Clusters by leader -/

/-- The positions of a list that are under a root. -/
def under {n : Nat} (f : Forest n) (is : List (Fin n)) (l : Fin n) : List Nat :=
  (is.filter fun i => f.root i = l).map Fin.val

theorem file_of_notMem {l i : Nat} {cs : List (Nat × List Nat)} (h : ∀ c ∈ cs, c.1 ≠ l) :
    file l i cs = cs ++ [(l, [i])] := by
  induction cs with
  | nil => rfl
  | cons c cs ih =>
    rw [file, if_neg (h c List.mem_cons_self), ih fun d hd => h d (List.mem_cons_of_mem _ hd), List.cons_append]

theorem file_map_of_mem {n : Nat} {ls : List (Fin n)} (hn : ls.Nodup) {l : Fin n} (h : l ∈ ls) (g : Fin n → List Nat)
    (i : Nat) : file l i (ls.map fun k => (k.val, g k)) =
      ls.map fun k => (k.val, if k = l then g k ++ [i] else g k) := by
  induction ls with
  | nil => cases h
  | cons k ls ih =>
    obtain ⟨hk, hn⟩ := List.nodup_cons.mp hn
    rw [List.map_cons, List.map_cons, file]
    by_cases hkl : k = l
    · subst hkl
      rw [if_pos rfl, if_pos rfl]
      congr 1
      refine List.map_congr_left fun m hm => ?_
      rw [if_neg (show m ≠ k from fun e => hk (e ▸ hm))]
    · rw [if_neg fun e => hkl (Fin.ext e), if_neg hkl, ih hn ((List.mem_cons.mp h).resolve_left (Ne.symm hkl))]

theorem under_append_singleton {n : Nat} (f : Forest n) (is : List (Fin n)) (k l : Fin n) :
    under f (is ++ [k]) l = if l = f.root k then under f is l ++ [k.val] else under f is l := by
  rw [under, List.filter_append, List.map_append]
  by_cases hl : f.root k = l
  · simp [under, hl]
  · simp [under, hl, Ne.symm hl]

/-- Filing positions in increasing order makes one cluster for each root among them. -/
theorem foldl_file {n : Nat} (f : Forest n) {is : List (Fin n)} (hlt : is.Pairwise (· < ·))
    (hroot : ∀ i ∈ is, f.root i ∈ is) : is.foldl (fun cs i => file (f.root i) i cs) [] =
      (is.filter fun i => f.root i = i).map fun l => (l.val, under f is l) := by
  induction is using List.reverseRecOn with
  | nil => rfl
  | append_singleton is k ih =>
    rw [List.pairwise_append] at hlt
    obtain ⟨hlt, -, hbefore⟩ := hlt
    have hk : ∀ i ∈ is, i < k := fun i hi => hbefore i hi k List.mem_cons_self
    -- The root of a position stands at or before it, so it is not `k`.
    have hne : ∀ i ∈ is, f.root i ≠ k := fun i hi => ne_of_lt (lt_of_le_of_lt (f.root_le i) (hk i hi))
    have hroot' : ∀ i ∈ is, f.root i ∈ is := by
      intro i hi
      rcases List.mem_append.mp (hroot i (List.mem_append_left _ hi)) with h | h
      · exact h
      · exact absurd (List.mem_singleton.mp h) (hne i hi)
    rw [List.foldl_append, ih hlt hroot', List.foldl_cons, List.foldl_nil, List.filter_append]
    simp only [under_append_singleton]
    by_cases hself : f.root k = k
    · have hnew : ∀ c ∈ (is.filter fun i => f.root i = i).map fun l => (l.val, under f is l), c.1 ≠ (f.root k).val := by
        intro c hc heq
        obtain ⟨l, hl, rfl⟩ := List.mem_map.mp hc
        have hlk := hk l (List.mem_filter.mp hl).1
        rw [hself] at heq
        exact absurd (Fin.ext heq) (ne_of_lt hlk)
      have hnone : under f is k = [] := by
        rw [under, List.map_eq_nil_iff, List.filter_eq_nil_iff]
        intro i hi
        simpa using hne i hi
      rw [file_of_notMem hnew, List.map_append]
      congr 1
      · refine List.map_congr_left fun l hl => ?_
        rw [hself, if_neg (ne_of_lt (hk l (List.mem_filter.mp hl).1))]
      · simp [hself, hnone]
    · have hmem : f.root k ∈ is.filter fun i => f.root i = i := by
        refine List.mem_filter.mpr ⟨?_, decide_eq_true (f.root_root k)⟩
        rcases List.mem_append.mp (hroot k (List.mem_append_right _ List.mem_cons_self)) with h | h
        · exact h
        · exact absurd (List.mem_singleton.mp h) hself
      have hnodup : (is.filter fun i => f.root i = i).Nodup := (hlt.imp ne_of_lt).filter _
      rw [file_map_of_mem hnodup hmem]
      simp [hself]

theorem gather_eq {n : Nat} (f : Forest n) : gather f = f.roots.map (under f (List.finRange n)) := by
  have hasks : Forest.Asks (fileAll (List.finRange n)) fun root =>
      (List.finRange n).foldl (fun cs i => file (root i) i cs) [] :=
    Forest.Asks.foldlM (fun cs i => (Forest.Asks.find i).bind fun _ => .pure _) _ _
  have hfiled := foldl_file f (List.pairwise_lt_finRange n) fun i _ => List.mem_finRange _
  rw [gather, (hasks f).1]
  dsimp only
  rw [hfiled, List.map_map]
  rfl

@[simp] theorem mem_under {n : Nat} {f : Forest n} {l : Fin n} {i : Nat} :
    i ∈ under f (List.finRange n) l ↔ ∃ h : i < n, f.root ⟨i, h⟩ = l := by
  simp only [under, List.mem_map, List.mem_filter, List.mem_finRange, true_and, decide_eq_true_eq]
  constructor
  · rintro ⟨k, hk, rfl⟩
    exact ⟨k.isLt, hk⟩
  · rintro ⟨h, hl⟩
    exact ⟨⟨i, h⟩, hl, rfl⟩

/-- Clusters of the positions below `n`: lists in order, of which each position is in one, by their first
positions. -/
structure Partitions (n : Nat) (cs : List (List Nat)) : Prop where
  nonempty : ∀ c ∈ cs, c ≠ []
  sorted : ∀ c ∈ cs, c.Pairwise (· < ·)
  disjoint : cs.Pairwise List.Disjoint
  covers : cs.flatten.Perm (List.range n)
  ordered : cs.Pairwise fun c d => ∀ x ∈ c.head?, ∀ y ∈ d.head?, x < y

theorem pairwise_under {n : Nat} (f : Forest n) (l : Fin n) : (under f (List.finRange n) l).Pairwise (· < ·) :=
  List.pairwise_map.mpr ((List.pairwise_lt_finRange n).filter _)

theorem mem_under_self {n : Nat} {f : Forest n} {l : Fin n} (h : f.root l = l) :
    l.val ∈ under f (List.finRange n) l :=
  mem_under.mpr ⟨l.isLt, h⟩

/-- A cluster begins with its leader. -/
theorem head?_under {n : Nat} {f : Forest n} {l : Fin n} (h : f.root l = l) :
    (under f (List.finRange n) l).head? = some l.val := by
  have hself := mem_under_self h
  have hsorted := pairwise_under f l
  have hle : ∀ i ∈ under f (List.finRange n) l, l.val ≤ i := by
    intro i hi
    obtain ⟨hin, rfl⟩ := mem_under.mp hi
    exact f.root_le ⟨i, hin⟩
  cases hu : under f (List.finRange n) l with
  | nil =>
    rw [hu] at hself
    cases hself
  | cons x xs =>
    rw [hu] at hself hsorted hle
    have hx := hle x List.mem_cons_self
    rcases List.mem_cons.mp hself with heq | hmem
    · rw [heq, List.head?_cons]
    · have hlt := (List.pairwise_cons.mp hsorted).1 _ hmem
      omega

theorem mem_roots {n : Nat} {f : Forest n} {l : Fin n} : l ∈ f.roots ↔ f.root l = l := by
  simp [Forest.roots]

theorem partitions_gather {n : Nat} (f : Forest n) : Partitions n (gather f) := by
  have hroots : f.roots.Pairwise (· < ·) := (List.pairwise_lt_finRange n).filter _
  have hdisjoint : (f.roots.map (under f (List.finRange n))).Pairwise List.Disjoint := by
    rw [List.pairwise_map]
    refine hroots.imp ?_
    intro l k hlk x hx hy
    obtain ⟨hn, hl⟩ := mem_under.mp hx
    obtain ⟨_, hk⟩ := mem_under.mp hy
    exact absurd (hl.symm.trans hk) (ne_of_lt hlk)
  rw [gather_eq]
  refine ⟨?_, ?_, hdisjoint, ?_, ?_⟩
  · intro c hc
    obtain ⟨l, hl, rfl⟩ := List.mem_map.mp hc
    exact List.ne_nil_of_mem (mem_under_self (mem_roots.mp hl))
  · intro c hc
    obtain ⟨l, -, rfl⟩ := List.mem_map.mp hc
    exact pairwise_under f l
  · have hnodup : (f.roots.map (under f (List.finRange n))).flatten.Nodup := by
      refine List.nodup_flatten.mpr ⟨?_, hdisjoint⟩
      intro c hc
      obtain ⟨l, -, rfl⟩ := List.mem_map.mp hc
      exact (pairwise_under f l).imp Nat.ne_of_lt
    rw [List.perm_ext_iff_of_nodup hnodup List.nodup_range]
    intro i
    simp only [List.mem_flatten, List.mem_map, exists_exists_and_eq_and, mem_under, mem_roots, List.mem_range]
    constructor
    · rintro ⟨_, _, hi, _⟩
      exact hi
    · exact fun hi => ⟨f.root ⟨i, hi⟩, f.root_root _, hi, rfl⟩
  · rw [List.pairwise_map]
    refine hroots.imp_of_mem ?_
    intro l k hl hk hlk x hx y hy
    rw [head?_under (mem_roots.mp hl)] at hx
    rw [head?_under (mem_roots.mp hk)] at hy
    cases hx
    cases hy
    exact hlk

theorem exists_gather_iff {n : Nat} (f : Forest n) {i j : Fin n} :
    (∃ c ∈ gather f, i.val ∈ c ∧ j.val ∈ c) ↔ f.root i = f.root j := by
  rw [gather_eq]
  simp only [List.mem_map, exists_exists_and_eq_and, mem_under, mem_roots]
  constructor
  · rintro ⟨l, -, ⟨_, hi⟩, ⟨_, hj⟩⟩
    exact hi.trans hj.symm
  · exact fun hij => ⟨f.root i, f.root_root i, ⟨i.isLt, rfl⟩, ⟨j.isLt, hij.symm⟩⟩

/-! ### The clusters of roots -/

/-- Links found in one direction connect what links in either direction connect. -/
theorem eqvGen_speaks_iff {targets : Store} {roots : List Handle} {i j : Fin roots.length} :
    Relation.EqvGen (Speaks targets roots) i j ↔ Relation.ReflTransGen (Linked targets roots) i j := by
  have hget : ∀ {k : Nat} {a : Handle}, roots[k]? = some a → ∃ h : k < roots.length, roots.get ⟨k, h⟩ = a :=
    fun h => List.getElem?_eq_some_iff.mp h
  constructor
  · intro h
    induction h with
    | rel k l h => exact .single ⟨_, _, List.getElem?_eq_getElem k.isLt, List.getElem?_eq_getElem l.isLt, Or.inl h.2⟩
    | refl => exact .refl
    | symm k l _ ih => exact Std.Symm.symm _ _ ih
    | trans _ _ _ _ _ ih ih' => exact ih.trans ih'
  · -- The positions on the way are positions of roots, since something is linked there.
    suffices hall : ∀ l, Relation.ReflTransGen (Linked targets roots) i l → ∀ h : l < roots.length,
        Relation.EqvGen (Speaks targets roots) i ⟨l, h⟩ from fun h => hall j h j.isLt
    intro l h
    induction h with
    | refl => exact fun _ => .refl i
    | @tail k l _ hkl ih =>
      intro hl
      obtain ⟨a, b, ha, hb, hm⟩ := hkl
      obtain ⟨hk, rfl⟩ := hget ha
      obtain ⟨_, rfl⟩ := hget hb
      refine (ih hk).trans _ _ _ ?_
      by_cases hne : (⟨k, hk⟩ : Fin roots.length) = ⟨l, hl⟩
      · exact hne ▸ .refl _
      · rcases hm with hm | hm
        · exact .rel _ _ ⟨hne, hm⟩
        · exact .symm _ _ (.rel _ _ ⟨Ne.symm hne, hm⟩)

/-- Each position is in one cluster, and two positions are in the same one exactly if they are connected. -/
theorem partition_spec {targets : Store} {roots : List Handle} {cs : List (List Nat)}
    (h : partition targets roots = .ok cs) :
    Partitions roots.length cs ∧ ∀ {i j : Nat}, i < roots.length → j < roots.length →
      ((∃ c ∈ cs, i ∈ c ∧ j ∈ c) ↔ Relation.ReflTransGen (Linked targets roots) i j) := by
  obtain ⟨f, hf, hcs⟩ := bind_eq_ok.mp h
  cases hcs
  refine ⟨partitions_gather f, ?_⟩
  intro i j hi hj
  rw [exists_gather_iff f (i := ⟨i, hi⟩) (j := ⟨j, hj⟩), connects_linkAll hf, eqvGen_speaks_iff]

theorem Partitions.lt {n : Nat} {cs : List (List Nat)} (h : Partitions n cs) {c : List Nat} (hc : c ∈ cs) {i : Nat}
    (hi : i ∈ c) : i < n :=
  List.mem_range.mp (h.covers.mem_iff.mp (List.mem_flatten.mpr ⟨c, hc, hi⟩))

theorem Partitions.nodup {n : Nat} {cs : List (List Nat)} (h : Partitions n cs) {c : List Nat} (hc : c ∈ cs) :
    c.Nodup :=
  (h.sorted c hc).imp Nat.ne_of_lt

/-- The roots at some positions. -/
def rootsAt (roots : List Handle) (c : List Nat) : List Handle := c.filterMap fun i => roots[i]?

section RootsAt

variable {roots : List Handle} {cluster : List Nat} (hc : ∀ i ∈ cluster, i < roots.length)

include hc

theorem length_rootsAt : (rootsAt roots cluster).length = cluster.length :=
  length_filterMap_of_isSome fun i hi => by simpa using hc i hi

theorem getElem?_rootsAt {p i : Nat} (hp : cluster[p]? = some i) : (rootsAt roots cluster)[p]? = roots[i]? := by
  rw [rootsAt, getElem?_filterMap_of_isSome fun i hi => by simpa using hc i hi, hp]
  rfl

end RootsAt

theorem rootsAt_subset (roots : List Handle) (c : List Nat) : rootsAt roots c ⊆ roots := by
  intro a ha
  obtain ⟨i, -, hi⟩ := List.mem_filterMap.mp ha
  exact List.mem_of_getElem? hi

theorem rootsAt_range (roots : List Handle) : rootsAt roots (List.range roots.length) = roots := by
  have hrange : ∀ i ∈ List.range roots.length, i < roots.length := fun i hi => List.mem_range.mp hi
  refine List.ext_getElem? fun p => ?_
  by_cases hp : p < roots.length
  · exact getElem?_rootsAt hrange (List.getElem?_range hp)
  · have hlen : (rootsAt roots (List.range roots.length)).length = roots.length := by
      rw [length_rootsAt hrange, List.length_range]
    rw [List.getElem?_eq_none (by omega), List.getElem?_eq_none (by omega)]

/-- A position without links to others is a cluster of its own. -/
theorem eq_singleton_of_not_linked {targets : Store} {roots : List Handle} {cs : List (List Nat)}
    (h : partition targets roots = .ok cs) {i : Nat} (hfree : ∀ j, j ≠ i → ¬ Linked targets roots i j) {c : List Nat}
    (hc : c ∈ cs) (hi : i ∈ c) : c = [i] := by
  obtain ⟨hparts, hsame⟩ := partition_spec h
  -- No link leads away from the position, so no chain of links does.
  have halone : ∀ j, Relation.ReflTransGen (Linked targets roots) i j → j = i := by
    intro j hij
    induction hij with
    | refl => rfl
    | tail _ hlink ih =>
      rw [ih] at hlink
      by_contra hne
      exact hfree _ hne hlink
  have hall : ∀ j ∈ c, j = i := fun j hj =>
    halone j ((hsame (hparts.lt hc hi) (hparts.lt hc hj)).mp ⟨c, hc, hi, hj⟩)
  have hnodup : c.Nodup := (hparts.sorted c hc).imp Nat.ne_of_lt
  obtain ⟨n, rfl⟩ : ∃ n, c = List.replicate n i := ⟨c.length, List.eq_replicate_iff.mpr ⟨rfl, hall⟩⟩
  have hone : n ≤ 1 := List.nodup_replicate.mp hnodup
  have hpos : n ≠ 0 := (List.mem_replicate.mp hi).1
  rw [show n = 1 by omega, List.replicate_one]

/-- The clusters are found without fault. Each position is in one cluster, and two positions are in the same one
exactly if a chain of links leads from one to the other. -/
theorem partition_components {targets : Store} {roots : List Handle} (hbuilt : ∀ h ∈ roots, (targets.get? h).isSome)
    (hends : ∀ h ∈ roots, ∀ t k, targets.get? h = some (.sameAs t k) → ∃ r, targets.deref k = .ok r) :
    ∃ cs, partition targets roots = .ok cs ∧ Partitions roots.length cs ∧
      ∀ i j, i < roots.length → j < roots.length →
        ((∃ c ∈ cs, i ∈ c ∧ j ∈ c) ↔ Relation.ReflTransGen (Linked targets roots) i j) := by
  obtain ⟨cs, hcs⟩ := exists_partition hbuilt hends
  obtain ⟨hparts, hsame⟩ := partition_spec hcs
  exact ⟨cs, hcs, hparts, fun i j => hsame⟩

/-- Two nodes before a third one, a node by itself, and an alias of an alias of that node. -/
def ringed : Store :=
  let node : Ty := .object "Node"
  let next (x : String) : Term := .field (.param x node) ⟨"Node", "next", node⟩
  .ofSlots [some (.object (.param "a" node) (.ofList [.eq (next "a") (.param "b" node)])),
    some (.object (.param "b" node) {}), some (.object (.param "c" node) {}),
    some (.object (.param "d" node) (.ofList [.eq (next "d") (.param "b" node)])),
    some (.sameAs (.param "e" node) ⟨5⟩), some (.sameAs (.param "f" node) ⟨2⟩)]

theorem partition_components_ringed :
    (∀ h ∈ [⟨0⟩, ⟨2⟩, ⟨1⟩, ⟨3⟩, ⟨4⟩], (ringed.get? h).isSome) ∧
      ∃ cs, partition ringed [⟨0⟩, ⟨2⟩, ⟨1⟩, ⟨3⟩, ⟨4⟩] = .ok cs ∧ cs = [[0, 2, 3], [1, 4]] ∧ Partitions 5 cs ∧
        ∀ i j, i < 5 → j < 5 → ((∃ c ∈ cs, i ∈ c ∧ j ∈ c) ↔
          Relation.ReflTransGen (Linked ringed [⟨0⟩, ⟨2⟩, ⟨1⟩, ⟨3⟩, ⟨4⟩]) i j) := by
  have hbuilt : ∀ h ∈ [⟨0⟩, ⟨2⟩, ⟨1⟩, ⟨3⟩, ⟨4⟩], (ringed.get? h).isSome := by decide
  have hends : ∀ h ∈ [⟨0⟩, ⟨2⟩, ⟨1⟩, ⟨3⟩, ⟨4⟩], ∀ t k, ringed.get? h = some (.sameAs t k) →
      ∃ r, ringed.deref k = .ok r := by
    intro h hh t k hk
    simp only [List.mem_cons, List.not_mem_nil, or_false] at hh
    rcases hh with rfl | rfl | rfl | rfl | rfl
    · cases hk
    · cases hk
    · cases hk
    · cases hk
    · cases hk
      exact ⟨⟨2⟩, by decide⟩
  have hcs : partition ringed [⟨0⟩, ⟨2⟩, ⟨1⟩, ⟨3⟩, ⟨4⟩] = .ok [[0, 2, 3], [1, 4]] := by decide +kernel
  obtain ⟨cs, hpart, hrest⟩ := partition_components hbuilt hends
  rw [hcs] at hpart
  cases hpart
  exact ⟨hbuilt, _, hcs, rfl, hrest⟩

end Symex.Cluster
