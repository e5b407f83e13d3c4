import Mathlib.Data.Set.Card
import Mathlib.Data.Set.Finite.List
import Mathlib.Logic.Relation
import Symex.Explore.Walker
import Symex.Solver.Basic

/-!
# Routes through a graph

A route is the list of branches that are taken from the entry of a graph. It says where a walk stands, which links it
took and what it has assumed; nothing of that depends on when the walk was made. A route is viable if none of its
beginnings was refuted at a link with guards.

A survey splits routes into those that were visited, those that were dropped and those that are still to be looked at.
When nothing is left to be looked at, exactly the viable routes have been visited.
-/

namespace Symex

namespace Graph

/-- Where a list of branches leads from a location. -/
def follow (g : Graph) : Nat → List Nat → Option Nat
  | l, [] => some l
  | l, b :: r => (g.successors l)[b]?.bind fun t => g.follow t r

/-- The links along a list of branches. -/
def linksAlong (g : Graph) : Nat → List Nat → List Edge
  | _, [] => []
  | l, b :: r => match (g.successors l)[b]? with
    | some t => ⟨l, t⟩ :: g.linksAlong t r
    | none => []

/-- Whether there is a link between two locations. -/
def Linked (g : Graph) (l m : Nat) : Prop := ⟨l, m⟩ ∈ g.links

/-- No location that is reached from `l` is on a cycle. -/
def AcyclicFrom (g : Graph) (l : Nat) : Prop :=
  ∀ m, Relation.ReflTransGen g.Linked l m → ¬ Relation.TransGen g.Linked m m

variable {g : Graph}

theorem follow_append (g : Graph) (l : Nat) (q r : List Nat) :
    g.follow l (q ++ r) = (g.follow l q).bind fun m => g.follow m r := by
  induction q generalizing l with
  | nil => rfl
  | cons b q ih =>
    rw [List.cons_append, follow, follow, Option.bind_assoc]
    exact congrArg _ (funext fun t => ih t)

theorem follow_snoc (g : Graph) (l : Nat) (q : List Nat) (b : Nat) :
    g.follow l (q ++ [b]) = (g.follow l q).bind fun m => (g.successors m)[b]? := by
  rw [follow_append]
  refine congrArg _ (funext fun m => ?_)
  cases h : (g.successors m)[b]? with
  | none => simp [follow, h]
  | some t => simp [follow, h]

theorem linksAlong_snoc {l m t : Nat} {q : List Nat} {b : Nat} (hq : g.follow l q = some m)
    (ht : (g.successors m)[b]? = some t) : g.linksAlong l (q ++ [b]) = g.linksAlong l q ++ [⟨m, t⟩] := by
  induction q generalizing l with
  | nil =>
    cases hq
    simp [linksAlong, ht]
  | cons c q ih =>
    obtain ⟨u, hu, hq'⟩ := Option.bind_eq_some_iff.mp hq
    rw [List.cons_append, linksAlong, linksAlong, hu]
    exact congrArg _ (ih hq')

theorem length_linksAlong {l : Nat} {r : List Nat} (h : (g.follow l r).isSome) :
    (g.linksAlong l r).length = r.length := by
  induction r generalizing l with
  | nil => rfl
  | cons b r ih =>
    rw [follow] at h
    cases ht : (g.successors l)[b]? with
    | none => simp [ht] at h
    | some t =>
      rw [ht] at h
      simp only [linksAlong, ht, List.length_cons, ih h]

theorem acyclicFrom_of_ascending (h : ∀ e ∈ g.links, e.source < e.target) (l : Nat) : g.AcyclicFrom l := by
  intro m _ hm
  have hlt : Relation.TransGen (· < ·) m m := Relation.TransGen.mono (fun a b hab => h _ hab) _ _ hm
  rw [Relation.transGen_eq_self] at hlt
  exact Nat.lt_irrefl m hlt

/-! ### There are only so many routes -/

theorem transGen_of_mem_linksAlong {l : Nat} {r : List Nat} {e : Edge} (h : e ∈ g.linksAlong l r) :
    Relation.TransGen g.Linked l e.target := by
  induction r generalizing l with
  | nil => cases h
  | cons b r ih =>
    rw [linksAlong] at h
    split at h
    next t ht =>
      have hlink : g.Linked l t := mem_successors.mp (List.mem_of_getElem? ht)
      rcases List.mem_cons.mp h with rfl | h
      · exact .single hlink
      · exact .head hlink (ih h)
    next => cases h

theorem linksAlong_subset (g : Graph) (l : Nat) (r : List Nat) : g.linksAlong l r ⊆ g.links := by
  induction r generalizing l with
  | nil => exact List.nil_subset _
  | cons b r ih =>
    rw [linksAlong]
    split
    next t ht => exact List.cons_subset.mpr ⟨mem_successors.mp (List.mem_of_getElem? ht), ih t⟩
    next => exact List.nil_subset _

/-- Every location on the way leads on to the later ones. -/
theorem pairwise_linksAlong (g : Graph) (l : Nat) (r : List Nat) :
    (g.linksAlong l r).Pairwise fun d e => Relation.TransGen g.Linked d.target e.target := by
  induction r generalizing l with
  | nil => exact .nil
  | cons b r ih =>
    rw [linksAlong]
    split
    next t ht => exact .cons (fun e he => transGen_of_mem_linksAlong he) (ih t)
    next => exact .nil

theorem length_le_of_acyclic (hg : g.AcyclicFrom 0) {r : List Nat} (hr : (g.follow 0 r).isSome) :
    r.length ≤ g.links.length := by
  -- Without a cycle no link is taken twice.
  have hnodup : (g.linksAlong 0 r).Nodup := by
    refine (pairwise_linksAlong g 0 r).imp_of_mem ?_
    rintro d e hd he hde rfl
    exact hg _ (transGen_of_mem_linksAlong hd).to_reflTransGen hde
  rw [← length_linksAlong hr]
  exact (List.subperm_of_subset hnodup (linksAlong_subset g 0 r)).length_le

theorem branch_lt {l : Nat} {r : List Nat} (h : (g.follow l r).isSome) : ∀ b ∈ r, b < g.links.length := by
  induction r generalizing l with
  | nil => nofun
  | cons c r ih =>
    obtain ⟨m, hm⟩ := Option.isSome_iff_exists.mp h
    obtain ⟨t, ht, hr⟩ := Option.bind_eq_some_iff.mp hm
    intro b hb
    rcases List.mem_cons.mp hb with rfl | hb
    · have hlt := (List.getElem?_eq_some_iff.mp ht).1
      have hle : (g.successors l).length ≤ g.links.length := by
        rw [successors, List.length_map]
        exact List.length_filter_le _ _
      omega
    · exact ih (Option.isSome_iff_exists.mpr ⟨m, hr⟩) b hb

theorem finite_routes (hg : g.AcyclicFrom 0) : {r : List Nat | (g.follow 0 r).isSome}.Finite := by
  refine ((List.finite_length_le (Fin g.links.length) g.links.length).image (List.map Fin.val)).subset ?_
  intro r hr
  refine ⟨r.pmap Fin.mk (branch_lt hr), ?_, ?_⟩
  · show (r.pmap Fin.mk (branch_lt hr)).length ≤ g.links.length
    rw [List.length_pmap]
    exact length_le_of_acyclic hg hr
  · rw [List.map_pmap]
    simp

end Graph

namespace Walker

variable (w : Walker) (limit : Nat)

/-- What is assumed along a route, each atom once. -/
def facts (r : List Nat) : List Atom := ((w.graph.linksAlong 0 r).flatMap w.guardsOf).foldl Path.addTo []

/-- What was assumed on the last link of a route. -/
def gained (r : List Nat) : List Atom := ((w.graph.linksAlong 0 r).getLast?.map w.guardsOf).getD []

/-- Atoms were gained on the last link, and the solver finds no assignment for what is assumed. -/
def Refuted (r : List Nat) : Prop := w.gained r ≠ [] ∧ Solver.feasible limit { hard := w.facts r } = false

/-- A path from the entry, of which no beginning is refuted. -/
def Viable (r : List Nat) : Prop := (w.graph.follow 0 r).isSome ∧ ∀ q, q <+: r → ¬ w.Refuted limit q

/-- A path from the entry that is refuted at its end and not before. -/
def Discarded (r : List Nat) : Prop :=
  (w.graph.follow 0 r).isSome ∧ w.Refuted limit r ∧ ∀ q, q <+: r → q ≠ r → ¬ w.Refuted limit q

/-- The number of branches at the end of a route. -/
def degree (r : List Nat) : Nat := ((w.graph.follow 0 r).map fun l => (w.graph.successors l).length).getD 0

variable {w limit} {q r : List Nat} {b : Nat}

theorem facts_snoc {l t : Nat} (hq : w.graph.follow 0 q = some l) (ht : (w.graph.successors l)[b]? = some t) :
    w.facts (q ++ [b]) = (w.guardsOf ⟨l, t⟩).foldl Path.addTo (w.facts q) := by
  rw [facts, Graph.linksAlong_snoc hq ht, List.flatMap_append, List.foldl_append]
  simp [facts]

theorem gained_snoc {l t : Nat} (hq : w.graph.follow 0 q = some l) (ht : (w.graph.successors l)[b]? = some t) :
    w.gained (q ++ [b]) = w.guardsOf ⟨l, t⟩ := by
  simp [gained, Graph.linksAlong_snoc hq ht]

theorem not_refuted_nil : ¬ w.Refuted limit [] := fun h => h.1 rfl

/-! ### Viable routes -/

theorem isSome_of_snoc (h : (w.graph.follow 0 (q ++ [b])).isSome) : (w.graph.follow 0 q).isSome := by
  rw [Graph.follow_snoc] at h
  cases hq : w.graph.follow 0 q with
  | none => simp [hq] at h
  | some l => rfl

theorem viable_nil : w.Viable limit [] := by
  refine ⟨rfl, ?_⟩
  intro q hq
  rw [List.prefix_nil.mp hq]
  exact not_refuted_nil

theorem viable_snoc : w.Viable limit (q ++ [b]) ↔
    w.Viable limit q ∧ (w.graph.follow 0 (q ++ [b])).isSome ∧ ¬ w.Refuted limit (q ++ [b]) := by
  constructor
  · rintro ⟨hsome, hall⟩
    refine ⟨⟨isSome_of_snoc hsome, ?_⟩, hsome, hall _ (List.prefix_refl _)⟩
    intro p hp
    exact hall p (hp.trans (List.prefix_append q [b]))
  · rintro ⟨hq, hsome, hlast⟩
    refine ⟨hsome, ?_⟩
    intro p hp
    rcases List.prefix_concat_iff.mp hp with rfl | hp
    · exact hlast
    · exact hq.2 p hp

theorem discarded_snoc : w.Discarded limit (q ++ [b]) ↔
    w.Viable limit q ∧ (w.graph.follow 0 (q ++ [b])).isSome ∧ w.Refuted limit (q ++ [b]) := by
  constructor
  · rintro ⟨hsome, hlast, hall⟩
    refine ⟨⟨isSome_of_snoc hsome, ?_⟩, hsome, hlast⟩
    intro p hp
    refine hall p (hp.trans (List.prefix_append q [b])) ?_
    rintro rfl
    have hlen := hp.length_le
    simp at hlen
  · rintro ⟨hq, hsome, hlast⟩
    refine ⟨hsome, hlast, ?_⟩
    intro p hp hne
    rcases List.prefix_concat_iff.mp hp with he | hp
    · exact absurd he hne
    · exact hq.2 p hp

/-! ### Surveys -/

variable (w limit) in
/-- Routes that were visited, routes that were dropped, and routes that are still to be looked at: with a route that
was visited come all that go one branch further, and nothing else but the empty route. -/
structure Survey (visited dropped left : List (List Nat)) : Prop where
  leads : ∀ r ∈ visited ++ dropped ++ left, (w.graph.follow 0 r).isSome
  kept : ∀ r ∈ visited, ¬ w.Refuted limit r
  refuted : ∀ r ∈ dropped, w.Refuted limit r
  distinct : (visited ++ dropped ++ left).Nodup
  root : [] ∈ visited ++ dropped ++ left
  parent : ∀ {q : List Nat} {b : Nat}, q ++ [b] ∈ visited ++ dropped ++ left → q ∈ visited
  child : ∀ {q : List Nat} {b : Nat}, q ∈ visited → (w.graph.follow 0 (q ++ [b])).isSome →
    q ++ [b] ∈ visited ++ dropped ++ left

/-- The routes that go one branch further. -/
def onward (w : Walker) (r : List Nat) : List (List Nat) := (List.range (w.degree r)).map fun b => r ++ [b]

theorem mem_onward {p : List Nat} : p ∈ w.onward r ↔ ∃ b, p = r ++ [b] ∧ (w.graph.follow 0 (r ++ [b])).isSome := by
  have hlt : ∀ b, b < w.degree r ↔ (w.graph.follow 0 (r ++ [b])).isSome := by
    intro b
    rw [Graph.follow_snoc, degree]
    cases w.graph.follow 0 r with
    | none => simp
    | some l => simp
  simp only [onward, List.mem_map, List.mem_range, hlt]
  constructor
  · rintro ⟨b, hb, rfl⟩
    exact ⟨b, rfl, hb⟩
  · rintro ⟨b, rfl, hb⟩
    exact ⟨b, hb, rfl⟩

theorem nodup_onward (w : Walker) (r : List Nat) : (w.onward r).Nodup := by
  refine List.nodup_range.map ?_
  intro a b hab
  simpa using hab

namespace Survey

variable {visited dropped left rest : List (List Nat)}

theorem start (w : Walker) (limit : Nat) : w.Survey limit [] [] [[]] := by
  refine ⟨?_, nofun, nofun, List.nodup_singleton _, List.mem_singleton_self _, ?_, nofun⟩
  · intro r hr
    rw [List.mem_singleton.mp hr]
    rfl
  · intro q b h
    simp at h

theorem drop (h : w.Survey limit visited dropped left) (hp : left.Perm (r :: rest)) (hr : w.Refuted limit r) :
    w.Survey limit visited (dropped ++ [r]) rest := by
  have hall : (visited ++ dropped ++ left).Perm (visited ++ (dropped ++ [r]) ++ rest) := by
    have := hp.append_left (visited ++ dropped)
    simpa [List.append_assoc] using this
  refine ⟨?_, h.kept, ?_, hall.nodup_iff.mp h.distinct, hall.mem_iff.mp h.root, ?_, ?_⟩
  · exact fun p hp => h.leads p (hall.mem_iff.mpr hp)
  · intro p hp
    rcases List.mem_append.mp hp with hp | hp
    · exact h.refuted p hp
    · exact List.mem_singleton.mp hp ▸ hr
  · exact fun hq => h.parent (hall.mem_iff.mpr hq)
  · exact fun hq hs => hall.mem_iff.mp (h.child hq hs)

/-- A route that is visited makes room for those that go one branch further. None of them was there before, because
the route itself had not been visited. -/
theorem enter (h : w.Survey limit visited dropped left) (hp : left.Perm (r :: rest)) (hr : ¬ w.Refuted limit r) :
    w.Survey limit (visited ++ [r]) dropped (rest ++ w.onward r) := by
  have hall : (visited ++ [r] ++ dropped ++ (rest ++ w.onward r)).Perm
      (visited ++ dropped ++ left ++ w.onward r) := by
    have h₁ : (visited ++ [r] ++ dropped ++ rest).Perm (visited ++ dropped ++ left) := by
      have h₂ : (visited ++ [r] ++ dropped ++ rest).Perm (visited ++ dropped ++ (r :: rest)) := by
        simp only [List.append_assoc, List.singleton_append]
        exact (List.perm_middle.symm).append_left visited
      exact h₂.trans (hp.symm.append_left _)
    simpa [List.append_assoc] using h₁.append_right (w.onward r)
  have hmem : r ∈ visited ++ dropped ++ left := List.mem_append_right _ (hp.mem_iff.mpr List.mem_cons_self)
  have hnew : r ∉ visited := by
    intro hv
    have hd := List.nodup_append.mp h.distinct
    exact hd.2.2 r (List.mem_append_left _ hv) r (hp.mem_iff.mpr List.mem_cons_self) rfl
  refine ⟨?_, ?_, h.refuted, hall.nodup_iff.mpr ?_, ?_, ?_, ?_⟩
  · intro p hp
    rcases List.mem_append.mp (hall.mem_iff.mp hp) with hp | hp
    · exact h.leads p hp
    · obtain ⟨b, rfl, hb⟩ := mem_onward.mp hp
      exact hb
  · intro p hp
    rcases List.mem_append.mp hp with hp | hp
    · exact h.kept p hp
    · exact List.mem_singleton.mp hp ▸ hr
  · refine List.nodup_append.mpr ⟨h.distinct, nodup_onward w r, ?_⟩
    rintro p hp _ ho rfl
    obtain ⟨b, rfl, -⟩ := mem_onward.mp ho
    exact hnew (h.parent hp)
  · exact hall.mem_iff.mpr (List.mem_append_left _ h.root)
  · intro q b hq
    rcases List.mem_append.mp (hall.mem_iff.mp hq) with hq | hq
    · exact List.mem_append_left _ (h.parent hq)
    · obtain ⟨c, hc, -⟩ := mem_onward.mp hq
      rw [(List.append_inj' hc rfl).1]
      exact List.mem_append_right _ (List.mem_singleton_self r)
  · intro q b hq hs
    refine hall.mem_iff.mpr ?_
    rcases List.mem_append.mp hq with hq | hq
    · exact List.mem_append_left _ (h.child hq hs)
    · rw [List.mem_singleton.mp hq] at hs ⊢
      exact List.mem_append_right _ (mem_onward.mpr ⟨b, rfl, hs⟩)

/-- By induction along the route: when nothing is left, a route whose parent was visited is visited or dropped. -/
theorem mem_visited_iff (h : w.Survey limit visited dropped []) : r ∈ visited ↔ w.Viable limit r := by
  have hall : visited ++ dropped ++ [] = visited ++ dropped := List.append_nil _
  induction r using List.reverseRecOn with
  | nil =>
    refine ⟨fun _ => viable_nil, fun _ => ?_⟩
    rcases List.mem_append.mp (hall ▸ h.root) with hv | hd
    · exact hv
    · exact absurd (h.refuted _ hd) not_refuted_nil
  | append_singleton q b ih =>
    refine Iff.trans ?_ (viable_snoc.trans (and_congr_left' ih.symm)).symm
    constructor
    · intro hv
      have hmem : q ++ [b] ∈ visited ++ dropped ++ [] := by
        rw [hall]
        exact List.mem_append_left _ hv
      exact ⟨h.parent hmem, h.leads _ hmem, h.kept _ hv⟩
    · rintro ⟨hq, hs, hr⟩
      rcases List.mem_append.mp (hall ▸ h.child hq hs) with hv | hd
      · exact hv
      · exact absurd (h.refuted _ hd) hr

theorem mem_dropped_iff (h : w.Survey limit visited dropped []) : r ∈ dropped ↔ w.Discarded limit r := by
  have hall : visited ++ dropped ++ [] = visited ++ dropped := List.append_nil _
  cases r using List.reverseRecOn with
  | nil => exact ⟨fun hd => absurd (h.refuted _ hd) not_refuted_nil, fun hd => absurd hd.2.1 not_refuted_nil⟩
  | append_singleton q b =>
    rw [discarded_snoc, ← h.mem_visited_iff]
    constructor
    · intro hd
      have hmem : q ++ [b] ∈ visited ++ dropped ++ [] := by
        rw [hall]
        exact List.mem_append_right _ hd
      exact ⟨h.parent hmem, h.leads _ hmem, h.refuted _ hd⟩
    · rintro ⟨hq, hs, hr⟩
      rcases List.mem_append.mp (hall ▸ h.child hq hs) with hv | hd
      · exact absurd hr (h.kept _ hv)
      · exact hd

/-- Two surveys with nothing left agree. -/
theorem visited_perm {visited' dropped' : List (List Nat)} (h : w.Survey limit visited dropped [])
    (h' : w.Survey limit visited' dropped' []) : visited.Perm visited' ∧ dropped.Perm dropped' := by
  have hd := List.nodup_append.mp (List.append_nil (visited ++ dropped) ▸ h.distinct)
  have hd' := List.nodup_append.mp (List.append_nil (visited' ++ dropped') ▸ h'.distinct)
  constructor
  · exact (List.perm_ext_iff_of_nodup hd.1 hd'.1).mpr fun r => h.mem_visited_iff.trans h'.mem_visited_iff.symm
  · exact (List.perm_ext_iff_of_nodup hd.2.1 hd'.2.1).mpr fun r => h.mem_dropped_iff.trans h'.mem_dropped_iff.symm

theorem length_le (h : w.Survey limit visited dropped left) (hw : w.graph.AcyclicFrom 0) :
    (visited ++ dropped ++ left).length ≤ {r : List Nat | (w.graph.follow 0 r).isSome}.ncard := by
  have hsub : (↑(visited ++ dropped ++ left).toFinset : Set (List Nat)) ⊆ {r | (w.graph.follow 0 r).isSome} :=
    fun r hr => h.leads r (List.mem_toFinset.mp hr)
  have hle := Set.ncard_le_ncard hsub (Graph.finite_routes hw)
  rwa [Set.ncard_coe_finset, List.toFinset_card_of_nodup h.distinct] at hle

end Survey

end Walker

end Symex
