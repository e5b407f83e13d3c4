import Mathlib.Data.List.Pairwise
import Symex.Proofs.Synthesis.Accepted
import Symex.Proofs.Synthesis.Adopted

/-!
# Clusters do not influence each other

A cluster is a component of the links among all roots, and still one if its roots are taken alone. The search for it is
the same then, and what was found is copied exactly both times, so the two results differ in their handles only. All
clusters have one deadline; as long as it does not pass, the time that others take makes no difference.
-/

namespace Symex

open Cluster (rootsAt)

/-! ### A cluster alone -/

namespace Cluster

theorem Partitions.eq_of_mem {n : Nat} {cs : List (List Nat)} (h : Partitions n cs) {c d : List Nat} (hc : c ∈ cs)
    (hd : d ∈ cs) {i : Nat} (hic : i ∈ c) (hid : i ∈ d) : c = d := by
  by_contra hne
  have : Std.Symm (List.Disjoint : List Nat → List Nat → Prop) := ⟨fun _ _ => List.Disjoint.symm⟩
  exact h.disjoint.forall hc hd hne hic hid

/-- If all positions are connected, there is one cluster. -/
theorem Partitions.eq_singleton {n : Nat} {cs : List (List Nat)} (h : Partitions n cs) (hn : 0 < n)
    (hall : ∀ i j, i < n → j < n → ∃ c ∈ cs, i ∈ c ∧ j ∈ c) : cs = [List.range n] := by
  obtain ⟨c, hc, h0, -⟩ := hall 0 0 hn hn
  have hone : ∀ d ∈ cs, d = c := by
    intro d hd
    obtain ⟨j, hj⟩ := List.exists_mem_of_ne_nil d (h.nonempty d hd)
    obtain ⟨e, he, he0, hej⟩ := hall 0 j hn (h.lt hd hj)
    exact (h.eq_of_mem hd he hj hej).trans (h.eq_of_mem he hc he0 h0)
  have hcs : cs = [c] := by
    obtain ⟨k, rfl⟩ : ∃ k, cs = List.replicate k c := ⟨cs.length, List.eq_replicate_iff.mpr ⟨rfl, hone⟩⟩
    rcases List.pairwise_replicate.mp h.disjoint with hk | hk
    · have hpos : k ≠ 0 := (List.mem_replicate.mp hc).1
      rw [show k = 1 by omega, List.replicate_one]
    · exact absurd h0 (hk h0)
  have hperm := h.covers
  rw [hcs, List.flatten_singleton] at hperm
  rw [hcs, hperm.eq_of_pairwise (fun a b _ _ hab hba => absurd hab hba.asymm) (h.sorted c hc) List.pairwise_lt_range]

variable {targets : Store} {roots : List Handle} {cs : List (List Nat)} (hpart : partition targets roots = .ok cs)
  {cluster : List Nat} (hc : cluster ∈ cs)

include hpart hc

/-- A chain of links from a position of a cluster is a chain of links among the roots of the cluster. -/
theorem exists_chain_rootsAt {p i j : Nat} (hp : cluster[p]? = some i)
    (hchain : Relation.ReflTransGen (Linked targets roots) i j) :
    ∃ q, cluster[q]? = some j ∧ Relation.ReflTransGen (Linked targets (rootsAt roots cluster)) p q := by
  obtain ⟨hparts, hsame⟩ := partition_spec hpart
  have hlt : ∀ k ∈ cluster, k < roots.length := fun k hk => hparts.lt hc hk
  induction hchain with
  | refl => exact ⟨p, hp, .refl⟩
  | @tail k l hik hkl ih =>
    obtain ⟨q, hq, hpq⟩ := ih
    obtain ⟨a, b, ha, hb, hm⟩ := hkl
    have hi := List.mem_of_getElem? hp
    have hlr : l < roots.length := (List.getElem?_eq_some_iff.mp hb).1
    obtain ⟨d, hd, hid, hld⟩ := (hsame (hlt i hi) hlr).mpr (hik.tail ⟨a, b, ha, hb, hm⟩)
    rw [hparts.eq_of_mem hd hc hid hi] at hld
    obtain ⟨q', hq'⟩ := List.mem_iff_getElem?.mp hld
    refine ⟨q', hq', hpq.tail ⟨a, b, ?_, ?_, hm⟩⟩
    · rw [getElem?_rootsAt hlt hq, ha]
    · rw [getElem?_rootsAt hlt hq', hb]

/-- The roots of a cluster are one cluster if they are taken alone. -/
theorem partition_rootsAt {cs' : List (List Nat)} (hpart' : partition targets (rootsAt roots cluster) = .ok cs') :
    cs' = [List.range cluster.length] := by
  obtain ⟨hparts, hsame⟩ := partition_spec hpart
  obtain ⟨hparts', hsame'⟩ := partition_spec hpart'
  have hlt : ∀ k ∈ cluster, k < roots.length := fun k hk => hparts.lt hc hk
  rw [length_rootsAt hlt] at hparts' hsame'
  refine hparts'.eq_singleton (List.length_pos_of_ne_nil (hparts.nonempty cluster hc)) ?_
  intro p q hp hq
  have hpi := List.getElem?_eq_getElem hp
  have hqj := List.getElem?_eq_getElem hq
  have hi := List.getElem_mem hp
  have hj := List.getElem_mem hq
  obtain ⟨q', hq', hchain⟩ := exists_chain_rootsAt hpart hc hpi
    ((hsame (hlt _ hi) (hlt _ hj)).mp ⟨cluster, hc, hi, hj⟩)
  have hqq : q = q' := (List.getElem?_inj hq (hparts.nodup hc)).mp (hqj.trans hq'.symm)
  exact (hsame' hp hq).mpr (hqq ▸ hchain)

end Cluster

/-! ### Two results for one answer -/

/-- What was adopted into an empty result is, with other handles, what was adopted into another one. -/
theorem Synthesized.Adopts.exists_renames {out : Store × List Handle} {cluster cluster' : List Nat} {base : Nat}
    {c c' : Copying} {r r' : Synthesized} (h : Adopts out cluster base c r) (h' : Adopts out cluster' 0 c' r')
    (hstore : r'.store = c'.store) (hlen : out.2.length ≤ cluster.length) :
    ∃ f, Store.Renames f r'.store r.store ∧ ∀ p i i', p < out.2.length → cluster[p]? = some i →
      cluster'[p]? = some i' → r.models[i]? = r'.models[i']?.map (Option.map f) := by
  have hroot : ∀ x ∈ out.2, (c.images.find? x).isSome := by
    intro x hx
    obtain ⟨p, hp⟩ := List.mem_iff_getElem?.mp hx
    have hlt : p < cluster.length := Nat.lt_of_lt_of_le (List.getElem?_eq_some_iff.mp hp).1 hlen
    obtain ⟨k, hk, -⟩ := h.exists_image (List.getElem?_eq_getElem hlt) hp
    rw [hk]
    rfl
  -- Both copies start from the same roots, so they reach the same handles.
  have hdom : ∀ {x : Handle}, (c'.images.find? x).isSome → (c.images.find? x).isSome := by
    intro x hx
    obtain ⟨k, hk⟩ := Option.isSome_iff_exists.mp hx
    obtain ⟨y, hy, hreach⟩ := h'.exact.reached hk
    exact h.faithful.isSome_of_reaches hreach (hroot y hy)
  obtain ⟨f, hrenames, himages⟩ := h'.faithful.exists_renames h'.exact h.faithful h.exact hdom h.store
  refine ⟨f, hstore ▸ hrenames, ?_⟩
  intro p i i' hp hi hi'
  obtain ⟨k, hk, hmodel⟩ := h.exists_image hi (List.getElem?_eq_getElem hp)
  obtain ⟨k', hk', hmodel'⟩ := h'.exists_image hi' (List.getElem?_eq_getElem hp)
  have hf := himages hk'
  rw [hk] at hf
  rw [hmodel, hmodel', Option.map_some, Option.map_some, Option.some.inj hf]

/-! ### Results by cluster -/

namespace Synthesizer

/-- The deadline of a request did not pass while it was worked on. -/
def InTime (s s' : Synthesizer) (time : Nat) : Prop := s'.verifier.clock < s.verifier.clock + time

instance (s s' : Synthesizer) (time : Nat) : Decidable (s.InTime s' time) := inferInstanceAs (Decidable (_ < _))

/-- The answer for some roots in a given time. While synthesis is suspended there is none. -/
def Answer (s : Synthesizer) (targets : Store) (roots : List Handle) (depth time : Nat)
    (answer : Option (Store × List Handle)) : Prop :=
  if s.switch.enabled then ∃ used, Finds s.workshop s.catalog targets roots depth time answer used
  else answer = none

variable {targets : Store} {roots : List Handle} {depth time : Nat}

theorem Answer.unique {s : Synthesizer} {answer answer' : Option (Store × List Handle)}
    (h : s.Answer targets roots depth time answer) (h' : s.Answer targets roots depth time answer') :
    answer = answer' := by
  unfold Answer at h h'
  split at h
  next he =>
    rw [if_pos he] at h'
    obtain ⟨used, hfinds⟩ := h
    obtain ⟨used', hfinds'⟩ := h'
    exact (hfinds.unique hfinds').1
  next he =>
    rw [if_neg he] at h'
    rw [h, h']

theorem WellPosed.exists_answer (hp : WellPosed targets roots) (s : Synthesizer) (depth time : Nat) :
    ∃ answer, s.Answer targets roots depth time answer ∧ ∀ out, answer = some out →
      Probe.Assembled roots.length out ∧
      ∃ d t u u', Draft.Sane s.catalog targets roots d ∧ s.workshop.verify d t u = .ok (some out, u') := by
  unfold Answer
  split
  · obtain ⟨answer, used, hfinds, hgood⟩ := (hp.workable s.workshop s.catalog).exists_finds depth time
    exact ⟨answer, ⟨used, hfinds⟩, hgood⟩
  · exact ⟨none, rfl, nofun⟩

theorem WellPosed.exists_partition (hp : WellPosed targets roots) : ∃ cs, Cluster.partition targets roots = .ok cs :=
  Cluster.exists_partition hp.built fun _ _ _ _ hg => hp.ends hg

section

variable (hp : WellPosed targets roots) (s : Synthesizer) (depth : Nat)

include hp

theorem WellPosed.exists_attemptedAll (he : s.switch.enabled = true) {cs : List (List Nat)}
    (hpart : Cluster.partition targets roots = .ok cs) :
    ∃ answer used, (∀ c t, Finds s.workshop s.catalog targets (rootsAt roots c) depth t (answer c t) (used c t)) ∧
      ∀ time, ∃ s' r, s.synthesizeWithin targets roots depth time = .ok (s', r) ∧
        AttemptedAll answer used time cs s s' { models := roots.map fun _ => none } r := by
  obtain ⟨hparts, -⟩ := Cluster.partition_spec hpart
  choose answer used hfinds hgood using fun c =>
    ((hp.of_subset (Cluster.rootsAt_subset roots c)).workable s.workshop s.catalog).exists_finds depth
  refine ⟨answer, used, hfinds, ?_⟩
  apply exists_synthesizeWithin_of_finds he hpart fun c _ => hfinds c
  intro c hc t out hco
  rw [← Cluster.length_rootsAt fun i hi => hparts.lt hc hi]
  exact (hgood c t out hco).1

/-- Synthesis settles every cluster by its own answer for the time that is left for it. If the deadline does not pass,
more time would not have changed the answer. -/
theorem WellPosed.exists_synthesizeWithin {cs : List (List Nat)} (hpart : Cluster.partition targets roots = .ok cs)
    (time : Nat) :
    ∃ s' r, s.synthesizeWithin targets roots depth time = .ok (s', r) ∧ ∀ c ∈ cs, ∃ left ≤ time, ∃ answer,
      (∀ t, t = left ∨ s.InTime s' time ∧ left ≤ t → s.Answer targets (rootsAt roots c) depth t answer) ∧
      r.Settles c answer := by
  by_cases he : s.switch.enabled = true
  · obtain ⟨answer, used, hfinds, hall⟩ := hp.exists_attemptedAll s depth he hpart
    obtain ⟨s', r, hsynth, h⟩ := hall time
    refine ⟨s', r, hsynth, ?_⟩
    intro c hc
    obtain ⟨⟨d, left⟩, hmem, rfl⟩ := List.mem_map.mp ((map_fst_schedule used time cs).symm ▸ hc)
    obtain ⟨hle, hleft⟩ := of_mem_schedule hmem
    refine ⟨left, hle, answer d left, ?_, h.settles _ hmem⟩
    intro t ht
    rw [Answer, if_pos he]
    rcases ht with rfl | ⟨hin, ht⟩
    · exact ⟨_, hfinds d t⟩
    · have hclock := h.clock_eq
      unfold InTime at hin
      dsimp only at hleft
      exact ⟨_, (hfinds d left).of_lt (by omega) (by omega)⟩
  · obtain ⟨hparts, -⟩ := Cluster.partition_spec hpart
    refine ⟨s, { models := roots.map fun _ => none }, ?_, fun c hc => ⟨time, Nat.le_refl _, none, ?_, ?_⟩⟩
    · unfold synthesizeWithin
      rw [if_neg he]
      rfl
    · intro t _
      rw [Answer, if_neg he]
    · exact fun i hi => Synthesized.getElem?_unmade.mpr ⟨hparts.lt hc hi, rfl⟩

/-- Where lengths are not made by calls, there is a time after which the deadline does not pass. -/
theorem WellPosed.exists_inTime (hl : targets.PrimitiveLengths) : ∃ enough, ∀ time s' r, enough ≤ time →
    s.synthesizeWithin targets roots depth time = .ok (s', r) → s.InTime s' time := by
  by_cases he : s.switch.enabled = true
  · obtain ⟨cs, hpart⟩ := hp.exists_partition
    obtain ⟨answer, used, hfinds, hall⟩ := hp.exists_attemptedAll s depth he hpart
    have hbound : ∃ b, ∀ c ∈ cs, ∀ t, used c t ≤ b := by
      refine ⟨(cs.map fun c => Draft.weight s.catalog depth { targets, roots := rootsAt roots c } *
        (s.workshop.allowance + 1)).sum, ?_⟩
      intro c hc t
      have hready := (hp.of_subset (Cluster.rootsAt_subset roots c)).ready
      exact ((hfinds c t).used_le_weight hp.acyclic hl hready).trans (List.le_sum_of_mem (List.mem_map_of_mem hc))
    obtain ⟨b, hb⟩ := hbound
    refine ⟨b * cs.length + 1, ?_⟩
    intro time s' r htime hrun
    obtain ⟨s'', r'', hrun', h⟩ := hall time
    cases hrun.symm.trans hrun'
    have hclock := h.clock_eq
    have hleft := le_remaining hb time
    unfold InTime
    omega
  · refine ⟨1, ?_⟩
    intro time s' r htime hrun
    unfold synthesizeWithin at hrun
    rw [if_neg he] at hrun
    cases hrun
    exact Nat.lt_add_of_pos_right htime

/-- For one cluster the result has the copies of what was found, and nothing else. -/
theorem WellPosed.exists_synthesizeWithin_alone
    (hpart : Cluster.partition targets roots = .ok [List.range roots.length]) (time : Nat) :
    ∃ s' r answer, s.synthesizeWithin targets roots depth time = .ok (s', r) ∧
      s.Answer targets roots depth time answer ∧ r.models.length = roots.length ∧
      (answer = none → r = { models := roots.map fun _ => none }) ∧
      ∀ out, answer = some out → Probe.Assembled roots.length out ∧
        ∃ c, r.store = c.store ∧ Synthesized.Adopts out (List.range roots.length) 0 c r := by
  obtain ⟨answer, hanswer, hgood⟩ := hp.exists_answer s depth time
  have hlen : (roots.map fun _ => (none : Option Handle)).length = roots.length := List.length_map _
  unfold synthesizeWithin
  dsimp only
  split
  next he =>
    obtain ⟨used, hfinds⟩ : ∃ used, Finds s.workshop s.catalog targets (rootsAt roots (List.range roots.length)) depth
        (s.verifier.clock + time - s.verifier.clock) answer used := by
      rw [Cluster.rootsAt_range, Nat.add_sub_cancel_left]
      simpa only [Answer, if_pos he] using hanswer
    obtain ⟨s', r, hattempt, h⟩ := exists_attempt (r := { models := roots.map fun _ => none }) hfinds
      (fun out hout => by rw [List.length_range]; exact (hgood out hout).1) List.nodup_range
      (fun i hi => hlen.symm ▸ List.mem_range.mp hi)
    refine ⟨s', r, answer, ?_, hanswer, h.length_eq.trans hlen, h.unchanged, ?_⟩
    · rw [hpart]
      exact bind_eq_ok.mpr ⟨_, rfl, bind_eq_ok.mpr ⟨(s', r), hattempt, rfl⟩⟩
    · intro out hout
      exact ⟨(hgood out hout).1, h.adopted out hout⟩
  next he =>
    rw [Answer, if_neg he] at hanswer
    subst hanswer
    exact ⟨s, _, none, rfl, by rw [Answer, if_neg he], hlen, fun _ => rfl, nofun⟩

end

/-- A cluster is settled as its roots are if they are taken alone, if there is the same answer for them. -/
theorem exists_alone_of_settles (s : Synthesizer) (hp : WellPosed targets roots) {cs : List (List Nat)}
    (hpart : Cluster.partition targets roots = .ok cs) {cluster : List Nat} (hc : cluster ∈ cs)
    {answer : Option (Store × List Handle)} (hanswer : s.Answer targets (rootsAt roots cluster) depth time answer)
    {r : Synthesized} (hsettles : r.Settles cluster answer) :
    ((∀ i ∈ cluster, ∃ h, r.models[i]? = some (some h)) ∨ ∀ i ∈ cluster, r.models[i]? = some none) ∧
    ∃ s'' r'' f, synthesizeWithin { workshop := s.workshop, catalog := s.catalog, switch := s.switch } targets
        (rootsAt roots cluster) depth time = .ok (s'', r'') ∧ r''.models.length = cluster.length ∧
      Store.Renames f r''.store r.store ∧
      ∀ p i : Nat, cluster[p]? = some i → r.models[i]? = r''.models[p]?.map (Option.map f) := by
  obtain ⟨hparts, -⟩ := Cluster.partition_spec hpart
  have hlen := Cluster.length_rootsAt fun i hi => hparts.lt hc hi
  have hp' := hp.of_subset (Cluster.rootsAt_subset roots cluster)
  obtain ⟨cs', hpart'⟩ := hp'.exists_partition
  rw [Cluster.partition_rootsAt hpart hc hpart', ← hlen] at hpart'
  obtain ⟨s'', r'', answer', halone, hanswer', hlen'', hnone, hsome⟩ := hp'.exists_synthesizeWithin_alone
    { workshop := s.workshop, catalog := s.catalog, switch := s.switch } depth hpart' time
  have hsame : answer' = answer := hanswer'.unique hanswer
  subst hsame
  cases answer' with
  | none =>
    have hr := hnone rfl
    refine ⟨Or.inr hsettles, s'', r'', id, halone, hlen''.trans hlen, ?_, ?_⟩
    · rw [hr]
      exact ⟨fun hlt => absurd hlt (Nat.not_lt_zero _), fun hlt => absurd hlt (Nat.not_lt_zero _)⟩
    · intro p i hpi
      have hlt : p < (rootsAt roots cluster).length := hlen ▸ (List.getElem?_eq_some_iff.mp hpi).1
      rw [hsettles i (List.mem_of_getElem? hpi), hr, Synthesized.getElem?_unmade.mpr ⟨hlt, rfl⟩]
      rfl
  | some out =>
    obtain ⟨base, copied, hadopts⟩ := hsettles
    obtain ⟨hassembled, copied', hstore, hadopts'⟩ := hsome out rfl
    have hhandles : out.2.length = cluster.length := by
      rw [hassembled.handles_eq, List.length_map, List.length_range, hlen]
    obtain ⟨f, hrenames, hmodels⟩ := hadopts.exists_renames hadopts' hstore hhandles.le
    refine ⟨Or.inl ?_, s'', r'', f, halone, hlen''.trans hlen, hrenames, ?_⟩
    · intro i hi
      obtain ⟨p, hpi⟩ := List.mem_iff_getElem?.mp hi
      have hlt : p < out.2.length := hhandles ▸ (List.getElem?_eq_some_iff.mp hpi).1
      obtain ⟨k, -, hk⟩ := hadopts.exists_image hpi (List.getElem?_eq_getElem hlt)
      exact ⟨k, hk⟩
    · intro p i hpi
      have hlt : p < cluster.length := (List.getElem?_eq_some_iff.mp hpi).1
      exact hmodels p i p (hhandles ▸ hlt) hpi (List.getElem?_range (hlen ▸ hlt))

/-- Clusters do not influence each other. The positions of a cluster all have models or none has, and they have what
synthesis gives for the roots of the cluster alone, with other handles, in the time that is left for it. If the deadline
does not pass, they have that whatever the time, and with enough time it does not pass. -/
theorem synthesizeWithin_by_cluster (s : Synthesizer) {targets : Store} {roots : List Handle}
    (hp : WellPosed targets roots) (depth : Nat) :
    (∀ time, ∃ cs s' r, Cluster.partition targets roots = .ok cs ∧
      s.synthesizeWithin targets roots depth time = .ok (s', r) ∧ ∀ cluster ∈ cs,
        ((∀ i ∈ cluster, ∃ h, r.models[i]? = some (some h)) ∨ ∀ i ∈ cluster, r.models[i]? = some none) ∧
        ∃ left ≤ time, ∀ t, t = left ∨ s.InTime s' time ∧ left ≤ t →
          ∃ s'' r'' f, synthesizeWithin { workshop := s.workshop, catalog := s.catalog, switch := s.switch } targets
              (rootsAt roots cluster) depth t = .ok (s'', r'') ∧ r''.models.length = cluster.length ∧
            Store.Renames f r''.store r.store ∧
            ∀ p i : Nat, cluster[p]? = some i → r.models[i]? = r''.models[p]?.map (Option.map f)) ∧
    (targets.PrimitiveLengths → ∃ enough, ∀ time s' r, enough ≤ time →
      s.synthesizeWithin targets roots depth time = .ok (s', r) → s.InTime s' time) := by
  refine ⟨?_, hp.exists_inTime s depth⟩
  intro time
  obtain ⟨cs, hpart⟩ := hp.exists_partition
  obtain ⟨s', r, hsynth, hsettled⟩ := hp.exists_synthesizeWithin s depth hpart time
  refine ⟨cs, s', r, hpart, hsynth, ?_⟩
  intro cluster hc
  obtain ⟨left, hle, answer, hanswer, hsettles⟩ := hsettled cluster hc
  refine ⟨(s.exists_alone_of_settles hp hpart hc (hanswer left (Or.inl rfl)) hsettles).1, left, hle, ?_⟩
  intro t ht
  exact (s.exists_alone_of_settles hp hpart hc (hanswer t ht) hsettles).2

/-- The object and its alias are made together, while nothing is found for the cluster between them. There is time
enough for both. -/
theorem synthesizeWithin_by_cluster_twins :
    WellPosed twins [⟨2⟩, ⟨1⟩, ⟨0⟩] ∧ ∃ cs s' r, cs = [[0, 2], [1]] ∧
      Cluster.partition twins [⟨2⟩, ⟨1⟩, ⟨0⟩] = .ok cs ∧
      (Demo.synthesizer {} Solver.defaultLimit).synthesizeWithin twins [⟨2⟩, ⟨1⟩, ⟨0⟩] 2 1000 = .ok (s', r) ∧
      r.models.map Option.isSome = [true, false, true] ∧ ∀ cluster ∈ cs,
        ((∀ i ∈ cluster, ∃ h, r.models[i]? = some (some h)) ∨ ∀ i ∈ cluster, r.models[i]? = some none) ∧
        ∀ t, 1000 ≤ t →
          ∃ s'' r'' f,
            synthesizeWithin { workshop := { machine := Demo.machine }, catalog := Demo.machine.catalog } twins
              (rootsAt [⟨2⟩, ⟨1⟩, ⟨0⟩] cluster) 2 t = .ok (s'', r'') ∧ r''.models.length = cluster.length ∧
            Store.Renames f r''.store r.store ∧
            ∀ p i : Nat, cluster[p]? = some i → r.models[i]? = r''.models[p]?.map (Option.map f) := by
  obtain ⟨cs, s', r, hpart, hr, hclusters⟩ :=
    (synthesizeWithin_by_cluster (Demo.synthesizer {} Solver.defaultLimit) wellPosed_twins 2).1 1000
  have hcs : Cluster.partition twins [⟨2⟩, ⟨1⟩, ⟨0⟩] = .ok [[0, 2], [1]] := by decide +kernel
  have hran : (((Demo.synthesizer {} Solver.defaultLimit).synthesizeWithin twins [⟨2⟩, ⟨1⟩, ⟨0⟩] 2 1000).toOption.map
      fun e => (e.2.models.map Option.isSome, decide ((Demo.synthesizer {} Solver.defaultLimit).InTime e.1 1000))) =
        some ([true, false, true], true) := by
    decide +kernel
  rw [hr] at hran
  obtain ⟨hmodels, hin⟩ := Prod.mk.inj (Option.some.inj hran)
  refine ⟨wellPosed_twins, cs, s', r, ?_, hpart, hr, hmodels, ?_⟩
  · rw [hpart] at hcs
    exact Except.ok.inj hcs
  · intro cluster hc
    obtain ⟨hall, left, hle, halone⟩ := hclusters cluster hc
    exact ⟨hall, fun t ht => halone t (Or.inr ⟨of_decide_eq_true hin, hle.trans ht⟩)⟩

end Synthesizer

end Symex
