import Symex.Proofs.Synthesis.Adopted
import Symex.Proofs.Synthesis.Granted

/-!
# Each wish has its own answer

Wishes are clusters by themselves, so what the result has for one of them is the answer of the search for it alone,
and the counters of the synthesizer can be read off the models.
-/

namespace Symex

namespace Synthesized

variable {r : Synthesized}

/-- What was found for one position has its image there. -/
theorem Adopts.exists_single {out : Store × List Handle} {i base : Nat} {c : Copying} (h : r.Adopts out [i] base c)
    (hout : Probe.Assembled 1 out) : ∃ k, c.images.find? ⟨0⟩ = some k ∧ r.models[i]? = some (some k) := by
  have hroot : out.2[0]? = some ⟨0⟩ := by
    rw [hout.handles_eq]
    rfl
  exact h.exists_image (p := 0) rfl hroot

theorem Settles.exists_model {i : Nat} {answer : Option (Store × List Handle)} (h : r.Settles [i] answer)
    (hout : ∀ out, answer = some out → Probe.Assembled 1 out) :
    ∃ m, r.models[i]? = some m ∧ m.isSome = answer.isSome := by
  cases answer with
  | none => exact ⟨none, h i List.mem_cons_self, rfl⟩
  | some out =>
    obtain ⟨base, c, hadopts⟩ := h
    obtain ⟨k, -, hk⟩ := hadopts.exists_single (hout out rfl)
    exact ⟨some k, hk, rfl⟩

/-- There are as many models as answers. -/
theorem countP_models {answer : List Nat → Nat → Option (Store × List Handle)} {es : List (List Nat × Nat)}
    (hes : es.map Prod.fst = (List.range r.models.length).map fun i => [i])
    (h : ∀ e ∈ es, r.Settles e.1 (answer e.1 e.2))
    (hout : ∀ e ∈ es, ∀ out, answer e.1 e.2 = some out → Probe.Assembled e.1.length out) :
    r.models.countP Option.isSome = es.countP fun e => (answer e.1 e.2).isSome := by
  have hlen : es.length = r.models.length := by
    rw [← List.length_map (f := Prod.fst), hes, List.length_map, List.length_range]
  have hflags : r.models.map Option.isSome = es.map fun e => (answer e.1 e.2).isSome := by
    apply List.ext_getElem
    · rw [List.length_map, List.length_map, hlen]
    · intro i hi hi'
      rw [List.length_map] at hi hi'
      have hfst : es[i].1 = [i] := by
        have hat := List.getElem_of_eq hes ((List.length_map (f := Prod.fst)).symm ▸ hi')
        rwa [List.getElem_map, List.getElem_map, List.getElem_range] at hat
      have hmem := List.getElem_mem hi'
      have hsettles := h _ hmem
      have hsingle := hout _ hmem
      rw [hfst] at hsettles hsingle
      obtain ⟨m, hm, hflag⟩ := hsettles.exists_model hsingle
      rw [List.getElem?_eq_getElem hi] at hm
      cases hm
      rw [List.getElem_map, List.getElem_map, hflag, hfst]
  calc r.models.countP Option.isSome = (r.models.map Option.isSome).countP id := (List.countP_map (p := id)).symm
    _ = (es.map fun e => (answer e.1 e.2).isSome).countP id := by rw [hflags]
    _ = _ := List.countP_map

end Synthesized

namespace Synthesizer

variable (s : Synthesizer) {targets : Store} {roots : List Handle} {wishes : List Wish}
  (hw : List.Forall₂ (fun h (q : Wish) => targets.get? h = some q.model) roots wishes) (depth : Nat)

include hw

theorem exists_finds_wish {i : Nat} {h : Handle} (hi : roots[i]? = some h) (time : Nat) : ∃ answer used,
    Finds s.workshop s.catalog targets [h] depth time answer used ∧
      ∀ out, answer = some out → Probe.Assembled 1 out := by
  obtain ⟨hlt, rfl⟩ := List.getElem?_eq_some_iff.mp hi
  have hg : targets.get? roots[i] = some _ := hw.get hlt (hw.length_eq ▸ hlt)
  obtain ⟨answer, used, hfinds, hgood⟩ := (workable_object s.workshop s.catalog hg).exists_finds depth time
  exact ⟨answer, used, hfinds, fun out hout => (hgood out hout).1⟩

/-- Synthesis settles every wish by its own answer, if no search takes more time than its share. It counts the wishes as
attempts, and those that have models as successes. -/
theorem exists_synthesizeWithin_wishes (hs : s.switch.enabled = true) (hd : (wishes.map Wish.term).Nodup) {bound : Nat}
    (hbound : ∀ h ∈ roots, ∀ t answer used, Finds s.workshop s.catalog targets [h] depth t answer used → used ≤ bound)
    {time : Nat} (htime : (bound + 1) * roots.length ≤ time) :
    ∃ s' r, s.synthesizeWithin targets roots depth time = .ok (s', r) ∧ r.models.length = roots.length ∧
      s'.attempts = s.attempts + roots.length ∧ s'.successes = s.successes + r.models.countP Option.isSome ∧
      ∀ (i : Nat) (h : Handle), roots[i]? = some h → ∃ t answer used, bound < t ∧
        Finds s.workshop s.catalog targets [h] depth t answer used ∧
        (∀ out, answer = some out → Probe.Assembled 1 out) ∧ r.Settles [i] answer := by
  have hpart := Cluster.partition_wishes hw hd
  have hexists : ∀ (c : List Nat) (t : Nat), ∃ answer used, c ∈ (List.range roots.length).map (fun i => [i]) →
      Finds s.workshop s.catalog targets (Cluster.rootsAt roots c) depth t answer used ∧ used ≤ bound ∧
        ∀ out, answer = some out → Probe.Assembled c.length out := by
    intro c t
    by_cases hc : c ∈ (List.range roots.length).map fun i => [i]
    · obtain ⟨i, hi, rfl⟩ := List.mem_map.mp hc
      have hlt := List.mem_range.mp hi
      have hroot := List.getElem?_eq_getElem hlt
      obtain ⟨answer, used, hfinds, hout⟩ := exists_finds_wish s hw depth hroot t
      have hused := hbound _ (List.getElem_mem hlt) t answer used hfinds
      rw [← show Cluster.rootsAt roots [i] = [roots[i]] from List.filterMap_cons_some hroot] at hfinds
      exact ⟨answer, used, fun _ => ⟨hfinds, hused, hout⟩⟩
    · exact ⟨none, 0, fun h => absurd h hc⟩
  choose answer used hanswer using hexists
  obtain ⟨s', r, hsynth, h⟩ := exists_synthesizeWithin_of_finds hs hpart (fun c hc t => (hanswer c t hc).1)
    (fun c hc t => (hanswer c t hc).2.2) time
  have hmodels : r.models.length = roots.length := h.length_eq.trans (List.length_map _)
  have hfst := map_fst_schedule used time ((List.range roots.length).map fun i => [i])
  have hmem : ∀ e ∈ schedule used time ((List.range roots.length).map fun i => [i]),
      e.1 ∈ (List.range roots.length).map fun i => [i] :=
    fun e he => hfst ▸ List.mem_map_of_mem he
  have hcount := Synthesized.countP_models (hmodels.symm ▸ hfst) h.settles
    fun e he => (hanswer e.1 e.2 (hmem e he)).2.2
  refine ⟨s', r, hsynth, hmodels, ?_, ?_, ?_⟩
  · rw [h.attempts_eq, List.length_map, List.length_range]
  · rw [h.successes_eq, hcount]
  · intro i a hi
    have hlt : i < roots.length := (List.getElem?_eq_some_iff.mp hi).1
    have hsingle : [i] ∈ (List.range roots.length).map fun i => [i] :=
      List.mem_map.mpr ⟨i, List.mem_range.mpr hlt, rfl⟩
    obtain ⟨e, he, hei⟩ := List.mem_map.mp (hfst.symm ▸ hsingle : [i] ∈ (schedule used time _).map Prod.fst)
    obtain ⟨hfinds, -, hout⟩ := hanswer e.1 e.2 (hmem e he)
    have hsettles := h.settles e he
    have hleft := le_of_mem_schedule (fun c hc t => (hanswer c t hc).2.1) he
    rw [List.length_map, List.length_range] at hleft
    rw [Nat.add_one_mul] at htime
    rw [hei] at hfinds hout hsettles
    rw [show Cluster.rootsAt roots [i] = [a] from List.filterMap_cons_some hi] at hfinds
    exact ⟨e.2, _, _, by omega, hfinds, hout, hsettles⟩

end Synthesizer

end Symex
