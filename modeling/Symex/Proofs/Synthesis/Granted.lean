import Symex.Proofs.Synthesis.Answered
import Symex.Proofs.Synthesis.Replayed

/-!
# Synthesis grants wishes

Objects that are wished for by parameters of their own have nothing to do with each other, so each is a cluster of
its own. Whatever a search finds for one of them was verified and can be replayed, and copying it to the store of the
result does not change what the replay makes.
-/

namespace Symex

open Draft (Sane)

/-! ### The search for one object -/

namespace Synthesizer

/-- An object can be worked on by itself, whatever else is in the store. -/
theorem workable_object (w : Workshop) (c : Catalog) {targets : Store} {h : Handle} {t : Term} {as : OrderedSet Atom}
    (hg : targets.get? h = some (.object t as)) : Workable w c targets [h] fun out =>
      Probe.Assembled 1 out ∧ ∃ d t u u', Sane c targets [h] d ∧ w.verify d t u = .ok (some out, u') := by
  refine ⟨fun hs => hs.exists_calls_object hg, ?_, fun hs => hs.exists_refine_object hg, ?_⟩
  · intro d hs
    obtain ⟨plan, x, recipe, u, -, -, hcomplete, -⟩ := hs.lowered_object hg
    exact ⟨_, hcomplete⟩
  · intro d hs time
    obtain ⟨plan, x, recipe, u, -, -, hcomplete, hlow, hprobe⟩ := hs.lowered_object hg
    obtain ⟨r, used, hverify, hassembled⟩ := w.exists_verify_of_probe hs (Draft.ready_object hg)
      (Draft.measured_object hg) hcomplete hprobe rfl (hlow.grounded 1) time
    refine ⟨r, used, hverify, ?_⟩
    intro out hout
    obtain ⟨v, hv, -⟩ := hverify {}
    exact ⟨hassembled out hout, d, time, {}, v, hs, hout ▸ hv⟩

end Synthesizer

/-- A field that one of some wishes is about. -/
def Wish.Mentioned (wishes : List Wish) (f : Field) : Prop := ∃ q ∈ wishes, ∃ r n, q.Asks r f n

/-! ### Clusters -/

theorem Wish.mentions_iff (q : Wish) {a : Atom} (ha : a ∈ q.atoms.toList) {name : String} {ty : Ty} :
    a.mentions (.param name ty) = true ↔ .param name ty = q.term := by
  obtain ⟨r, f, n, rfl⟩ := q.own a ha
  simp [Atom.terms, Term.subterms, Term.int, term]

namespace Cluster

theorem mentions_wish {targets : Store} {h k : Handle} {q p : Wish} (hh : targets.get? h = some q.model)
    (hk : targets.get? k = some p.model) (hne : q.term ≠ p.term) : mentions targets h k = .ok false := by
  unfold mentions
  rw [Store.get_eq_ok.mpr hh]
  show (targets.get k >>= _) = _
  rw [Store.get_eq_ok.mpr hk]
  have hnone : (q.atoms.toList.any fun a => a.mentions p.term) = false := by
    rw [List.any_eq_false]
    intro a ha hmentions
    exact hne ((q.mentions_iff ha).mp hmentions).symm
  show Except.ok (q.atoms.toList.any fun a => a.mentions p.term) = _
  rw [hnone]

theorem gather_discrete (n : Nat) : gather (Forest.discrete n) = (List.range n).map fun i => [i] := by
  have hroots : (Forest.discrete n).roots = List.finRange n :=
    List.filter_eq_self.mpr fun i _ => decide_eq_true (Forest.root_discrete i)
  have hunder : ∀ l, under (Forest.discrete n) (List.finRange n) l = [l.val] := by
    intro l
    simp only [under, Forest.root_discrete]
    rw [List.filter_eq, List.count_eq_one_of_mem (List.nodup_finRange n) (List.mem_finRange l)]
    rfl
  rw [gather_eq, hroots, ← List.map_coe_finRange_eq_range, List.map_map]
  exact List.map_congr_left fun l _ => hunder l

variable {targets : Store} {roots : List Handle} {wishes : List Wish}
  (hw : List.Forall₂ (fun h (q : Wish) => targets.get? h = some q.model) roots wishes)
  (hd : (wishes.map Wish.term).Nodup)

include hw hd

/-- Each wish is a cluster of its own. -/
theorem partition_wishes : partition targets roots = .ok ((List.range roots.length).map fun i => [i]) := by
  have hlink : ∀ (f : Forest roots.length) (p : Fin roots.length × Fin roots.length),
      link targets roots f p = .ok f := by
    intro f p
    rw [link]
    split
    · rfl
    next hne =>
      have hi : p.1.val < wishes.length := hw.length_eq ▸ p.1.isLt
      have hj : p.2.val < wishes.length := hw.length_eq ▸ p.2.isLt
      have hterms : wishes[p.1.val].term ≠ wishes[p.2.val].term := by
        intro he
        refine hne (Fin.ext ((List.getElem?_inj (by rwa [List.length_map]) hd).mp ?_))
        rw [List.getElem?_map, List.getElem?_map, List.getElem?_eq_getElem hi, List.getElem?_eq_getElem hj]
        exact congrArg some he
      rw [mentions_wish (hw.get p.1.isLt hi) (hw.get p.2.isLt hj) hterms]
      rfl
  have hall : linkAll targets roots = .ok (Forest.discrete roots.length) := by
    rw [linkAll]
    induction pairs roots.length with
    | nil => rfl
    | cons p l ih =>
      rw [List.foldlM_cons, hlink]
      exact ih
  rw [partition, hall]
  exact congrArg Except.ok (gather_discrete roots.length)

end Cluster

/-! ### The result -/

/-- A result with a place for each wish, in which every model can be replayed and makes what is wished for. -/
structure Synthesized.Grants (m : Machine) (wishes : List Wish) (r : Synthesized) : Prop where
  length_eq : r.models.length = wishes.length
  replays : ∀ {i : Nat} {h : Handle}, r.models[i]? = some (some h) → ∃ q, wishes[i]? = some q ∧ q.Replays m r.store h

theorem Wish.Replays.mono {q : Wish} {m : Machine} {s t : Store} {h : Handle} (hq : q.Replays m s h)
    (he : s.Extends t) : q.Replays m t h := by
  obtain ⟨n, fs, hr, hgranted⟩ := hq
  exact ⟨n, fs, Machine.replay_mono he.get?_some (Nat.le_refl n) hr, hgranted⟩

/-- A model that was found is taken over without fault, and makes the same in its new store. -/
theorem Synthesized.Grants.exists_adopt {m : Machine} {wishes : List Wish} {r : Synthesized} (hr : r.Grants m wishes)
    {i : Nat} {q : Wish} (hi : wishes[i]? = some q) {source : Store} {k : Handle} (hk : q.Replays m source k) :
    ∃ r', adopt source [(i, k)] { store := r.store } r.models = .ok r' ∧ r'.Grants m wishes := by
  obtain ⟨n, fs, hreplay, hgranted⟩ := hk
  have hfaithful := Copying.faithful_of_no_images source r.store
  obtain ⟨k', c, hcopy⟩ := Copying.exists_copy (m.closedOn_replay source) ⟨n, _, hreplay⟩ hfaithful
  obtain ⟨hgrows, hf, himage⟩ := Copying.copy_spec hcopy hfaithful
  refine ⟨⟨c.store, r.models.set i (some k')⟩, bind_eq_ok.mpr ⟨(k', c), hcopy, rfl⟩, ?_, ?_⟩
  · rw [List.length_set]
    exact hr.length_eq
  · intro j h hj
    by_cases hij : i = j
    · subst hij
      have hlt : i < r.models.length := by
        rw [hr.length_eq]
        exact (List.getElem?_eq_some_iff.mp hi).1
      rw [List.getElem?_set_self hlt] at hj
      cases hj
      exact ⟨q, hi, n, fs, Machine.replay_image hf himage hreplay, hgranted⟩
    · rw [List.getElem?_set_ne hij] at hj
      obtain ⟨p, hp, hrep⟩ := hr.replays hj
      exact ⟨p, hp, hrep.mono hgrows.store⟩

namespace Synthesizer

section Wishes

variable {machine : Machine} {targets : Store} {roots : List Handle} {wishes : List Wish}
  (hw : List.Forall₂ (fun h (q : Wish) => targets.get? h = some q.model) roots wishes)
  (hm : machine.Disciplined (Wish.Mentioned wishes)) (depth deadline : Nat)

include hw hm

theorem exists_attempt_wish {s : Synthesizer} (hs : s.workshop.machine = machine)
    (hcat : ∀ m ∈ s.catalog.methods, m ∈ machine.catalog.methods) {r : Synthesized} (hr : r.Grants machine wishes)
    {i : Nat} (hi : i < roots.length) :
    ∃ s' r', s.attempt targets roots depth deadline r [i] = .ok (s', r') ∧ s'.workshop = s.workshop ∧
      s'.catalog = s.catalog ∧ r'.Grants machine wishes := by
  subst hs
  have hi' : i < wishes.length := hw.length_eq ▸ hi
  have hg : targets.get? roots[i] = some wishes[i].model := hw.get hi hi'
  have hfields : ∀ r f n, wishes[i].Asks r f n → Wish.Mentioned wishes f :=
    fun r f n hask => ⟨wishes[i], List.getElem_mem hi', r, n, hask⟩
  obtain ⟨answer, used, hfinds, hgood⟩ :=
    (workable_object s.workshop s.catalog hg).exists_finds depth (deadline - s.verifier.clock)
  have hmembers : Cluster.rootsAt roots [i] = [roots[i]] := List.filterMap_cons_some (List.getElem?_eq_getElem hi)
  rw [← hmembers] at hfinds
  obtain ⟨v, -, hattempt⟩ := attempt_of_finds hfinds r
  cases answer with
  | none => exact ⟨_, _, hattempt, rfl, rfl, hr⟩
  | some out =>
    obtain ⟨store, handles⟩ := out
    obtain ⟨-, d, t, u, u', hd, hv⟩ := hgood _ rfl
    obtain ⟨k, rfl, hreplays⟩ := s.workshop.verify_replays hm hfields hcat hd hg hv
    obtain ⟨r', hadopt, hr'⟩ := hr.exists_adopt (List.getElem?_eq_getElem hi') hreplays
    exact ⟨_, r', hattempt.trans (bind_eq_ok.mpr ⟨r', hadopt, rfl⟩), rfl, rfl, hr'⟩

theorem exists_attemptAll_wishes {s : Synthesizer} (hs : s.workshop.machine = machine)
    (hcat : ∀ m ∈ s.catalog.methods, m ∈ machine.catalog.methods) {r : Synthesized} (hr : r.Grants machine wishes)
    {is : List Nat} (his : ∀ i ∈ is, i < roots.length) :
    ∃ s' r', s.attemptAll targets roots depth deadline r (is.map fun i => [i]) = .ok (s', r') ∧
      r'.Grants machine wishes := by
  induction is generalizing s r with
  | nil => exact ⟨s, r, rfl, hr⟩
  | cons i is ih =>
    obtain ⟨s₁, r₁, hattempt, hworkshop, hcatalog, hr₁⟩ :=
      exists_attempt_wish hw hm depth deadline hs hcat hr (his i List.mem_cons_self)
    obtain ⟨s', r', hall, hr'⟩ := ih (by rw [hworkshop, hs]) (by rw [hcatalog]; exact hcat) hr₁
      fun j hj => his j (List.mem_cons_of_mem _ hj)
    exact ⟨s', r', bind_eq_ok.mpr ⟨(s₁, r₁), hattempt, hall⟩, hr'⟩

end Wishes

/-- Synthesis ends without fault. Every model it has for a wish is an assembly with a creation that can be replayed,
so that all tests are passed, and the object that the replay makes has fields for which all comparisons are true. -/
theorem synthesizeWithin_replays (s : Synthesizer) {targets : Store} {roots : List Handle} {wishes : List Wish}
    (hcat : ∀ m ∈ s.catalog.methods, m ∈ s.workshop.machine.catalog.methods)
    (hm : s.workshop.machine.Disciplined (Wish.Mentioned wishes))
    (hw : List.Forall₂ (fun h (q : Wish) => targets.get? h = some q.model) roots wishes)
    (hd : (wishes.map Wish.term).Nodup) (depth time : Nat) :
    ∃ s' r, s.synthesizeWithin targets roots depth time = .ok (s', r) ∧ r.models.length = wishes.length ∧
      ∀ (i : Nat) (h : Handle), r.models[i]? = some (some h) →
        ∃ (q : Wish) (t : Term) (creation : Call) (changes : List Call) (n : Nat) (fields : List (Field × Item)),
        wishes[i]? = some q ∧
        r.store.get? h = some (.assembly t (some creation) changes) ∧
        s.workshop.machine.replay r.store n h = some (.object fields) ∧ q.Granted fields := by
  have hstart : Synthesized.Grants s.workshop.machine wishes { models := roots.map fun _ => none } := by
    refine ⟨by rw [List.length_map, hw.length_eq], ?_⟩
    intro i h hi
    exact absurd (Synthesized.getElem?_unmade.mp hi).2 (Option.some_ne_none h)
  have hresult : ∃ s' r, s.synthesizeWithin targets roots depth time = .ok (s', r) ∧
      r.Grants s.workshop.machine wishes := by
    unfold synthesizeWithin
    dsimp only
    split
    · rw [Cluster.partition_wishes hw hd]
      exact exists_attemptAll_wishes hw hm depth _ rfl hcat hstart fun i hi => List.mem_range.mp hi
    · exact ⟨_, _, rfl, hstart⟩
  obtain ⟨s', r, hsynth, hgrants⟩ := hresult
  refine ⟨s', r, hsynth, hgrants.length_eq, ?_⟩
  intro i h hi
  obtain ⟨q, hq, n, fields, hreplay, hgranted⟩ := hgrants.replays hi
  obtain ⟨t, creation, changes, hassembly⟩ := Machine.assembly_of_replay hreplay
  exact ⟨q, t, creation, changes, n, fields, hq, hassembly, hreplay, hgranted⟩

def gaugeLevel : Field := ⟨"Gauge", "level", .int⟩

def gaugeCapacity : Field := ⟨"Gauge", "capacity", .int⟩

/-- Gauges are made empty with a capacity, or after another gauge with a level that is low. Filling sets the level,
which is not low then. -/
def gauges : Machine :=
  { methods :=
      [(.constructor "Gauge" [.int], [.require 0 .ge 0, .copyArg gaugeCapacity 0, .setConst gaugeLevel 0]),
       (.factory "Gauge" "after" [.object "Gauge", .int] (.object "Gauge"),
         [.require 1 .lt 3, .copyArg gaugeLevel 1, .setConst gaugeCapacity 4]),
       (.modifier "Gauge" "fill" [.int] .void, [.require 0 .ge 3, .copyArg gaugeLevel 0])] }

def gauge (name : String) (tests : List (Relation × Field × Int)) : Wish :=
  { name
    cls := "Gauge"
    atoms := .ofList (tests.map fun e => ⟨e.1, .field (.param name (.object "Gauge")) e.2.1, .int e.2.2⟩)
    own := by
      intro a ha
      obtain ⟨e, -, rfl⟩ := List.mem_map.mp (OrderedSet.mem_ofList.mp ha)
      exact ⟨_, _, _, rfl⟩ }

/-- One gauge has to be filled, the other one to be made after another. -/
def wanted : List Wish :=
  [gauge "full" [(.ge, gaugeLevel, 5), (.lt, gaugeLevel, 7), (.eq, gaugeCapacity, 7)],
   gauge "low" [(.eq, gaugeLevel, 1), (.eq, gaugeCapacity, 4)]]

theorem mem_of_asks_gauge {name : String} {tests : List (Relation × Field × Int)} {r : Relation} {f : Field} {n : Int}
    (h : (gauge name tests).Asks r f n) : (r, f, n) ∈ tests := by
  obtain ⟨e, he, heq⟩ := List.mem_map.mp (OrderedSet.mem_ofList.mp h)
  simp only [Atom.mk.injEq, Term.field.injEq, Term.int, Term.const.injEq, Value.int.injEq] at heq
  obtain ⟨hr, ⟨-, hf⟩, hn⟩ := heq
  rwa [← hr, ← hf, ← hn]

theorem disciplined_gauges : gauges.Disciplined (Wish.Mentioned wanted) := by
  have hm : gauges.Disciplined (· ∈ [gaugeLevel, gaugeCapacity]) := by decide
  refine hm.mono ?_
  rintro f ⟨q, hq, r, n, hask⟩
  simp only [wanted, List.mem_cons, List.not_mem_nil, or_false] at hq
  rcases hq with rfl | rfl
  · have htest := mem_of_asks_gauge hask
    simp only [List.mem_cons, Prod.mk.injEq, List.not_mem_nil, or_false] at htest ⊢
    tauto
  · have htest := mem_of_asks_gauge hask
    simp only [List.mem_cons, Prod.mk.injEq, List.not_mem_nil, or_false] at htest ⊢
    tauto

def wantedStore : Store := .ofSlots (wanted.map fun q => some q.model)

def forGauges : Synthesizer := { workshop := { machine := gauges }, catalog := gauges.catalog }

/-- Both wishes are granted: the first by a constructor and a modifier, the second by a factory. -/
theorem synthesizeWithin_replays_gauges :
    gauges.Disciplined (Wish.Mentioned wanted) ∧ (wanted.map Wish.term).Nodup ∧
      ∃ s' r, forGauges.synthesizeWithin wantedStore [⟨0⟩, ⟨1⟩] 2 1000 = .ok (s', r) ∧
        r.isComplete = true ∧ r.models.length = wanted.length ∧
        ∀ (i : Nat) (h : Handle), r.models[i]? = some (some h) →
          ∃ (q : Wish) (t : Term) (creation : Call) (changes : List Call) (n : Nat) (fields : List (Field × Item)),
          wanted[i]? = some q ∧ r.store.get? h = some (.assembly t (some creation) changes) ∧
          gauges.replay r.store n h = some (.object fields) ∧ q.Granted fields := by
  have hnodup : (wanted.map Wish.term).Nodup := by decide
  have hwanted : List.Forall₂ (fun h (q : Wish) => wantedStore.get? h = some q.model) [⟨0⟩, ⟨1⟩] wanted :=
    .cons rfl (.cons rfl .nil)
  obtain ⟨s', r, hr, hlen, hreplay⟩ :=
    synthesizeWithin_replays forGauges (fun _ hm => hm) disciplined_gauges hwanted hnodup 2 1000
  have hcomplete : ((forGauges.synthesizeWithin wantedStore [⟨0⟩, ⟨1⟩] 2 1000).toOption.map
      fun e => e.2.isComplete) = some true := by
    decide +kernel
  rw [hr] at hcomplete
  exact ⟨disciplined_gauges, hnodup, s', r, hr, Option.some.inj hcomplete, hlen, hreplay⟩

end Synthesizer

end Symex
