import Symex.Proofs.Frontier.Session

/-!
# Interleavings keep in step

The members of an interleaving hold the same states, in orders of their own. Every request leaves them so, as long as
no two states that are held have the same number: what one member picks, the others find under its number and give
up. Hence no turn is skipped, and the picks go round the members.
-/

namespace Symex

namespace Selector

variable {l : List State} {s : Selector}

theorem sizeEach_eq {ms : List Selector} {n : Nat} (hne : ms ≠ []) (h : ∀ m ∈ ms, m.size = n) : sizeEach ms = n := by
  induction ms with
  | nil => exact absurd rfl hne
  | cons m ms ih =>
    have hm := h m List.mem_cons_self
    cases ms with
    | nil => simp [sizeEach, hm]
    | cons m' ms =>
      have hrest := ih (List.cons_ne_nil m' ms) fun k hk => h k (List.mem_cons_of_mem _ hk)
      rw [sizeEach, hrest, hm]
      omega

theorem Holding.size_eq (h : Holding l s) : s.size = l.length := by
  induction h with
  | @single f w held judges => rw [size, Frontier.size_eq, held.length_eq]
  | @interleaved ms turn w members held ih =>
    rw [size]
    exact sizeEach_eq members ih

theorem removeEach_fst_eq_none {id : Nat} {ms : List Selector} (h : ∀ m ∈ ms, m.remove id = none) :
    (removeEach id ms).1 = none := by
  induction ms with
  | nil => rfl
  | cons m ms ih =>
    have hm := h m List.mem_cons_self
    have hms := ih fun k hk => h k (List.mem_cons_of_mem _ hk)
    simp [removeEach, hm, hms]

theorem Holding.remove_eq_none (h : Holding l s) {id : Nat} (hid : ∀ x ∈ l, x.id ≠ id) : s.remove id = none := by
  induction h with
  | @single f w held judges =>
    have hsome : (f.remove id).isSome = false := by
      rw [Frontier.remove_isSome, List.any_eq_false]
      intro x hx
      simpa using hid x (held.mem_iff.mp hx)
    simpa [remove] using hsome
  | @interleaved ms turn w members held ih =>
    have hnone := removeEach_fst_eq_none ih
    simp [remove, hnone]

end Selector

/-- The states that a request takes as a pick. -/
def Request.picked : Request → Option State → List State
  | pick, a => a.toList
  | _, _ => []

namespace Session

/-- The states that picks gave back, in order. -/
def picked (requests : List Request) (answers : List (Option State)) : List State :=
  (requests.zip answers).flatMap fun x => x.1.picked x.2

theorem picked_concat {requests : List Request} {answers : List (Option State)} (h : requests.length = answers.length)
    (c : Request) (a : Option State) : picked (requests ++ [c]) (answers ++ [a]) = picked requests answers ++ c.picked a := by
  simp [picked, List.zip_append h]

/-- At no moment of the run do two states that are held have the same number. -/
def Distinct (x : Session) (start : List State) (requests : List Request) : Prop :=
  ∀ before answers y held, before <+: requests → x.run before = .ok (answers, y) →
    Balanced start before answers held → (held.map State.id).Nodup

theorem Distinct.of_concat {x : Session} {start : List State} {requests : List Request} {c : Request}
    (h : x.Distinct start (requests ++ [c])) : x.Distinct start requests := by
  intro before answers y held hbefore
  exact h before answers y held (hbefore.trans (List.prefix_append requests [c]))

theorem distinct_of_nodup {x : Session} {start : List State} {requests : List Request}
    (h : ((start ++ pushed requests).map State.id).Nodup) : x.Distinct start requests := by
  rintro before answers y held ⟨rest, rfl⟩ - hbal
  have hsub : (start ++ pushed before).Sublist (start ++ pushed (before ++ rest)) := by
    simp [pushed]
  have hbefore := h.sublist (hsub.map State.id)
  have hall := (hbal.map State.id).nodup_iff.mp hbefore
  rw [List.map_append] at hall
  exact hall.of_append_right

/-! ### One request -/

variable {ms : List Selector} {turn : Nat} {w : Wiring} {i : Instruments} {held : List State}

/-- The members are asked one by one, and all end up with the same states. -/
theorem exists_mapM_members {f : Selector → Except Fault Selector} {held' : List State} (hne : ms ≠ [])
    (h : ∀ m ∈ ms, ∃ n, f m = .ok n ∧ n.wiring = m.wiring ∧ n.Holding held') :
    ∃ ns, ms.mapM f = .ok ns ∧ ns.length = ms.length ∧ ∀ n ∈ ns, n.Holding held' := by
  obtain ⟨ns, hns, -, hall⟩ := Selector.exists_mapM_holding hne h
  exact ⟨ns, hns, (mapM_eq_ok.mp hns).length_eq.symm, hall⟩

/-- The member whose turn it is has something to pick, and the others hold it too. -/
theorem exists_pick_in_turn (turn : Nat) (w : Wiring) (i : Instruments) (hne : ms ≠ [])
    (hms : ∀ m ∈ ms, m.Holding held) (hids : (held.map State.id).Nodup) (hnil : held ≠ []) :
    ∃ m m' x ns, ms[turn % ms.length]? = some m ∧ m.pick i = some (x, m') ∧ x ∈ held ∧
      (Selector.interleaved ms turn w).pick i =
        some (x, .interleaved ns ((turn % ms.length + 1) % ms.length) w) ∧
      ns.length = ms.length ∧ ∀ n ∈ ns, n.Holding (held.erase x) := by
  have hlt : turn % ms.length < ms.length := Nat.mod_lt _ (List.length_pos_of_ne_nil hne)
  have hm := List.getElem?_eq_getElem hlt
  obtain ⟨x, m', hpick, hx, -, hm'⟩ := (hms _ (List.mem_of_getElem? hm)).exists_pick hids hnil i
  obtain ⟨ns, hns, hlen, hall⟩ := Selector.exists_pick_interleaved (w := w) hm hpick hm'
    fun m hm => (hms m hm).exists_remove hids hx
  exact ⟨_, m', x, ns, hm, hpick, hx, hns, hlen, hall⟩

theorem exists_serve_interleaved (turn : Nat) (w : Wiring) (i : Instruments) (hne : ms ≠ [])
    (hms : ∀ m ∈ ms, m.Holding held) (hids : (held.map State.id).Nodup) (c : Request) :
    ∃ a ns turn' j held', serve ⟨.interleaved ms turn w, i⟩ c = .ok (a, ⟨.interleaved ns turn' w, j⟩) ∧
      ns.length = ms.length ∧ (∀ n ∈ ns, n.Holding held') ∧ (held ++ c.states).Perm (a.toList ++ held') ∧
      turn' % ms.length = (turn + (c.picked a).length) % ms.length := by
  cases c with
  | push s =>
    obtain ⟨ns, hns, hlen, hall⟩ := exists_mapM_members hne fun m hm => (hms m hm).exists_push s
    rw [← Selector.pushEach_eq] at hns
    refine ⟨none, ns, turn, i, held ++ [s], ?_, hlen, hall, by simp [Request.states], by simp [Request.picked]⟩
    simp [serve, Selector.push, hns, bind, Except.bind, pure, Except.pure]
  | pushAll ss =>
    obtain ⟨ns, hns, hlen, hall⟩ := exists_mapM_members hne fun m hm => (hms m hm).exists_pushAll ss
    rw [← Selector.pushAllEach_eq] at hns
    refine ⟨none, ns, turn, i, held ++ ss, ?_, hlen, hall, by simp [Request.states], by simp [Request.picked]⟩
    simp [serve, Selector.pushAll, hns, bind, Except.bind, pure, Except.pure]
  | pick =>
    by_cases hnil : held = []
    · subst hnil
      have hholding : Selector.Holding [] (.interleaved ms turn w) := .interleaved hne hms
      have hnone := hholding.pick_nil i
      exact ⟨none, ms, turn, i, [], by simp [serve, hnone], rfl, hms, by simp [Request.states], by simp [Request.picked]⟩
    · obtain ⟨-, -, x, ns, -, -, hx, hpick, hlen, hall⟩ := exists_pick_in_turn turn w i hne hms hids hnil
      refine ⟨some x, ns, (turn % ms.length + 1) % ms.length, i, held.erase x, by simp [serve, hpick], hlen, hall, ?_, ?_⟩
      · simpa [Request.states] using List.perm_cons_erase hx
      · simp [Request.picked]
  | remove id =>
    by_cases hid : ∃ x ∈ held, x.id = id
    · obtain ⟨x, hx, rfl⟩ := hid
      obtain ⟨ns, hns, hlen, hall⟩ := Selector.exists_removeEach fun m hm => (hms m hm).exists_remove hids hx
      have hempty : ms.isEmpty = false := by simpa using hne
      refine ⟨some x, ns, turn, i, held.erase x, ?_, hlen, hall, ?_, by simp [Request.picked]⟩
      · simp [serve, Selector.remove, hns, hempty]
      · simpa [Request.states] using List.perm_cons_erase hx
    · have hholding : Selector.Holding held (.interleaved ms turn w) := .interleaved hne hms
      have hnone := hholding.remove_eq_none fun x hx he => hid ⟨x, hx, he⟩
      exact ⟨none, ms, turn, i, held, by simp [serve, hnone], rfl, hms, by simp [Request.states], by simp [Request.picked]⟩
  | traverse e => exact ⟨none, ms, turn, _, held, rfl, rfl, hms, by simp [Request.states], by simp [Request.picked]⟩

/-! ### Runs -/

theorem exists_run_interleaved {start : List State} (hne : ms ≠ []) (hms : ∀ m ∈ ms, m.Holding start)
    (requests : List Request) (hids : Distinct ⟨.interleaved ms turn w, i⟩ start requests) :
    ∃ answers ns turn' j held, run ⟨.interleaved ms turn w, i⟩ requests = .ok (answers, ⟨.interleaved ns turn' w, j⟩) ∧
      requests.length = answers.length ∧ ns.length = ms.length ∧ (∀ n ∈ ns, n.Holding held) ∧
      Balanced start requests answers held ∧
      turn' % ms.length = (turn + (picked requests answers).length) % ms.length := by
  induction requests using List.reverseRecOn with
  | nil => exact ⟨[], ms, turn, i, start, rfl, rfl, rfl, hms, by simp [Balanced, pushed, returned], rfl⟩
  | append_singleton requests c ih =>
    obtain ⟨answers, ns, turn', j, held, hrun, hans, hlen, hns, hbal, hturn⟩ := ih hids.of_concat
    have hnodup := hids requests answers _ held (List.prefix_append requests [c]) hrun hbal
    have hns' : ns ≠ [] := List.ne_nil_of_length_pos (hlen ▸ List.length_pos_of_ne_nil hne)
    obtain ⟨a, ns', turn'', j', held', hserve, hlen', hall, hperm, hturn'⟩ :=
      exists_serve_interleaved turn' w j hns' hns hnodup c
    refine ⟨answers ++ [a], ns', turn'', j', held', run_concat hrun hserve, by simp [hans], hlen'.trans hlen, hall,
      hbal.concat hperm, ?_⟩
    rw [hlen] at hturn'
    rw [hturn', picked_concat hans, List.length_append, Nat.add_mod, hturn, ← Nat.add_mod, Nat.add_assoc]

/-- All members hold the same states after every request, nothing is given back twice, and each pick is that of the
member whose turn it is. -/
theorem run_interleaved {start : List State} (hne : ms ≠ []) (hms : ∀ m ∈ ms, m.Holding start)
    (requests : List Request) (hids : Distinct ⟨.interleaved ms turn w, i⟩ start requests) :
    ∃ answers ns turn' j held, run ⟨.interleaved ms turn w, i⟩ requests = .ok (answers, ⟨.interleaved ns turn' w, j⟩) ∧
      ns.length = ms.length ∧ (∀ n ∈ ns, n.Holding held) ∧ Balanced start requests answers held ∧
      (Selector.interleaved ns turn' w).size = held.length ∧
      ((Selector.interleaved ns turn' w).pick j = none ↔ held = []) ∧
      ∀ s t, (Selector.interleaved ns turn' w).pick j = some (s, t) →
        ∃ m m', ns[(turn + (picked requests answers).length) % ms.length]? = some m ∧ m.pick j = some (s, m') := by
  obtain ⟨answers, ns, turn', j, held, hrun, -, hlen, hns, hbal, hturn⟩ := exists_run_interleaved hne hms requests hids
  have hnodup := hids requests answers _ held (List.prefix_refl _) hrun hbal
  have hns' : ns ≠ [] := List.ne_nil_of_length_pos (hlen ▸ List.length_pos_of_ne_nil hne)
  have hholding : Selector.Holding held (.interleaved ns turn' w) := .interleaved hns' hns
  refine ⟨answers, ns, turn', j, held, hrun, hlen, hns, hbal, hholding.size_eq, ?_, ?_⟩
  · constructor
    · intro hnone
      by_contra hnil
      obtain ⟨_, _, _, _, -, -, -, hpick, -⟩ := exists_pick_in_turn turn' w j hns' hns hnodup hnil
      rw [hnone] at hpick
      cases hpick
    · rintro rfl
      exact hholding.pick_nil j
  · intro s t hpick
    have hnil : held ≠ [] := by
      rintro rfl
      rw [hholding.pick_nil j] at hpick
      cases hpick
    obtain ⟨m, m', x, _, hm, hmember, -, hpick', -⟩ := exists_pick_in_turn turn' w j hns' hns hnodup hnil
    rw [hpick] at hpick'
    cases hpick'
    rw [hlen, hturn] at hm
    exact ⟨m, m', hm, hmember⟩

/-- Oldest first and newest first in turns. -/
def bothEnds : List Selector := [.single (.queue .oldest .distance []) {}, .single (.queue .newest .distance []) {}]

def alternating : List Request :=
  [.push { id := 1 }, .pushAll [{ id := 2 }, { id := 3 }], .push { id := 4 }, .pick, .remove 3, .pick, .remove 3]

theorem holding_bothEnds : ∀ m ∈ bothEnds, m.Holding [] := by
  intro m hm
  simp only [bothEnds, List.mem_cons, List.not_mem_nil, or_false] at hm
  rcases hm with rfl | rfl
  · exact .single (List.Perm.refl _) trivial
  · exact .single (List.Perm.refl _) trivial

theorem run_interleaved_bothEnds :
    bothEnds ≠ [] ∧ (∀ m ∈ bothEnds, m.Holding []) ∧
      Distinct ⟨.interleaved bothEnds 0 {}, { graph := .line 2 }⟩ [] alternating ∧
      ∃ answers ns turn' j held, run ⟨.interleaved bothEnds 0 {}, { graph := .line 2 }⟩ alternating =
          .ok (answers, ⟨.interleaved ns turn' {}, j⟩) ∧
        ns.length = bothEnds.length ∧ (∀ n ∈ ns, n.Holding held) ∧ Balanced [] alternating answers held ∧
        (Selector.interleaved ns turn' {}).size = held.length ∧
        ((Selector.interleaved ns turn' {}).pick j = none ↔ held = []) ∧
        ∀ s t, (Selector.interleaved ns turn' {}).pick j = some (s, t) →
          ∃ m m', ns[(0 + (picked alternating answers).length) % bothEnds.length]? = some m ∧ m.pick j = some (s, m') :=
  have hne : bothEnds ≠ [] := List.cons_ne_nil _ _
  have hids : Distinct ⟨.interleaved bothEnds 0 {}, { graph := .line 2 }⟩ [] alternating :=
    distinct_of_nodup (by decide)
  ⟨hne, holding_bothEnds, hids, run_interleaved hne holding_bothEnds alternating hids⟩

-- The first pick takes the oldest state, the second the newest.
example : (run ⟨.interleaved bothEnds 0 {}, { graph := .line 2 }⟩ alternating).map (·.1.map (·.map State.id)) =
    .ok [none, none, none, some 1, some 3, some 4, none] := by
  decide +kernel

end Session

end Symex
