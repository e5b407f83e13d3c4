import Mathlib.Data.List.Nodup
import Symex.Frontier.Build
import Symex.Proofs.Explore.Run
import Symex.Proofs.Frontier.Walks

/-!
# What a selector holds

A frontier gives out a state exactly if it holds one, whatever its policy and whatever is drawn. In an interleaving
all frontiers hold the same states: a state that is pushed goes to all of them, and one that is picked is taken out
of all of them. So a selector of any kind acts as one list of states from which some state is picked, and only the
order of the picks is its own.
-/

namespace Symex

/-! ### Frontiers -/

theorem takeFirst_holds {α : Type} {p : α → Bool} {as : List α} {r : α × List α} (h : takeFirst p as = some r) :
    p r.1 = true := by
  induction as generalizing r with
  | nil => cases h
  | cons b as ih =>
    rw [takeFirst] at h
    split at h
    next hb =>
      cases h
      exact hb
    next =>
      obtain ⟨u, hu, he⟩ := Option.map_eq_some_iff.mp h
      cases he
      exact ih (r := u) hu

theorem Batches.id_of_remove {id : Nat} {bs : List Batch} {r : State × List Batch}
    (h : Batches.remove id bs = some r) : r.1.id = id := by
  induction bs generalizing r with
  | nil => cases h
  | cons b bs ih =>
    rw [Batches.remove] at h
    split at h
    next u hu =>
      cases h
      have hid := takeFirst_holds hu
      exact eq_of_beq hid
    next =>
      obtain ⟨u, hu, he⟩ := Option.map_eq_some_iff.mp h
      cases he
      exact ih (r := u) hu

namespace Frontier

theorem pick_isSome {i : Instruments} {f : Frontier} : (f.pick i).isSome ↔ f.toList ≠ [] := by
  cases f with
  | queue o r bs =>
    cases o with
    | oldest => simp [pick, toList, Batches.pick_isSome]
    | newest =>
      rw [pick, Option.isSome_map, Batches.pick_isSome]
      simp [toList]
  | ranked r ss => simp [pick, toList, takeLeast_isSome]
  | uniform d ss =>
    cases ss with
    | nil => simp [pick, toList]
    | cons s ss =>
      have hlt := Dice.below_lt (n := (s :: ss).length) (Nat.succ_pos _) d
      have hsome := takeAt_isSome.mpr hlt
      simpa [pick, toList] using hsome
  | walk d ss =>
    cases ss with
    | nil => simp [pick, toList, Walk.take, Walk.position, Walk.descend]
    | cons s ss =>
      have hin : ∀ n (d : Dice), 0 < n → (d.below n).1 < n := fun n d hn => d.below_lt hn
      obtain ⟨k, a, draws, u, -, htake, -⟩ := Walk.exists_take State.trail hin (List.cons_ne_nil s ss) d
      simp [pick_walk htake, toList]
  | weighted r d ss =>
    cases ss with
    | nil => simp [pick, toList]
    | cons s ss =>
      have hne : (s :: ss).map (weight i r) ≠ [] := by simp
      have hlt := d.among_lt hne
      rw [List.length_map] at hlt
      have hsome := takeAt_isSome.mpr hlt
      simpa [pick, toList] using hsome
  | scored sc es n => simp [pick, toList, takeLeast_isSome]

theorem id_of_remove {id : Nat} {f g : Frontier} {s : State} (h : f.remove id = some (s, g)) : s.id = id := by
  cases f with
  | queue o r bs =>
    obtain ⟨u, hu, he⟩ := Option.map_eq_some_iff.mp h
    cases he
    exact Batches.id_of_remove hu
  | _ =>
    obtain ⟨u, hu, he⟩ := Option.map_eq_some_iff.mp h
    cases he
    have hid := takeFirst_holds hu
    exact eq_of_beq hid

end Frontier

/-! ### Selectors -/

namespace Selector

/-- Every frontier of the selector holds the states of `l`, and can judge whatever comes. No interleaving is
without members. -/
inductive Holding (l : List State) : Selector → Prop
  | single {f : Frontier} {w : Wiring} (held : f.toList.Perm l) (judges : f.Judges fun _ => True) :
    Holding l (.single f w)
  | interleaved {ms : List Selector} {turn : Nat} {w : Wiring} (members : ms ≠ [])
    (held : ∀ m ∈ ms, Holding l m) : Holding l (.interleaved ms turn w)

variable {l : List State} {s : Selector}

theorem Holding.frontiers_pos (h : Holding l s) : 0 < s.frontiers.length := by
  induction h with
  | single held judges => exact Nat.one_pos
  | @interleaved ms turn w members held ih =>
    cases ms with
    | nil => exact absurd rfl members
    | cons m ms =>
      have hm := ih m List.mem_cons_self
      rw [frontiers, frontiersEach, List.length_append]
      omega

/-! A push is done to every member. -/

theorem pushEach_eq (x : State) (ms : List Selector) : pushEach x ms = ms.mapM fun m => m.push x := by
  induction ms with
  | nil => rfl
  | cons m ms ih =>
    rw [pushEach, List.mapM_cons, ih]

theorem pushAllEach_eq (xs : List State) (ms : List Selector) :
    pushAllEach xs ms = ms.mapM fun m => m.pushAll xs := by
  induction ms with
  | nil => rfl
  | cons m ms ih =>
    rw [pushAllEach, List.mapM_cons, ih]

theorem exists_mapM_holding {f : Selector → Except Fault Selector} {l' : List State} {ms : List Selector}
    (hne : ms ≠ []) (h : ∀ m ∈ ms, ∃ n, f m = .ok n ∧ n.wiring = m.wiring ∧ Holding l' n) :
    ∃ ns, ms.mapM f = .ok ns ∧ ns ≠ [] ∧ ∀ n ∈ ns, Holding l' n := by
  obtain ⟨ns, hns⟩ := exists_mapM fun m hm => (h m hm).imp fun n hn => hn.1
  refine ⟨ns, hns, ?_, ?_⟩
  · have hlen := (mapM_eq_ok.mp hns).length_eq
    exact List.ne_nil_of_length_pos (hlen ▸ List.length_pos_of_ne_nil hne)
  · intro n hn
    obtain ⟨m, hm, hmn⟩ := mem_of_mapM hns hn
    obtain ⟨n', hn', -, hh⟩ := h m hm
    cases hmn.symm.trans hn'
    exact hh

theorem Holding.exists_push (h : Holding l s) (x : State) :
    ∃ s', s.push x = .ok s' ∧ s'.wiring = s.wiring ∧ Holding (l ++ [x]) s' := by
  induction h with
  | @single f w held judges =>
    obtain ⟨g, hg, hj⟩ := judges.exists_push (s := x) trivial
    refine ⟨.single g w, bind_eq_ok.mpr ⟨g, hg, rfl⟩, rfl, .single ?_ hj⟩
    rw [Frontier.toList_push hg]
    exact held.append_right [x]
  | @interleaved ms turn w members held ih =>
    obtain ⟨ns, hns, hne, hall⟩ := exists_mapM_holding members ih
    rw [← pushEach_eq] at hns
    exact ⟨.interleaved ns turn w, bind_eq_ok.mpr ⟨ns, hns, rfl⟩, rfl, .interleaved hne hall⟩

theorem Holding.exists_pushAll (h : Holding l s) (xs : List State) :
    ∃ s', s.pushAll xs = .ok s' ∧ s'.wiring = s.wiring ∧ Holding (l ++ xs) s' := by
  induction h with
  | @single f w held judges =>
    obtain ⟨g, hg, hj⟩ := judges.exists_pushAll fun (y : State) (_ : y ∈ xs) => trivial
    refine ⟨.single g w, bind_eq_ok.mpr ⟨g, hg, rfl⟩, rfl, .single ?_ hj⟩
    rw [Frontier.toList_pushAll hg]
    exact held.append_right xs
  | @interleaved ms turn w members held ih =>
    obtain ⟨ns, hns, hne, hall⟩ := exists_mapM_holding members ih
    rw [← pushAllEach_eq] at hns
    exact ⟨.interleaved ns turn w, bind_eq_ok.mpr ⟨ns, hns, rfl⟩, rfl, .interleaved hne hall⟩

/-! A removal takes a state out of every member. -/

theorem exists_removeEach {id : Nat} {x : State} {l' : List State} {ms : List Selector}
    (h : ∀ m ∈ ms, ∃ n, m.remove id = some (x, n) ∧ n.wiring = m.wiring ∧ Holding l' n) :
    ∃ ns, removeEach id ms = (if ms.isEmpty then none else some x, ns) ∧ ns.length = ms.length ∧
      ∀ n ∈ ns, Holding l' n := by
  induction ms with
  | nil => exact ⟨[], rfl, rfl, nofun⟩
  | cons m ms ih =>
    obtain ⟨n, hn, -, hh⟩ := h m List.mem_cons_self
    obtain ⟨ns, hns, hlen, hall⟩ := ih fun m' hm' => h m' (List.mem_cons_of_mem _ hm')
    refine ⟨n :: ns, ?_, congrArg (· + 1) hlen, ?_⟩
    · rw [removeEach, hns, hn]
      rfl
    · intro n' hn'
      rcases List.mem_cons.mp hn' with rfl | hn'
      · exact hh
      · exact hall n' hn'

/-- The numbers are different, so what is found under a number is the state that has it. -/
theorem Holding.exists_remove (h : Holding l s) (hids : (l.map State.id).Nodup) {x : State} (hx : x ∈ l) :
    ∃ s', s.remove x.id = some (x, s') ∧ s'.wiring = s.wiring ∧ Holding (l.erase x) s' := by
  induction h with
  | @single f w held judges =>
    have hsome : (f.remove x.id).isSome := by
      rw [Frontier.remove_isSome, List.any_eq_true]
      exact ⟨x, held.mem_iff.mpr hx, beq_self_eq_true x.id⟩
    obtain ⟨⟨y, g⟩, hg⟩ := Option.isSome_iff_exists.mp hsome
    have hp := (Frontier.remove_perm hg).trans held
    have hyx : y = x :=
      List.inj_on_of_nodup_map hids (hp.mem_iff.mp List.mem_cons_self) hx (Frontier.id_of_remove hg)
    subst hyx
    refine ⟨.single g w, by rw [remove, hg]; rfl, rfl, .single ?_ (judges.remove hg)⟩
    exact (List.cons_perm_iff_perm_erase.mp hp).2
  | @interleaved ms turn w members held ih =>
    obtain ⟨ns, hns, hlen, hall⟩ := exists_removeEach ih
    refine ⟨.interleaved ns turn w, ?_, rfl, .interleaved ?_ hall⟩
    · rw [remove, hns, if_neg (by simpa using members)]
      rfl
    · exact List.ne_nil_of_length_pos (hlen ▸ List.length_pos_of_ne_nil members)

/-! A pick of an interleaving is a pick of the member whose turn it is. -/

theorem pickEach_eq (i : Instruments) (ms : List Selector) : pickEach i ms = ms.map fun m => m.pick i := by
  induction ms with
  | nil => rfl
  | cons m ms ih => rw [pickEach, List.map_cons, ih]

theorem turns_pos {n : Nat} (hn : 0 < n) (k : Nat) : ∃ js, turns n k = k % n :: js := by
  obtain ⟨n, rfl⟩ := Nat.exists_eq_add_one_of_ne_zero (Nat.ne_of_gt hn)
  exact ⟨_, by rw [turns, List.range_succ_eq_map, List.map_cons, Nat.add_zero]⟩

theorem Holding.pick_nil (h : Holding [] s) (i : Instruments) : s.pick i = none := by
  generalize hl : ([] : List State) = l at h
  induction h with
  | @single f w held judges =>
    subst hl
    have hnone : ¬ (f.pick i).isSome := by
      rw [Frontier.pick_isSome, not_not]
      exact held.eq_nil
    rw [pick, Option.not_isSome_iff_eq_none.mp hnone]
    rfl
  | @interleaved ms turn w members held ih =>
    rw [pick, List.findSome?_eq_none_iff]
    intro j _
    rw [pickEach_eq, List.getElem?_map]
    cases hm : ms[j]? with
    | none => rfl
    | some m =>
      simp only [Option.map_some, Option.join_some, ih m (List.mem_of_getElem? hm)]
      rfl

/-- The member whose turn it is picks, and the others give up what it picked. -/
theorem exists_pick_interleaved {ms : List Selector} {turn : Nat} {w : Wiring} {i : Instruments} {l' : List State}
    {x : State} {m m' : Selector} (hm : ms[turn % ms.length]? = some m) (hpick : m.pick i = some (x, m'))
    (hm' : Holding l' m')
    (hremove : ∀ m ∈ ms, ∃ n, m.remove x.id = some (x, n) ∧ n.wiring = m.wiring ∧ Holding l' n) :
    ∃ ns, (interleaved ms turn w).pick i = some (x, .interleaved ns ((turn % ms.length + 1) % ms.length) w) ∧
      ns.length = ms.length ∧ ∀ n ∈ ns, Holding l' n := by
  have hpos : 0 < ms.length := List.length_pos_of_mem (List.mem_of_getElem? hm)
  obtain ⟨js, hjs⟩ := turns_pos hpos turn
  obtain ⟨ns, hns, hlen, hall⟩ := exists_removeEach hremove
  refine ⟨ns.set (turn % ms.length) m', ?_, by rw [List.length_set, hlen], ?_⟩
  · rw [pick, hjs, List.findSome?_cons, pickEach_eq, List.getElem?_map, hm, Option.map_some, Option.join_some, hpick,
      Option.map_some, hns]
  · intro n hn
    rcases List.mem_or_eq_of_mem_set hn with hn | rfl
    · exact hall n hn
    · exact hm'

theorem Holding.exists_pick (h : Holding l s) (hids : (l.map State.id).Nodup) (hl : l ≠ []) (i : Instruments) :
    ∃ x s', s.pick i = some (x, s') ∧ x ∈ l ∧ s'.wiring = s.wiring ∧ Holding (l.erase x) s' := by
  induction h with
  | @single f w held judges =>
    have hsome : (f.pick i).isSome := by
      rw [Frontier.pick_isSome]
      rintro hn
      rw [hn] at held
      exact hl held.symm.eq_nil
    obtain ⟨⟨x, g⟩, hg⟩ := Option.isSome_iff_exists.mp hsome
    have hp := List.cons_perm_iff_perm_erase.mp ((Frontier.pick_perm hg).trans held)
    exact ⟨x, .single g w, by rw [pick, hg]; rfl, hp.1, rfl, .single hp.2 (judges.pick hg)⟩
  | @interleaved ms turn w members held ih =>
    have hlt : turn % ms.length < ms.length := Nat.mod_lt _ (List.length_pos_of_ne_nil members)
    have hm := List.getElem?_eq_getElem hlt
    obtain ⟨x, m', hpick, hx, -, hh⟩ := ih ms[turn % ms.length] (List.getElem_mem hlt)
    obtain ⟨ns, hns, hlen, hall⟩ := exists_pick_interleaved (w := w) hm hpick hh
      fun m hm => (held m hm).exists_remove hids hx
    exact ⟨x, _, hns, hx, rfl, .interleaved (List.ne_nil_of_length_pos (by omega)) hall⟩

end Selector

/-! ### Selectors that have just been built -/

namespace Instruments

/-- The step limit in force is one of those there have been. -/
def Consistent (i : Instruments) : Prop := ∀ k, i.current = some k → k < i.limits.length

variable {i j : Instruments}

theorem withStatistics_limits (i : Instruments) (f : Frontier) :
    (i.withStatistics f).limits = i.limits ∧ (i.withStatistics f).current = i.current := by
  have hcoverage : i.withCoverage.limits = i.limits ∧ i.withCoverage.current = i.current := by
    unfold withCoverage
    split <;> exact ⟨rfl, rfl⟩
  have hvisits : i.withVisits.limits = i.limits ∧ i.withVisits.current = i.current := by
    unfold withVisits
    split <;> exact ⟨rfl, rfl⟩
  have hranking : ∀ r, (i.withRanking r).limits = i.limits ∧ (i.withRanking r).current = i.current := by
    intro r
    cases r with
    | distance => exact hcoverage
    | visits => exact hvisits
    | depth => exact ⟨rfl, rfl⟩
    | fresh => exact hcoverage
  cases f with
  | queue o r bs => exact hranking r
  | ranked r ss => exact hranking r
  | uniform d ss => exact ⟨rfl, rfl⟩
  | walk d ss => exact ⟨rfl, rfl⟩
  | weighted r d ss => exact hranking r
  | scored sc es n => exact hcoverage

theorem Consistent.withLimit (h : i.Consistent) {name : String} {limit : Option Nat} {k : Nat}
    (hk : i.withLimit name limit = .ok (k, j)) : j.Consistent ∧ k < j.limits.length := by
  unfold Instruments.withLimit at hk
  split at hk
  next c hc =>
    cases hk
    exact ⟨h, h k hc⟩
  next n hc =>
    cases hk
    have hlt : i.limits.length < (i.setLimit n).limits.length := by
      simp [setLimit]
    refine ⟨?_, hlt⟩
    intro k hk
    cases hk
    exact hlt
  next => cases hk

theorem Consistent.attach (h : i.Consistent) {f : Frontier} {limit : Option Nat} {s : Selector}
    (hs : i.attach f limit = .ok (s, j)) :
    j.Consistent ∧ s.wiring.limit < j.limits.length ∧ s = .single f s.wiring := by
  unfold Instruments.attach at hs
  obtain ⟨⟨k, i'⟩, hk, hs⟩ := bind_eq_ok.mp hs
  obtain ⟨hi, hlt⟩ := h.withLimit hk
  obtain ⟨hlimits, hcurrent⟩ := withStatistics_limits i' f
  cases hs
  refine ⟨?_, ?_, rfl⟩
  · intro m hm
    rw [hlimits]
    exact hi m (hcurrent ▸ hm)
  · show k < _
    rw [hlimits]
    exact hlt

end Instruments

namespace Blueprint

/-- A selector is asked for that holds nothing, and that can judge whatever comes if it scores states. -/
inductive Bare : Blueprint → Prop
  | policy {kind : Kind} {config : SelectorConfig} : Bare (.policy kind config [])
  | scoring {scorer : Scorer} {config : SelectorConfig} (judges : ∀ s, ∃ v, scorer.judge s = .ok v) :
    Bare (.scoring scorer config [])
  | interleaved {members : List Blueprint} (bare : ∀ m ∈ members, Bare m) : Bare (.interleaved members [])

variable {roll : Option Nat → Dice} {i j : Instruments} {s : Selector}

theorem furnish_nil {r : Except BuildError (Selector × Instruments)} (h : furnish [] r i = (.ok s, j)) :
    r = .ok (s, j) := by
  cases r with
  | error e => cases h
  | ok a =>
    cases h
    rfl

theorem holding_buildEach {ms : List Blueprint} (hi : i.Consistent)
    (hms : ∀ m ∈ ms, ∀ {i j : Instruments} {s : Selector}, i.Consistent → m.build roll i = (.ok s, j) →
      j.Consistent ∧ s.wiring.limit < j.limits.length ∧ s.Holding [])
    {ss : List Selector} (h : buildEach roll ms i = (.ok ss, j)) : j.Consistent ∧ ∀ s ∈ ss, s.Holding [] := by
  induction ms generalizing i ss with
  | nil =>
    cases h
    exact ⟨hi, nofun⟩
  | cons m ms ih =>
    rw [buildEach] at h
    split at h
    next => cases h
    next s i' hm =>
      obtain ⟨hi', -, hs⟩ := hms m List.mem_cons_self hi hm
      cases hrest : buildEach roll ms i' with
      | mk r k =>
        rw [hrest] at h
        cases r with
        | error e => cases h
        | ok ss' =>
          cases h
          obtain ⟨hk, hall⟩ := ih hi' (fun m' hm' => hms m' (List.mem_cons_of_mem _ hm')) hrest
          exact ⟨hk, List.forall_mem_cons.mpr ⟨hs, hall⟩⟩

theorem Bare.holding_build {b : Blueprint} (hb : b.Bare) (hi : i.Consistent) (h : b.build roll i = (.ok s, j)) :
    j.Consistent ∧ s.wiring.limit < j.limits.length ∧ s.Holding [] := by
  induction hb generalizing i j s with
  | @policy kind config =>
    obtain ⟨hj, hlt, hs⟩ := hi.attach (furnish_nil h)
    refine ⟨hj, hlt, ?_⟩
    rw [hs]
    cases kind <;> exact .single (List.Perm.refl _) trivial
  | @scoring scorer config judges =>
    obtain ⟨hj, hlt, hs⟩ := hi.attach (furnish_nil h)
    refine ⟨hj, hlt, ?_⟩
    rw [hs]
    exact .single (List.Perm.refl _) fun t _ => judges t
  | @interleaved members bare ih =>
    rw [build] at h
    split at h
    next => cases h
    next ss i' hms =>
      obtain ⟨hi', hall⟩ := holding_buildEach hi ih hms
      have hmap := furnish_nil h
      unfold Instruments.interleave at hmap
      split at hmap
      next => cases hmap
      next => cases hmap
      next ms k hne hk =>
        cases hmap
        exact ⟨hi', hi' k hk, .interleaved hne hall⟩

end Blueprint

end Symex
