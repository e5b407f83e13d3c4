import Symex.Proofs.Explore.Exhaustive

/-!
# Explorations without forks

Where every state has one child, a selector never holds more than one state, and whatever its policy is, it picks that
one. So an exploration goes down the line to its end, as long as the step limit has room for it.
-/

namespace Symex.Explore

variable {α : Type} {p : Setup α}

/-- From a state on, each state is feasible and has one child, until after `n` links one is at its end. The children
are numbered from `next` on. -/
inductive Setup.Line (p : Setup α) : Nat → Nat → State → State → Prop
  | stop {next : Nat} {s : State} (hsat : s.pending = true → Solver.feasible p.limit s.path = true)
      (hend : s.isTerminal = true) : Line p next 0 s { s with pending := false }
  | step {next next' n : Nat} {s t u : State} (hsat : s.pending = true → Solver.feasible p.limit s.path = true)
      (hgo : s.isTerminal = false) (hstep : p.step next { s with pending := false } = ([t], next'))
      (hline : Line p next' n t u) : Line p next (n + 1) s u

/-- The selector holds one state, and its step limit has room for some links. -/
structure Progress.Alone (x : Progress α) (s : State) (room : Nat) : Prop where
  holding : x.selector.Holding [s]
  limited : ∃ l, x.instruments.limits[x.selector.wiring.limit]? = some l ∧ l.steps + room ≤ l.limit

namespace Progress

variable {x : Progress α} {s : State} {room : Nat}

theorem Alone.shouldStop_eq (h : x.Alone s room) : x.shouldStop = false := by
  obtain ⟨l, hl, hroom⟩ := h.limited
  simp only [shouldStop, Selector.shouldStop, Instruments.isSpent, hl, Option.map_some, Option.getD_some,
    StepLimit.shouldStop, decide_eq_false_iff_not]
  omega

/-- The state is picked, and found feasible. -/
theorem Alone.exists_advance (h : x.Alone s room) (p : Setup α)
    (hsat : s.pending = true → Solver.feasible p.limit s.path = true) :
    ∃ y : Progress α, x.round p = y.advance p { s with pending := false } ∧ y.selector.Holding [] ∧
      y.selector.wiring = x.selector.wiring ∧ y.instruments = x.instruments ∧ y.nextId = x.nextId ∧
      y.result = x.result := by
  obtain ⟨t, selector, hpick, ht, hwire, hheld⟩ :=
    h.holding.exists_pick (List.nodup_singleton _) (List.cons_ne_nil _ _) x.instruments
  rw [List.mem_singleton] at ht
  subst ht
  rw [List.erase_cons_head] at hheld
  rcases round_cases p hpick with ⟨hpending, hunsat, -⟩ | ⟨-, -, checks, hround⟩
  · rw [hsat hpending] at hunsat
    cases hunsat
  · exact ⟨_, hround, hheld, hwire, rfl, rfl, rfl⟩

theorem advance_step (hheld : x.selector.Holding []) {l : StepLimit}
    (hl : x.instruments.limits[x.selector.wiring.limit]? = some l) (hroom : l.steps + (room + 1) ≤ l.limit)
    (hgo : s.isTerminal = false) {t : State} {next : Nat} (hstep : p.step x.nextId s = ([t], next)) :
    ∃ y, x.advance p s = .ok (y, none) ∧ y.Alone t room ∧ y.nextId = next ∧ y.result = x.result := by
  obtain ⟨selector, hpush, hwire, hheld⟩ := hheld.exists_pushAll [t]
  have hlimit := Selector.limits_foldl_traverse x.selector ([t].filterMap (·.edge)) hl
  have hedges : ([t].filterMap (·.edge)).length ≤ 1 := List.length_filterMap_le _ _
  have hchildren : p.step (x.enter s).nextId s = ([t], next) := hstep
  have hpushed : (x.enter s).selector.pushAll (p.step (x.enter s).nextId s).1 = .ok selector := by
    rw [hchildren]
    exact hpush
  have hexpand := expand_eq hpushed
  rw [hchildren] at hexpand
  have hadvance : x.advance p s = ((x.enter s).expand p s >>= fun y => pure (y, none)) := by
    rw [advance, hgo]
    rfl
  rw [hexpand] at hadvance
  rw [← hwire] at hlimit
  refine ⟨_, hadvance, ⟨hheld, _, hlimit, ?_⟩, rfl, rfl⟩
  dsimp only
  omega

theorem advance_stop (hend : s.isTerminal = true) {b : α} (hvisit : p.visit s x.result = .ok (b, true)) :
    ∃ y, x.advance p s = .ok (y, some .satisfied) ∧ y.result = b := by
  have hadvance : x.advance p s = (p.visit s x.result >>= fun e => pure
      ({ x.enter s with
          result := e.1
          tally := { (x.enter s).tally with terminated := (x.enter s).tally.terminated + 1 } },
        if e.2 then some .satisfied else none)) := by
    rw [advance, hend]
    rfl
  rw [hvisit] at hadvance
  exact ⟨_, hadvance, rfl⟩

/-- An exploration of a line hands its end to the caller. -/
theorem Alone.loop {next n : Nat} {t : State} (hline : p.Line next n s t) (h : x.Alone s n) (hnext : x.nextId = next)
    {b : α} (hvisit : p.visit t x.result = .ok (b, true)) {k : Nat} (hk : n < k) :
    ∃ y, x.loop p k = .ok (y, .satisfied) ∧ y.result = b := by
  induction hline generalizing x k with
  | @stop next s hsat hend =>
    obtain ⟨k, rfl⟩ := Nat.exists_eq_add_one_of_ne_zero (by omega : k ≠ 0)
    obtain ⟨y, hround, -, -, -, -, hresult⟩ := h.exists_advance p hsat
    obtain ⟨z, hstop, hz⟩ := advance_stop (x := y) (s := { s with pending := false }) hend (hresult ▸ hvisit)
    refine ⟨z, ?_, hz⟩
    rw [Progress.loop, h.shouldStop_eq, hround, hstop]
    rfl
  | @step next next' n s t u hsat hgo hstep hline ih =>
    obtain ⟨k, rfl⟩ := Nat.exists_eq_add_one_of_ne_zero (by omega : k ≠ 0)
    subst hnext
    obtain ⟨y, hround, hheld, hwire, hinstruments, hnext, hresult⟩ := h.exists_advance p hsat
    obtain ⟨l, hl, hroom⟩ := h.limited
    obtain ⟨z, hadvance, halone, hnext', hresult'⟩ := advance_step (x := y) (s := { s with pending := false }) hheld
      (by rw [hwire, hinstruments]; exact hl) hroom hgo (hnext ▸ hstep)
    obtain ⟨e, hloop, he⟩ := ih halone hnext' (by rw [hresult', hresult]; exact hvisit) (by omega : _ < k)
    refine ⟨e, ?_, he⟩
    rw [Progress.loop, h.shouldStop_eq, hround, hadvance]
    exact hloop

theorem run_of_line {next n : Nat} {t : State} (hline : p.Line next n s t) (hheld : x.selector.Holding [])
    (hlimit : ∃ l, x.instruments.limits[x.selector.wiring.limit]? = some l ∧ l.steps + n ≤ l.limit)
    (hnext : x.nextId = next) {b : α} (hvisit : p.visit t x.result = .ok (b, true)) {k : Nat} (hk : n < k) :
    ∃ y, x.run p k s = .ok (y, .satisfied) ∧ y.result = b := by
  obtain ⟨selector, hpush, hwire, hheld⟩ := hheld.exists_push s
  have halone : ({ x with selector } : Progress α).Alone s n := ⟨hheld, by rw [hwire]; exact hlimit⟩
  obtain ⟨y, hloop, hy⟩ := halone.loop hline hnext hvisit hk
  refine ⟨y, ?_, hy⟩
  unfold run
  rw [hpush]
  exact hloop

end Progress

end Symex.Explore
