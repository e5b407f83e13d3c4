import Symex.Explore.Graph
import Symex.Proofs.Explore.Routes
import Symex.Proofs.Frontier.Held
import Symex.Proofs.Stats.Meters

/-!
# Exhaustive explorations

An exploration of a graph that is neither stopped nor satisfied visits exactly the viable routes, each once, in
whatever order its selector gives them out. So two such explorations count the same and hand over the same states.
-/

namespace Symex

theorem foldl_assume (as : List Atom) (s : State) :
    as.foldl State.assume s =
      { s with
        path := { s.path with hard := as.foldl Path.addTo s.path.hard }
        pending := s.pending || !as.isEmpty } := by
  induction as generalizing s with
  | nil => simp
  | cons a as ih => simp [ih, State.assume, Path.addHard]

/-! ### States along routes -/

namespace Walker

/-- The status of a state that took a route. The first state has not arrived anywhere. -/
def statusAt (w : Walker) (r : List Nat) : Status := if r ≠ [] ∧ w.degree r = 0 then .returned else .running

/-- What can be told of a state apart from its number: the route, the location, the status and what is assumed. -/
def outline (s : State) : List Nat × Nat × Status × List Atom := (s.trail, s.location, s.status, s.path.hard)

def outlineAt (w : Walker) (r : List Nat) : List Nat × Nat × Status × List Atom :=
  (r, (w.graph.follow 0 r).getD 0, w.statusAt r, w.facts r)

/-- A state stands where its trail leads, and has assumed what is assumed on the way. -/
structure Stands (w : Walker) (s : State) : Prop where
  location : w.graph.follow 0 s.trail = some s.location
  hard : s.path.hard = w.facts s.trail
  status : s.status = w.statusAt s.trail

variable {w : Walker} {s : State}

theorem Stands.degree (h : w.Stands s) : w.degree s.trail = (w.graph.successors s.location).length := by
  simp [Walker.degree, h.location]

theorem Stands.outline_eq (h : w.Stands s) : outline s = w.outlineAt s.trail := by
  simp [outline, outlineAt, h.location, h.status, h.hard]

theorem Stands.isTerminal (h : w.Stands s) : s.isTerminal = (w.statusAt s.trail != .running) := by
  rw [State.isTerminal, h.status]

theorem Stands.degree_of_isTerminal (h : w.Stands s) (hs : s.isTerminal = true) : w.degree s.trail = 0 := by
  rw [h.isTerminal, statusAt] at hs
  split at hs
  next hc => exact hc.2
  next => simp at hs

theorem Stands.feasible (h : w.Stands s) (limit : Nat) :
    Solver.feasible limit s.path = Solver.feasible limit { hard := w.facts s.trail } := by
  simp [Solver.feasible, h.hard]

theorem stands_initial (w : Walker) (id : Nat) : w.Stands (initial id) :=
  ⟨rfl, rfl, by simp [initial, statusAt]⟩

theorem child_eq (w : Walker) (s : State) (id b t : Nat) :
    w.child s id b t =
      { s with
        id
        edge := some ⟨s.location, t⟩
        location := t
        trail := s.trail ++ [b]
        path := { s.path with hard := (w.guardsOf ⟨s.location, t⟩).foldl Path.addTo s.path.hard }
        pending := !(w.guardsOf ⟨s.location, t⟩).isEmpty
        status := if w.graph.isExit t then .returned else s.status } := by
  unfold child
  rw [foldl_assume]
  split <;> rename_i hc <;> simp [State.fork]

theorem Stands.child (h : w.Stands s) (hs : s.isTerminal = false) {b t : Nat}
    (ht : (w.graph.successors s.location)[b]? = some t) (id : Nat) : w.Stands (w.child s id b t) := by
  have hl : w.graph.follow 0 (s.trail ++ [b]) = some t := by
    rw [Graph.follow_snoc, h.location]
    exact ht
  have hrun : s.status = .running := by simpa [State.isTerminal] using hs
  rw [child_eq]
  refine ⟨hl, ?_, ?_⟩
  · show (w.guardsOf ⟨s.location, t⟩).foldl Path.addTo s.path.hard = w.facts (s.trail ++ [b])
    rw [facts_snoc h.location ht, h.hard]
  · show (if w.graph.isExit t then Status.returned else s.status) = w.statusAt (s.trail ++ [b])
    simp [statusAt, Walker.degree, hl, hrun, Graph.isExit]

/-! A state that is stepped gives one child for each route that goes one branch further. -/

theorem mem_step {n : Nat} {c : State} (h : c ∈ (w.step n s).1) :
    ∃ b t, (w.graph.successors s.location)[b]? = some t ∧ c = w.child s (n + b) b t := by
  obtain ⟨b, hb, rfl⟩ := List.mem_mapIdx.mp h
  exact ⟨b, _, List.getElem?_eq_getElem hb, rfl⟩

theorem Stands.trails_step (h : w.Stands s) (n : Nat) : (w.step n s).1.map State.trail = w.onward s.trail := by
  refine List.ext_getElem (by simp [Walker.step, onward, h.degree]) ?_
  intro b hb hb'
  simp [Walker.step, onward, child_eq]

theorem Stands.step_of_isTerminal (h : w.Stands s) (hs : s.isTerminal = true) (n : Nat) : w.step n s = ([], n) := by
  have hnil : w.graph.successors s.location = [] := by
    rw [← List.length_eq_zero_iff, ← h.degree]
    exact h.degree_of_isTerminal hs
  simp [Walker.step, hnil]

theorem Stands.step (h : w.Stands s) {n : Nat} {c : State} (hc : c ∈ (w.step n s).1) : w.Stands c := by
  cases hend : s.isTerminal with
  | true =>
    rw [h.step_of_isTerminal hend] at hc
    cases hc
  | false =>
    obtain ⟨b, t, ht, rfl⟩ := mem_step hc
    exact h.child hend ht _

theorem Stands.pending_step (h : w.Stands s) {n : Nat} {c : State} (hc : c ∈ (w.step n s).1) :
    c.pending = true ↔ w.gained c.trail ≠ [] := by
  obtain ⟨b, t, ht, rfl⟩ := mem_step hc
  simp [child_eq, gained_snoc h.location ht]

theorem nodup_ids_step (w : Walker) (n : Nat) (s : State) : ((w.step n s).1.map State.id).Nodup := by
  have hids : (w.step n s).1.map State.id = (List.range (w.graph.successors s.location).length).map (n + ·) := by
    refine List.ext_getElem (by simp [Walker.step]) ?_
    intro b hb hb'
    simp [Walker.step, child_eq]
  rw [hids]
  exact List.nodup_range.map fun a b hab => Nat.add_left_cancel hab

theorem id_of_mem_step {n : Nat} {c : State} (hc : c ∈ (w.step n s).1) : n ≤ c.id ∧ c.id < (w.step n s).2 := by
  obtain ⟨b, t, ht, rfl⟩ := mem_step hc
  have hb := (List.getElem?_eq_some_iff.mp ht).1
  simp only [child_eq, Walker.step]
  omega

theorem edges_step (w : Walker) (n : Nat) (s : State) :
    ((w.step n s).1.filterMap (·.edge)).length = (w.step n s).1.length := by
  refine List.filterMap_length_eq_length.mpr ?_
  intro c hc
  obtain ⟨b, t, -, rfl⟩ := mem_step hc
  simp [child_eq]

theorem length_step (w : Walker) (n : Nat) (s : State) :
    (w.step n s).1.length = (w.graph.successors s.location).length := by
  simp [step]

end Walker

/-! ### The step limit -/

namespace Selector

theorem limits_foldl_traverse (s : Selector) (es : List Edge) {i : Instruments} {l : StepLimit}
    (h : i.limits[s.wiring.limit]? = some l) :
    (es.foldl (fun i e => s.traverse e i) i).limits[s.wiring.limit]? =
      some { l with steps := l.steps + es.length } := by
  induction es generalizing i l with
  | nil => exact h
  | cons e es ih =>
    have hone : (s.traverse e i).limits[s.wiring.limit]? = some l.traverse := by
      rw [traverse, Instruments.limits_traverse, List.getElem?_modify_eq, h]
      rfl
    have hsteps : l.steps + 1 + es.length = l.steps + (es.length + 1) := by omega
    rw [List.foldl_cons, ih hone]
    simp [StepLimit.traverse, hsteps]

end Selector

/-! ### The states that are visited -/

namespace Explore.Progress

variable {α : Type}

/-- A selector that holds nothing yet and has a step limit. -/
structure Ready (x : Progress α) : Prop where
  empty : x.selector.Holding []
  limited : ∃ l, x.instruments.limits[x.selector.wiring.limit]? = some l

theorem ready_of_build {roll : Option Nat → Dice} {b : Blueprint} (hb : b.Bare) {i : Instruments} (hi : i.Consistent)
    {x : Progress α} (h : b.build roll i = (.ok x.selector, x.instruments)) : x.Ready := by
  obtain ⟨-, hlt, hempty⟩ := hb.holding_build hi h
  exact ⟨hempty, _, List.getElem?_eq_getElem hlt⟩

/-- The state that the next round counts as visited, if it counts one. -/
def entered? (p : Setup α) (x : Progress α) : Option State :=
  (x.selector.pick x.instruments).bind fun r =>
    if r.1.pending && !Solver.feasible p.limit r.1.path then none else some { r.1 with pending := false }

/-- A round in which a state is picked drops it or goes on with it. -/
theorem round_cases (p : Setup α) {x : Progress α} {s : State} {selector : Selector}
    (h : x.selector.pick x.instruments = some (s, selector)) :
    (s.pending = true ∧ Solver.feasible p.limit s.path = false ∧ x.entered? p = none ∧
      x.round p = .ok (({ x with selector, tally := { x.tally with checks := x.tally.checks + 1 } } :
        Progress α).drop, none)) ∨
    ((s.pending = true → Solver.feasible p.limit s.path = true) ∧
      x.entered? p = some { s with pending := false } ∧
      ∃ checks, x.round p = ({ x with selector, tally := { x.tally with checks } } : Progress α).advance p
        { s with pending := false }) := by
  unfold round
  rw [entered?, h]
  by_cases hpend : s.pending = true
  · by_cases hsat : Solver.feasible p.limit s.path = true
    · exact Or.inr ⟨fun _ => hsat, by simp [hsat], x.tally.checks + 1, by simp [hpend, hsat]⟩
    · exact Or.inl ⟨hpend, Bool.eq_false_iff.mpr hsat, by simp [hpend, hsat], by simp [hpend, hsat]⟩
  · have hsame : ({ s with pending := false } : State) = s := by
      rw [← Bool.eq_false_iff.mpr hpend]
    refine Or.inr ⟨fun hp => absurd hp hpend, by simp [hpend], x.tally.checks, ?_⟩
    rw [hsame]
    simp [hpend]

theorem expand_eq {p : Setup α} {x : Progress α} {s : State} {selector : Selector}
    (h : x.selector.pushAll (p.step x.nextId s).1 = .ok selector) :
    x.expand p s = .ok
      { x with
        selector
        instruments := ((p.step x.nextId s).1.filterMap (·.edge)).foldl (fun i e => x.selector.traverse e i)
          x.instruments
        nextId := (p.step x.nextId s).2
        tally := { x.tally with
          forks := if 1 < (p.step x.nextId s).1.length then x.tally.forks + 1 else x.tally.forks } } := by
  show (x.selector.pushAll (p.step x.nextId s).1 >>= _) = _
  rw [h]
  rfl

/-- The states that are visited in at most so many rounds. -/
def entries (p : Setup α) : Nat → Progress α → List State
  | 0, _ => []
  | n + 1, x =>
    if x.shouldStop then []
    else match x.round p with
      | .ok (y, none) => (x.entered? p).toList ++ entries p n y
      | .ok (_, some _) => (x.entered? p).toList
      | .error _ => []

end Explore.Progress

namespace Walker

open Explore

variable {w : Walker} {limit : Nat}

/-- The counts of an exploration that visited some states and dropped others. -/
def counts (w : Walker) (visited : List State) (dropped : List (List Nat)) (checks : Nat) : Tally :=
  { steps := visited.length
    forks := visited.countP fun s => 1 < w.degree s.trail
    dropped := dropped.length
    terminated := visited.countP State.isTerminal
    visited := visited.map State.id
    checks }

/-- A state that is visited makes room for its children. One that is at its end has none, so that it need not be
told apart here. -/
theorem exists_advance (limit : Nat) {x : Progress (List State)} {held : List State}
    (hsel : x.selector.Holding held) {s : State} (hs : w.Stands s) {l : StepLimit}
    (hl : x.instruments.limits[x.selector.wiring.limit]? = some l) :
    ∃ y, x.advance (w.setup limit none) s = .ok (y, none) ∧
      y.selector.Holding (held ++ (w.step x.nextId s).1) ∧
      y.selector.wiring = x.selector.wiring ∧
      y.nextId = (w.step x.nextId s).2 ∧
      y.tally = { x.tally with
        steps := x.tally.steps + 1
        forks := x.tally.forks + [s].countP fun s => 1 < w.degree s.trail
        terminated := x.tally.terminated + [s].countP State.isTerminal
        visited := x.tally.visited ++ [s.id] } ∧
      y.result = x.result ++ [s].filter State.isTerminal ∧
      y.instruments.limits[x.selector.wiring.limit]? =
        some { l with steps := l.steps + (w.step x.nextId s).1.length } := by
  unfold Progress.advance
  cases hend : s.isTerminal with
  | true =>
    have hdeg := hs.degree_of_isTerminal hend
    rw [hs.step_of_isTerminal hend]
    refine ⟨_, rfl, ?_, rfl, rfl, ?_, ?_, hl⟩
    · rw [List.append_nil]
      exact hsel
    · simp [Progress.enter, hend, hdeg]
    · simp [Progress.enter, hend]
  | false =>
    obtain ⟨sel, hpush, hwire, hhold⟩ := hsel.exists_pushAll (w.step x.nextId s).1
    have hexpand : (x.enter s).expand (w.setup limit none) s = .ok
        { x with
          selector := sel
          instruments := ((w.step x.nextId s).1.filterMap (·.edge)).foldl
            (fun i e => x.selector.traverse e i) x.instruments
          nextId := (w.step x.nextId s).2
          tally := { (x.enter s).tally with
            forks := if 1 < (w.step x.nextId s).1.length then x.tally.forks + 1 else x.tally.forks } } :=
      Progress.expand_eq hpush
    rw [if_neg (by simp), hexpand]
    refine ⟨_, rfl, hhold, hwire, rfl, ?_, ?_, ?_⟩
    · rw [length_step, ← hs.degree]
      by_cases hfork : 1 < w.degree s.trail
      · simp [Progress.enter, hend, hfork]
      · simp [Progress.enter, hend, hfork]
    · simp [hend]
    · rw [Selector.limits_foldl_traverse x.selector _ hl, edges_step]

variable (w) in
/-- States with numbers of their own below `next`, as they come out of a step: each stands at the end of its route, and
is to be checked exactly if it gained guards. -/
structure Waiting (next : Nat) (left : List State) : Prop where
  ids : (left.map State.id).Nodup
  below : ∀ s ∈ left, s.id < next
  stands : ∀ s ∈ left, w.Stands s
  pending : ∀ s ∈ left, (s.pending = true ↔ w.gained s.trail ≠ [])

theorem Waiting.erase {next : Nat} {left : List State} (h : w.Waiting next left) (s : State) :
    w.Waiting next (left.erase s) := by
  have hsub : ∀ t ∈ left.erase s, t ∈ left := fun t ht => List.mem_of_mem_erase ht
  refine ⟨h.ids.sublist (List.erase_sublist.map _), ?_, ?_, ?_⟩
  · exact fun t ht => h.below t (hsub t ht)
  · exact fun t ht => h.stands t (hsub t ht)
  · exact fun t ht => h.pending t (hsub t ht)

theorem Waiting.step {next : Nat} {left : List State} (h : w.Waiting next left) {s : State} (hs : w.Stands s) :
    w.Waiting (w.step next s).2 (left ++ (w.step next s).1) := by
  refine ⟨?_, ?_, ?_, ?_⟩
  · rw [List.map_append]
    refine List.nodup_append.mpr ⟨h.ids, nodup_ids_step w _ s, ?_⟩
    intro a ha b hb
    obtain ⟨t, ht, rfl⟩ := List.mem_map.mp ha
    obtain ⟨c, hc, rfl⟩ := List.mem_map.mp hb
    have hlt := h.below t ht
    have hge := (id_of_mem_step hc).1
    omega
  · intro t ht
    rcases List.mem_append.mp ht with ht | ht
    · exact Nat.lt_of_lt_of_le (h.below t ht) (Nat.le_add_right _ _)
    · exact (id_of_mem_step ht).2
  · intro t ht
    rcases List.mem_append.mp ht with ht | ht
    · exact h.stands t ht
    · exact hs.step ht
  · intro t ht
    rcases List.mem_append.mp ht with ht | ht
    · exact h.pending t ht
    · exact hs.pending_step ht

variable (w limit) in
/-- An exploration that has visited some states, dropped those on some routes, and holds the others that it came
across. Each of them but the first was reported to the step limit. -/
structure Tracks (start : StepLimit) (visited : List State) (dropped : List (List Nat)) (left : List State)
    (x : Progress (List State)) : Prop where
  holding : x.selector.Holding left
  waiting : w.Waiting x.nextId left
  stands : ∀ s ∈ visited, w.Stands s
  survey : w.Survey limit (visited.map State.trail) dropped (left.map State.trail)
  tally : x.tally = w.counts visited dropped x.tally.checks
  result : x.result = visited.filter State.isTerminal
  limited : ∃ l, x.instruments.limits[x.selector.wiring.limit]? = some l ∧ l.limit = start.limit ∧
    l.steps + 1 = start.steps + (visited.length + dropped.length + left.length)

namespace Tracks

variable {start : StepLimit} {visited left : List State} {dropped : List (List Nat)} {x : Progress (List State)}
  {s : State} {selector : Selector}

theorem drop (h : w.Tracks limit start visited dropped left x) (hs : s ∈ left)
    (hsel : selector.Holding (left.erase s)) (hwire : selector.wiring = x.selector.wiring)
    (hr : w.Refuted limit s.trail) (checks : Nat) :
    w.Tracks limit start visited (dropped ++ [s.trail]) (left.erase s)
      ({ x with selector, tally := { x.tally with checks } } : Progress (List State)).drop := by
  have hp : left.Perm (s :: left.erase s) := List.perm_cons_erase hs
  obtain ⟨l, hl, hlimit, hsteps⟩ := h.limited
  refine ⟨hsel, h.waiting.erase s, h.stands, ?_, ?_, h.result, l, ?_, hlimit, ?_⟩
  · exact h.survey.drop (hp.map State.trail) hr
  · have htally := h.tally
    simp only [Progress.drop]
    rw [htally]
    simp [counts]
  · show x.instruments.limits[selector.wiring.limit]? = some l
    rw [hwire]
    exact hl
  · have hlen := hp.length_eq
    simp only [List.length_cons] at hlen
    rw [List.length_append, List.length_singleton]
    omega

theorem enter (h : w.Tracks limit start visited dropped left x) (hs : s ∈ left)
    (hsel : selector.Holding (left.erase s)) (hwire : selector.wiring = x.selector.wiring)
    (hr : ¬ w.Refuted limit s.trail) (checks : Nat) :
    ∃ y, ({ x with selector, tally := { x.tally with checks } } : Progress (List State)).advance
        (w.setup limit none) { s with pending := false } = .ok (y, none) ∧
      w.Tracks limit start (visited ++ [{ s with pending := false }]) dropped
        (left.erase s ++ (w.step x.nextId { s with pending := false }).1) y := by
  have hp : left.Perm (s :: left.erase s) := List.perm_cons_erase hs
  have hstands := h.waiting.stands s hs
  obtain ⟨l, hl, hlimit, hsteps⟩ := h.limited
  generalize ht : ({ s with pending := false } : State) = t
  have htrail : t.trail = s.trail := ht ▸ rfl
  have htstands : w.Stands t := ht ▸ ⟨hstands.location, hstands.hard, hstands.status⟩
  obtain ⟨y, hy, hhold, hwire', hnext, htally, hresult, hlim⟩ := exists_advance limit
    (x := { x with selector, tally := { x.tally with checks } }) hsel htstands (hwire ▸ hl)
  refine ⟨y, hy, hhold, ?_, ?_, ?_, ?_, ?_, { l with steps := l.steps + (w.step x.nextId t).1.length },
    hwire' ▸ hlim, hlimit, ?_⟩
  · rw [hnext]
    exact (h.waiting.erase s).step htstands
  · intro u hu
    rcases List.mem_append.mp hu with hu | hu
    · exact h.stands u hu
    · exact List.mem_singleton.mp hu ▸ htstands
  · rw [List.map_append, List.map_append, htstands.trails_step, htrail]
    simp only [List.map_cons, List.map_nil, htrail]
    exact h.survey.enter (hp.map State.trail) hr
  · rw [htally, h.tally]
    simp [counts]
  · rw [hresult, List.filter_append, h.result]
  · have hlen := hp.length_eq
    simp only [List.length_cons] at hlen
    simp only [List.length_append, List.length_cons, List.length_nil]
    omega

theorem shouldStop_iff (h : w.Tracks limit start visited dropped left x) :
    x.shouldStop = true ↔ start.limit + 1 < start.steps + (visited.length + dropped.length + left.length) := by
  obtain ⟨l, hl, hlimit, hsteps⟩ := h.limited
  simp only [Progress.shouldStop, Selector.shouldStop, Instruments.isSpent, hl, Option.map_some, Option.getD_some,
    StepLimit.shouldStop, decide_eq_true_eq]
  omega

theorem round_nil (h : w.Tracks limit start visited dropped [] x) :
    x.round (w.setup limit none) = .ok (x, some .exhausted) ∧ x.entered? (w.setup limit none) = none := by
  have hpick := h.holding.pick_nil x.instruments
  constructor
  · unfold Progress.round
    rw [hpick]
  · rw [Progress.entered?, hpick]
    rfl

/-- In a round one state that is held is visited or dropped. -/
theorem exists_round (h : w.Tracks limit start visited dropped left x) (hl : left ≠ []) :
    ∃ y visited' dropped' left', x.round (w.setup limit none) = .ok (y, none) ∧
      visited' = visited ++ (x.entered? (w.setup limit none)).toList ∧
      visited'.length + dropped'.length = visited.length + dropped.length + 1 ∧
      w.Tracks limit start visited' dropped' left' y := by
  obtain ⟨s, sel, hpick, hs, hwire, hsel⟩ := h.holding.exists_pick h.waiting.ids hl x.instruments
  have hstands := h.waiting.stands s hs
  have hfeasible := hstands.feasible limit
  rcases Progress.round_cases (w.setup limit none) hpick with
    ⟨hpend, hsat, hnone, hround⟩ | ⟨hok, hsome, checks, hround⟩
  · have hr : w.Refuted limit s.trail := ⟨(h.waiting.pending s hs).mp hpend, hfeasible ▸ hsat⟩
    refine ⟨_, visited, _, _, hround, ?_, ?_, h.drop hs hsel hwire hr _⟩
    · simp [hnone]
    · simp
      omega
  · have hr : ¬ w.Refuted limit s.trail := by
      intro hr
      have hsat : Solver.feasible limit s.path = true := hok ((h.waiting.pending s hs).mpr hr.1)
      rw [hfeasible, hr.2] at hsat
      cases hsat
    obtain ⟨y, hy, ht⟩ := h.enter hs hsel hwire hr checks
    refine ⟨y, _, _, _, hround.trans hy, ?_, ?_, ht⟩
    · simp [hsome]
    · simp
      omega

/-- By induction on the rounds. An exploration is late only after as many states were visited or dropped as there
were rounds. -/
theorem exists_loop (h : w.Tracks limit start visited dropped left x) (n : Nat) :
    ∃ y e dropped' left', x.loop (w.setup limit none) n = .ok (y, e) ∧
      w.Tracks limit start (visited ++ x.entries (w.setup limit none) n) dropped' left' y ∧
      ((e = .exhausted ∧ left' = []) ∨ (e = .stopped ∧ y.shouldStop = true) ∨
        (e = .late ∧ y.shouldStop = false ∧
          visited.length + dropped.length + n =
            (visited ++ x.entries (w.setup limit none) n).length + dropped'.length)) := by
  induction n generalizing visited dropped left x with
  | zero =>
    rw [Progress.loop, Progress.entries, List.append_nil]
    cases hstop : x.shouldStop with
    | true => exact ⟨x, _, _, _, rfl, h, Or.inr (Or.inl ⟨rfl, hstop⟩)⟩
    | false => exact ⟨x, _, _, _, rfl, h, Or.inr (Or.inr ⟨rfl, hstop, rfl⟩)⟩
  | succ n ih =>
    rw [Progress.loop, Progress.entries]
    cases hstop : x.shouldStop with
    | true =>
      rw [if_pos rfl, if_pos rfl, List.append_nil]
      exact ⟨x, _, _, _, rfl, h, Or.inr (Or.inl ⟨rfl, hstop⟩)⟩
    | false =>
      rw [if_neg (by simp), if_neg (by simp)]
      by_cases hl : left = []
      · subst hl
        obtain ⟨hround, hnone⟩ := h.round_nil
        rw [hround, hnone]
        refine ⟨x, .exhausted, dropped, [], rfl, ?_, Or.inl ⟨rfl, rfl⟩⟩
        simpa using h
      · obtain ⟨y, visited', dropped', left', hround, rfl, hlen, ht⟩ := h.exists_round hl
        obtain ⟨z, e, dropped'', left'', hloop, hz, hend⟩ := ih ht
        rw [hround]
        rw [List.append_assoc] at hz hend
        refine ⟨z, e, dropped'', left'', hloop, hz, ?_⟩
        rcases hend with hend | hend | ⟨he, hgo, hcount⟩
        · exact Or.inl hend
        · exact Or.inr (Or.inl hend)
        · refine Or.inr (Or.inr ⟨he, hgo, Eq.trans ?_ hcount⟩)
          omega

end Tracks

/-! ### Whole explorations -/

/-- An exploration at its start. -/
def restart (x : Progress (List State)) : Progress (List State) :=
  { x with result := [], nextId := x.nextId + 1, tally := { checks := x.tally.checks } }

/-- The states that an exploration of the graph visits, in their order, if nobody has enough of them. -/
def visits (w : Walker) (limit : Nat) (x : Progress (List State)) : List State :=
  match x.selector.push (initial x.nextId) with
  | .ok selector =>
    { restart x with selector }.entries (w.setup limit none) ((restart x).rounds w.graph.maxDegree)
  | .error _ => []

theorem lt_rounds {x : Progress (List State)} {held : List State} (hsel : x.selector.Holding held) {l : StepLimit}
    (hl : x.instruments.limits[x.selector.wiring.limit]? = some l) (degree : Nat) :
    l.limit + 1 - l.steps < (restart x).rounds degree := by
  have hrounds : (restart x).rounds degree = x.selector.load +
      x.selector.frontiers.length * (l.limit + 1 - l.steps + degree + 1) + 1 := by
    simp only [Progress.rounds, restart, hl, Option.map_some, Option.getD_some]
  have hmul := Nat.le_mul_of_pos_left (l.limit + 1 - l.steps + degree + 1) hsel.frontiers_pos
  omega

theorem tracks_start {x : Progress (List State)} {start : StepLimit} {selector : Selector}
    (hsel : selector.Holding [initial x.nextId]) (hl : x.instruments.limits[selector.wiring.limit]? = some start) :
    w.Tracks limit start [] [] [initial x.nextId] { restart x with selector } := by
  refine ⟨hsel, ⟨List.nodup_singleton _, ?_, ?_, ?_⟩, nofun, Survey.start w limit, rfl, rfl, start, hl, rfl, rfl⟩
  · intro s hs
    rw [List.mem_singleton.mp hs]
    exact Nat.lt_succ_self _
  · intro s hs
    rw [List.mem_singleton.mp hs]
    exact stands_initial w _
  · intro s hs
    rw [List.mem_singleton.mp hs]
    exact ⟨nofun, fun hgain => absurd rfl hgain⟩

/-- The step limit leaves room for every route there is. -/
def Affords (w : Walker) (x : Progress (List State)) : Prop :=
  ∃ l, x.instruments.limits[x.selector.wiring.limit]? = some l ∧
    l.steps + {r | (w.graph.follow 0 r).isSome}.ncard ≤ l.limit + 1

/-- An exploration that began as `x` and ended as `y` has visited the viable routes and no others, each of them once,
and has handed over the states at their end. -/
structure Covers (w : Walker) (limit : Nat) (x y : Progress (List State)) : Prop where
  counted : y.tally.visited = (w.visits limit x).map State.id
  stands : ∀ s ∈ w.visits limit x, w.Stands s
  once : ((w.visits limit x).map State.trail).Nodup
  viable : ∀ r, r ∈ (w.visits limit x).map State.trail ↔ w.Viable limit r
  handed : y.result = (w.visits limit x).filter State.isTerminal

namespace Tracks

variable {start : StepLimit} {visited : List State} {dropped : List (List Nat)} {x y : Progress (List State)}

theorem covers (h : w.Tracks limit start (w.visits limit x) dropped [] y) : w.Covers limit x y := by
  have hd := List.nodup_append.mp (List.nodup_append.mp h.survey.distinct).1
  exact ⟨by rw [h.tally]; rfl, h.stands, hd.1, fun r => h.survey.mem_visited_iff, h.result⟩

theorem not_shouldStop {left : List State} (h : w.Tracks limit start visited dropped left y)
    (hw : w.graph.AcyclicFrom 0) (hroom : start.steps + {r | (w.graph.follow 0 r).isSome}.ncard ≤ start.limit + 1) :
    y.shouldStop = false := by
  rw [Bool.eq_false_iff]
  intro hstop
  have hlt := h.shouldStop_iff.mp hstop
  have hle := h.survey.length_le hw
  simp only [List.length_append, List.length_map] at hle
  omega

/-! What an exploration counts and hands over can be told from the routes that it visited. -/

theorem forks_eq {left : List State} (h : w.Tracks limit start visited dropped left y) :
    y.tally.forks = (visited.map State.trail).countP fun r => 1 < w.degree r := by
  rw [h.tally, List.countP_map]
  rfl

theorem terminated_eq {left : List State} (h : w.Tracks limit start visited dropped left y) :
    y.tally.terminated = (visited.map State.trail).countP fun r => w.statusAt r != .running := by
  rw [h.tally, List.countP_map]
  refine List.countP_congr ?_
  intro s hs
  rw [(h.stands s hs).isTerminal]
  rfl

theorem outlines_eq {left : List State} (h : w.Tracks limit start visited dropped left y) :
    y.result.map outline =
      ((visited.map State.trail).filter fun r => w.statusAt r != .running).map w.outlineAt := by
  rw [h.result, List.filter_map, List.map_map]
  have hfilter : visited.filter State.isTerminal =
      visited.filter ((fun r => w.statusAt r != .running) ∘ State.trail) :=
    List.filter_congr fun s hs => (h.stands s hs).isTerminal
  rw [hfilter]
  refine List.map_congr_left ?_
  intro s hs
  exact (h.stands s (List.mem_filter.mp hs).1).outline_eq

end Tracks

/-- An exploration ends before its rounds do: there are more of them than the step limit has room for states. -/
theorem exists_explore (limit : Nat) (hw : w.graph.AcyclicFrom 0) {x : Progress (List State)} (hx : x.Ready) :
    ∃ y e, w.explore limit none none x = .ok (y, e) ∧ (w.Affords x → e ≠ .stopped) ∧
      (e ≠ .stopped → e = .exhausted ∧ ∃ start dropped, w.Tracks limit start (w.visits limit x) dropped [] y) := by
  obtain ⟨start, hstart⟩ := hx.limited
  obtain ⟨sel, hpush, hwire, hsel⟩ := hx.empty.exists_push (initial x.nextId)
  have htracks : w.Tracks limit start [] [] [initial x.nextId] { restart x with selector := sel } :=
    tracks_start hsel (hwire ▸ hstart)
  obtain ⟨y, e, dropped, left, hloop, ht, hend⟩ := htracks.exists_loop ((restart x).rounds w.graph.maxDegree)
  have hvisits : w.visits limit x = { restart x with selector := sel }.entries (w.setup limit none)
      ((restart x).rounds w.graph.maxDegree) := by
    rw [visits, hpush]
  rw [List.nil_append, ← hvisits] at ht hend
  refine ⟨y, e, ?_, ?_, ?_⟩
  · show (x.selector.push (initial x.nextId) >>= _) = _
    rw [hpush]
    exact hloop
  · rintro ⟨l, hl, hroom⟩ rfl
    cases hstart.symm.trans hl
    have hgo := ht.not_shouldStop hw hroom
    rcases hend with ⟨he, -⟩ | ⟨-, hstop⟩ | ⟨he, -⟩
    · cases he
    · simp [hgo] at hstop
    · cases he
  · intro hne
    rcases hend with ⟨he, hleft⟩ | ⟨he, -⟩ | ⟨-, hgo, hcount⟩
    · exact ⟨he, start, dropped, hleft ▸ ht⟩
    · exact absurd he hne
    · have hroom := mt ht.shouldStop_iff.mpr (by simp [hgo])
      have hrounds := lt_rounds hx.empty hstart w.graph.maxDegree
      simp only [List.length_nil] at hcount
      omega

/-- The order of the picks is the only thing that a selector decides. Two explorations of a graph without a reachable
cycle, neither of which is stopped by its step limit, count the same steps, forks, dropped and terminated states, and
hand over the same states up to their numbers and order; what each has visited are the viable routes. A step limit with
room for all routes does not stop an exploration. -/
theorem explore_ignores_selector (w : Walker) (limit : Nat) (hw : w.graph.AcyclicFrom 0)
    {x₁ x₂ : Progress (List State)} (h₁ : x₁.Ready) (h₂ : x₂.Ready) :
    ∃ y₁ e₁ y₂ e₂, w.explore limit none none x₁ = .ok (y₁, e₁) ∧ w.explore limit none none x₂ = .ok (y₂, e₂) ∧
      (w.Affords x₁ → e₁ ≠ .stopped) ∧ (w.Affords x₂ → e₂ ≠ .stopped) ∧
      (e₁ ≠ .stopped → e₁ = .exhausted ∧ w.Covers limit x₁ y₁) ∧
      (e₂ ≠ .stopped → e₂ = .exhausted ∧ w.Covers limit x₂ y₂) ∧
      (e₁ ≠ .stopped → e₂ ≠ .stopped →
        y₁.tally.steps = y₂.tally.steps ∧ y₁.tally.forks = y₂.tally.forks ∧
        y₁.tally.dropped = y₂.tally.dropped ∧ y₁.tally.terminated = y₂.tally.terminated ∧
        (y₁.result.map outline).Perm (y₂.result.map outline)) := by
  obtain ⟨y₁, e₁, hrun₁, hroom₁, hend₁⟩ := exists_explore limit hw h₁
  obtain ⟨y₂, e₂, hrun₂, hroom₂, hend₂⟩ := exists_explore limit hw h₂
  refine ⟨y₁, e₁, y₂, e₂, hrun₁, hrun₂, hroom₁, hroom₂, ?_, ?_, ?_⟩
  · intro hgo
    obtain ⟨he, start, dropped, ht⟩ := hend₁ hgo
    exact ⟨he, ht.covers⟩
  · intro hgo
    obtain ⟨he, start, dropped, ht⟩ := hend₂ hgo
    exact ⟨he, ht.covers⟩
  · intro hgo₁ hgo₂
    obtain ⟨-, start₁, dropped₁, ht₁⟩ := hend₁ hgo₁
    obtain ⟨-, start₂, dropped₂, ht₂⟩ := hend₂ hgo₂
    obtain ⟨hvisited, hdropped⟩ := ht₁.survey.visited_perm ht₂.survey
    refine ⟨?_, ?_, ?_, ?_, ?_⟩
    · have hlen := hvisited.length_eq
      rw [List.length_map, List.length_map] at hlen
      rw [ht₁.tally, ht₂.tally]
      exact hlen
    · rw [ht₁.forks_eq, ht₂.forks_eq]
      exact hvisited.countP_eq _
    · rw [ht₁.tally, ht₂.tally]
      exact hdropped.length_eq
    · rw [ht₁.terminated_eq, ht₂.terminated_eq]
      exact hvisited.countP_eq _
    · rw [ht₁.outlines_eq, ht₂.outlines_eq]
      exact (hvisited.filter _).map _

/-- Two ways from the entry to location `3`, of which the second cannot be taken to its end. -/
def detour : Walker :=
  let i : Term := .param "i" .int
  { graph := .ofEdges 5 [⟨0, 1⟩, ⟨0, 2⟩, ⟨1, 3⟩, ⟨2, 3⟩, ⟨2, 4⟩]
    guards := [(⟨0, 2⟩, .lt i (.int 5)), (⟨2, 3⟩, .ge i (.int 5))] }

def deepFirst : Blueprint := .policy .dfs { stepLimit := some 5 } []

def mixed : Blueprint :=
  .interleaved [.policy .bfs { stepLimit := some 5 } [],
    .interleaved [.policy .randomPath { seed := some 7 } [], .policy .minimalDistance {} []] []] []

/-- An exploration of the graph above with a selector that has just been built. -/
def opening (b : Blueprint) : Progress (List State) :=
  let (selector, instruments) := b.build Dice.ofSeed { graph := detour.graph }
  { selector := selector.toOption.getD (.interleaved [] 0 {}), instruments, result := [] }

theorem explore_ignores_selector_detour : ∃ y₁ y₂,
    detour.explore 100 none none (opening deepFirst) = .ok (y₁, .exhausted) ∧
    detour.explore 100 none none (opening mixed) = .ok (y₂, .exhausted) ∧
    y₁.tally.visited ≠ y₂.tally.visited ∧ y₂.tally.dropped = 1 ∧ y₂.tally.terminated = 2 ∧
    detour.Covers 100 (opening deepFirst) y₁ ∧ detour.Covers 100 (opening mixed) y₂ ∧
    y₁.tally.steps = y₂.tally.steps ∧ y₁.tally.forks = y₂.tally.forks ∧
    y₁.tally.dropped = y₂.tally.dropped ∧ y₁.tally.terminated = y₂.tally.terminated ∧
    (y₁.result.map outline).Perm (y₂.result.map outline) := by
  have hacyclic : detour.graph.AcyclicFrom 0 := Graph.acyclicFrom_of_ascending (by decide) 0
  have hconsistent : Instruments.Consistent { graph := detour.graph } := nofun
  have hdeep : (opening deepFirst).Ready := Progress.ready_of_build (b := deepFirst) .policy hconsistent rfl
  have hmixed : (opening mixed).Ready := by
    refine Progress.ready_of_build (b := mixed) (.interleaved ?_) hconsistent rfl
    refine List.forall_mem_cons.mpr ⟨.policy, List.forall_mem_singleton.mpr (.interleaved ?_)⟩
    exact List.forall_mem_cons.mpr ⟨.policy, List.forall_mem_singleton.mpr .policy⟩
  obtain ⟨y₁, e₁, y₂, e₂, hrun₁, hrun₂, -, -, hend₁, hend₂, hsame⟩ :=
    explore_ignores_selector detour 100 hacyclic hdeep hmixed
  have hdeepRun : (detour.explore 100 none none (opening deepFirst)).map (fun r => (r.2, r.1.tally.visited)) =
      .ok (.exhausted, [0, 1, 3, 2, 5]) := by decide +kernel
  have hmixedRun : (detour.explore 100 none none (opening mixed)).map
      (fun r => (r.2, r.1.tally.visited, r.1.tally.dropped, r.1.tally.terminated)) =
      .ok (.exhausted, [0, 1, 2, 3, 5], 1, 2) := by decide +kernel
  rw [hrun₁] at hdeepRun
  rw [hrun₂] at hmixedRun
  simp only [Except.map, Except.ok.injEq, Prod.mk.injEq] at hdeepRun hmixedRun
  obtain ⟨rfl, hvisited₁⟩ := hdeepRun
  obtain ⟨rfl, hvisited₂, hdropped, hterminated⟩ := hmixedRun
  refine ⟨y₁, y₂, hrun₁, hrun₂, ?_, hdropped, hterminated, (hend₁ nofun).2, (hend₂ nofun).2, hsame nofun nofun⟩
  rw [hvisited₁, hvisited₂]
  decide

end Walker

end Symex
