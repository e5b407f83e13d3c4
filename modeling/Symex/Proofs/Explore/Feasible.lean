import Symex.Proofs.Explore.Exhaustive
import Symex.Proofs.Machine.Trace

/-!
# Only feasible states are executed

A state is checked when it is picked, and only if it assumed something since it was last known to be feasible. That is
enough: a child that is not marked for a check assumes exactly what its parent assumed, and the parent was feasible
when it was stepped. So whatever waits in a selector is marked or feasible, in every round and for every selector.
-/

namespace Symex

/-! ### What a selector holds -/

namespace Selector

/-- Every state that is held has a property. -/
inductive Only (inv : State → Prop) : Selector → Prop
  | single {f : Frontier} {w : Wiring} (held : ∀ s ∈ f.toList, inv s) : Only inv (.single f w)
  | interleaved {ms : List Selector} {turn : Nat} {w : Wiring} (members : ∀ m ∈ ms, Only inv m) :
    Only inv (.interleaved ms turn w)

variable {inv : State → Prop} {s s' : Selector}

/-! ### The members of an interleaved selector -/

section Members

variable {ms : List Selector} {turn : Nat} {w : Wiring}

theorem push_interleaved {x : State} (hs : (interleaved ms turn w).push x = .ok s') :
    ∃ ns, s' = .interleaved ns turn w ∧ ∀ n ∈ ns, ∃ m ∈ ms, m.push x = .ok n := by
  obtain ⟨ns, hns, he⟩ := bind_eq_ok.mp hs
  rw [pushEach_eq] at hns
  exact ⟨ns, (pure_eq_ok.mp he).symm, fun n hn => mem_of_mapM hns hn⟩

theorem pushAll_interleaved {xs : List State} (hs : (interleaved ms turn w).pushAll xs = .ok s') :
    ∃ ns, s' = .interleaved ns turn w ∧ ∀ n ∈ ns, ∃ m ∈ ms, m.pushAll xs = .ok n := by
  obtain ⟨ns, hns, he⟩ := bind_eq_ok.mp hs
  rw [pushAllEach_eq] at hns
  exact ⟨ns, (pure_eq_ok.mp he).symm, fun n hn => mem_of_mapM hns hn⟩

/-- One member picks, and the others remove what it has picked. -/
theorem pick_interleaved {i : Instruments} {x : State} (hs : (interleaved ms turn w).pick i = some (x, s')) :
    ∃ ns turn', s' = .interleaved ns turn' w ∧ ∃ m ∈ ms, ∃ n, m.pick i = some (x, n) ∧
      ∀ n' ∈ ns, n' ∈ (removeEach x.id ms).2 ∨ n' = n := by
  rw [Selector.pick] at hs
  obtain ⟨j, -, hj⟩ := List.exists_of_findSome?_eq_some hs
  obtain ⟨⟨y, n⟩, hr, he⟩ := Option.map_eq_some_iff.mp hj
  cases he
  rw [pickEach_eq, List.getElem?_map] at hr
  cases hm : ms[j]? with
  | none =>
    rw [hm] at hr
    cases hr
  | some m =>
    rw [hm] at hr
    exact ⟨_, _, rfl, m, List.mem_of_getElem? hm, n, hr, fun n' hn' => List.mem_or_eq_of_mem_set hn'⟩

end Members

theorem Only.push (h : Only inv s) {x : State} (hx : inv x) (hs : s.push x = .ok s') : Only inv s' := by
  induction h generalizing s' with
  | @single f w held =>
    obtain ⟨g, hg, he⟩ := bind_eq_ok.mp hs
    rw [← pure_eq_ok.mp he]
    refine .single fun y hy => ?_
    rw [Frontier.toList_push hg, List.mem_append, List.mem_singleton] at hy
    rcases hy with hy | rfl
    · exact held y hy
    · exact hx
  | interleaved members ih =>
    obtain ⟨ns, rfl, hns⟩ := push_interleaved hs
    refine .interleaved fun n hn => ?_
    obtain ⟨m, hm, hmn⟩ := hns n hn
    exact ih m hm hmn

theorem Only.pushAll (h : Only inv s) {xs : List State} (hxs : ∀ x ∈ xs, inv x) (hs : s.pushAll xs = .ok s') :
    Only inv s' := by
  induction h generalizing s' with
  | @single f w held =>
    obtain ⟨g, hg, he⟩ := bind_eq_ok.mp hs
    rw [← pure_eq_ok.mp he]
    refine .single fun y hy => ?_
    rw [Frontier.toList_pushAll hg, List.mem_append] at hy
    rcases hy with hy | hy
    · exact held y hy
    · exact hxs y hy
  | interleaved members ih =>
    obtain ⟨ns, rfl, hns⟩ := pushAll_interleaved hs
    refine .interleaved fun n hn => ?_
    obtain ⟨m, hm, hmn⟩ := hns n hn
    exact ih m hm hmn

/-- A member that has nothing to give up is taken as it is. -/
theorem mem_removeEach {id : Nat} {ms : List Selector} {n : Selector} (h : n ∈ (removeEach id ms).2) :
    (n ∈ ms ∧ n.remove id = none) ∨ ∃ m ∈ ms, ∃ x, m.remove id = some (x, n) := by
  induction ms with
  | nil => cases h
  | cons m ms ih =>
    have hrest : n ∈ (removeEach id ms).2 →
        (n ∈ m :: ms ∧ n.remove id = none) ∨ ∃ m' ∈ m :: ms, ∃ x, m'.remove id = some (x, n) := by
      intro hn
      rcases ih hn with ⟨hn, hnone⟩ | ⟨m', hm', hx⟩
      · exact Or.inl ⟨List.mem_cons_of_mem _ hn, hnone⟩
      · exact Or.inr ⟨m', List.mem_cons_of_mem _ hm', hx⟩
    rw [removeEach] at h
    cases hm : m.remove id with
    | none =>
      rw [hm] at h
      rcases List.mem_cons.mp h with rfl | hn
      · exact Or.inl ⟨List.mem_cons_self, hm⟩
      · exact hrest hn
    | some r =>
      rw [hm] at h
      rcases List.mem_cons.mp h with rfl | hn
      · exact Or.inr ⟨m, List.mem_cons_self, r.1, hm⟩
      · exact hrest hn

theorem Only.removeEach {id : Nat} {ms : List Selector} (h : ∀ m ∈ ms, Only inv m)
    (hr : ∀ m ∈ ms, ∀ {x n}, m.remove id = some (x, n) → Only inv n) : ∀ n ∈ (removeEach id ms).2, Only inv n := by
  intro n hn
  rcases mem_removeEach hn with ⟨hn, -⟩ | ⟨m, hm, x, hx⟩
  · exact h n hn
  · exact hr m hm hx

theorem Only.remove (h : Only inv s) {id : Nat} {x : State} (hs : s.remove id = some (x, s')) : Only inv s' := by
  induction h generalizing x s' with
  | @single f w held =>
    obtain ⟨r, hr, he⟩ := Option.map_eq_some_iff.mp hs
    cases he
    exact .single fun y hy => held y ((Frontier.remove_perm hr).mem_iff.mp (List.mem_cons_of_mem _ hy))
  | @interleaved ms turn w members ih =>
    obtain ⟨r, -, he⟩ := Option.map_eq_some_iff.mp hs
    cases he
    exact .interleaved (Only.removeEach members fun m hm => ih m hm)

theorem Only.pick (h : Only inv s) {i : Instruments} {x : State} (hs : s.pick i = some (x, s')) :
    inv x ∧ Only inv s' := by
  induction h generalizing x s' with
  | @single f w held =>
    obtain ⟨r, hr, he⟩ := Option.map_eq_some_iff.mp hs
    cases he
    have hp := Frontier.pick_perm hr
    exact ⟨held _ (hp.mem_iff.mp List.mem_cons_self),
      .single fun y hy => held y (hp.mem_iff.mp (List.mem_cons_of_mem _ hy))⟩
  | interleaved members ih =>
    obtain ⟨ns, turn', rfl, m, hm, n, hr, hns⟩ := pick_interleaved hs
    obtain ⟨hx, hn⟩ := ih m hm hr
    refine ⟨hx, .interleaved fun n' hn' => ?_⟩
    rcases hns n' hn' with hn' | rfl
    · exact Only.removeEach members (fun m hm => (members m hm).remove) n' hn'
    · exact hn

end Selector

/-! ### Marks -/

namespace State

/-- Nothing is assumed, or what is assumed can be satisfied as far as the solver can tell. -/
def Feasible (limit : Nat) (s : State) : Prop := s.path.hard = [] ∨ (Solver.check limit s.path false).isSome = true

/-- Marked for a check, or feasible. -/
def Cleared (limit : Nat) (s : State) : Prop := s.pending = true ∨ s.Feasible limit

end State

namespace Explore

variable {α : Type}

/-- A child assumes no more than its parent, unless it is marked for a check. -/
def Setup.Defers (p : Setup α) : Prop := ∀ n s, ∀ t ∈ (p.step n s).1, t.pending = true ∨ t.path = s.path

/-- The engines: one that follows the links of a graph, and one that runs a probe. -/
inductive Engine where
  | walker (w : Walker)
  | machine (m : Machine) (p : Probe)

namespace Engine

def step : Engine → Nat → State → List State × Nat
  | walker w => w.step
  | machine m p => m.step p

/-- The state that an exploration begins with. -/
def initial : Engine → Nat → State
  | walker _ => Walker.initial
  | machine _ p => Machine.enter p

def setup (e : Engine) (limit : Nat) (visit : State → α → Except Fault (α × Bool)) : Setup α :=
  { limit, step := e.step, visit }

end Engine

end Explore

theorem Walker.deferred_step (w : Walker) (n : Nat) (s : State) :
    ∀ t ∈ (w.step n s).1, t.pending = true ∨ t.path = s.path := by
  intro t ht
  obtain ⟨b, l, -, rfl⟩ := mem_step ht
  rw [child_eq]
  cases hguards : w.guardsOf ⟨s.location, l⟩ with
  | nil => exact Or.inr rfl
  | cons a as => exact Or.inl rfl

/-- A run ends with a status, which neither marks a state nor adds to what it assumes. -/
theorem Machine.deferred_finish {x : Exec} {r : Run} (h : x.Leads r) (last : Bool) :
    ((finish last r).state.pending = true ∨ (finish last r).state.path = x.state.path) ∧
      ∀ s ∈ (finish last r).siblings, s ∈ x.siblings ∨ s.pending = true := by
  cases r with
  | error y => exact ⟨h.deferred.imp_right And.right, h.unchecked⟩
  | ok y =>
    cases last with
    | false => exact ⟨h.deferred.imp_right And.right, h.unchecked⟩
    | true => exact ⟨h.deferred.imp_right And.right, h.unchecked⟩

theorem Machine.deferred_step (m : Machine) (p : Probe) (n : Nat) (s : State) :
    ∀ t ∈ (m.step p n s).1, t.pending = true ∨ t.path = s.path := by
  intro t ht
  unfold step at ht
  cases hstmt : p.body[s.location]? with
  | none =>
    rw [hstmt] at ht
    cases ht
  | some stmt =>
    rw [hstmt] at ht
    obtain ⟨hstate, hsiblings⟩ := deferred_finish
      (m.leads_exec { state := s.fork n 0 (s.location + 1), next := n + 1 } stmt) (s.location + 1 = p.body.length)
    rcases List.mem_cons.mp ht with rfl | ht
    · exact hstate
    · exact Or.inl ((hsiblings t ht).resolve_left List.not_mem_nil)

namespace Explore

theorem Engine.defers (e : Engine) (limit : Nat) (visit : State → α → Except Fault (α × Bool)) :
    (e.setup limit visit).Defers := by
  intro n s
  cases e with
  | walker w => exact w.deferred_step n s
  | machine m p => exact m.deferred_step p n s

/-- Nothing is assumed at the beginning. -/
theorem Engine.cleared_initial (e : Engine) (limit id : Nat) : (e.initial id).Cleared limit := by
  cases e with
  | walker w => exact Or.inr (Or.inl rfl)
  | machine m p => exact Or.inr (Or.inl rfl)

/-! ### Rounds -/

/-- What is done to a state is the same in both setups: the step if it is running, the visit if it is at its end. -/
structure Setup.Agrees (p q : Setup α) (s : State) : Prop where
  step : s.isTerminal = false → ∀ n, q.step n s = p.step n s
  visit : s.isTerminal = true → ∀ a, q.visit s a = p.visit s a

namespace Progress

variable {p q : Setup α} {x y : Progress α} {s : State}

theorem advance_congr (h : p.Agrees q s) (x : Progress α) : x.advance q s = x.advance p s := by
  unfold advance
  cases hs : s.isTerminal with
  | true => simp [finish, h.visit hs]
  | false => simp [expand, h.step hs]

/-- What is counted and what is held after a state was executed. -/
theorem advance_eq_ok {why : Option Ending} (h : x.advance p s = .ok (y, why)) :
    y.tally.visited = x.tally.visited ++ [s.id] ∧
      (y.selector = x.selector ∨ x.selector.pushAll (p.step x.nextId s).1 = .ok y.selector) := by
  unfold advance at h
  cases hs : s.isTerminal with
  | true =>
    rw [hs, if_pos rfl] at h
    obtain ⟨r, -, he⟩ := bind_eq_ok.mp h
    cases he
    exact ⟨rfl, Or.inl rfl⟩
  | false =>
    rw [hs, if_neg Bool.false_ne_true] at h
    obtain ⟨z, hz, he⟩ := bind_eq_ok.mp h
    cases he
    obtain ⟨selector, hpush, he⟩ := bind_eq_ok.mp hz
    cases he
    exact ⟨rfl, Or.inr hpush⟩

theorem round_congr (hlimit : q.limit = p.limit) (h : ∀ s, x.entered? p = some s → p.Agrees q s) :
    x.round q = x.round p := by
  cases hpick : x.selector.pick x.instruments with
  | none => simp [round, hpick]
  | some r =>
    have hentered := h { r.1 with pending := false }
    simp only [entered?, hpick, Option.bind_some] at hentered
    simp only [round, hpick, hlimit]
    cases hpend : r.1.pending with
    | true =>
      cases hfeasible : Solver.feasible p.limit r.1.path with
      | false => rfl
      | true => exact advance_congr (hentered (by simp [hfeasible])) _
    | false =>
      have hr : ({ r.1 with pending := false } : State) = r.1 := by rw [← hpend]
      rw [hr] at hentered
      exact advance_congr (hentered (by simp [hpend])) _

/-- A round executes only a feasible state, counts it, and leaves only states that are feasible or marked. -/
theorem round_spec (hp : p.Defers) (hx : x.selector.Only (State.Cleared p.limit)) :
    (∀ s, x.entered? p = some s → s.Feasible p.limit) ∧
      ∀ y why, x.round p = .ok (y, why) → y.selector.Only (State.Cleared p.limit) ∧
        y.tally.visited = x.tally.visited ++ (x.entered? p).toList.map State.id := by
  cases hpick : x.selector.pick x.instruments with
  | none =>
    have hnone : x.entered? p = none := by simp [entered?, hpick]
    have hround : x.round p = .ok (x, some .exhausted) := by simp [round, hpick]
    rw [hnone, hround]
    refine ⟨fun s hs => (by cases hs), fun y why h => ?_⟩
    cases h
    exact ⟨hx, (List.append_nil _).symm⟩
  | some r =>
    obtain ⟨s, selector⟩ := r
    obtain ⟨hs, hsel⟩ := hx.pick hpick
    rcases round_cases p hpick with ⟨-, -, hnone, hround⟩ | ⟨hcheck, hsome, checks, hround⟩
    · rw [hnone, hround]
      refine ⟨fun s hs => (by cases hs), fun y why h => ?_⟩
      cases h
      exact ⟨hsel, (List.append_nil _).symm⟩
    · have hfeasible : s.Feasible p.limit := by
        rcases hs with hpend | hs
        · exact Or.inr (hcheck hpend)
        · exact hs
      rw [hsome, hround]
      constructor
      · intro t ht
        cases ht
        exact hfeasible
      · intro y why h
        obtain ⟨hvisited, hkept⟩ := advance_eq_ok h
        refine ⟨?_, hvisited⟩
        rcases hkept with hkept | hpush
        · rw [hkept]
          exact hsel
        · refine hsel.pushAll (fun t ht => ?_) hpush
          -- A child that is not marked assumes what the state assumed that was just found feasible.
          refine (hp _ _ t ht).imp_right fun hpath => ?_
          unfold State.Feasible
          rw [hpath]
          exact hfeasible

/-! ### Runs -/

/-- The states that are executed in at most so many rounds: stepped, or handed to the caller. If a round fails, the
state that it failed with was executed. -/
def executed (p : Setup α) : Nat → Progress α → List State
  | 0, _ => []
  | n + 1, x =>
    if x.shouldStop then []
    else (x.entered? p).toList ++ match x.round p with
      | .ok (y, none) => executed p n y
      | _ => []

theorem loop_congr (hlimit : q.limit = p.limit) (n : Nat) (x : Progress α)
    (h : ∀ s ∈ x.executed p n, p.Agrees q s) : x.loop q n = x.loop p n := by
  induction n generalizing x with
  | zero => rfl
  | succ n ih =>
    rw [loop, loop]
    rw [executed] at h
    cases hstop : x.shouldStop with
    | true => rw [if_pos rfl, if_pos rfl]
    | false =>
      simp only [hstop, Bool.false_eq_true, if_false] at h ⊢
      have hentered : ∀ s, x.entered? p = some s → p.Agrees q s := fun s hs =>
        h s (List.mem_append_left _ (Option.mem_toList.mpr hs))
      rw [round_congr hlimit hentered]
      cases hr : x.round p with
      | error e => rfl
      | ok r =>
        obtain ⟨y, why⟩ := r
        cases why with
        | some why => rfl
        | none =>
          rw [hr] at h
          exact ih y fun s hs => h s (List.mem_append_right _ hs)

theorem loop_spec (hp : p.Defers) (n : Nat) {x : Progress α} (hx : x.selector.Only (State.Cleared p.limit)) :
    (∀ s ∈ x.executed p n, s.Feasible p.limit) ∧
      ∀ y why, x.loop p n = .ok (y, why) → y.selector.Only (State.Cleared p.limit) ∧
        y.tally.visited = x.tally.visited ++ (x.executed p n).map State.id := by
  induction n generalizing x with
  | zero =>
    refine ⟨fun s hs => (by cases hs), fun y why h => ?_⟩
    cases h
    exact ⟨hx, (List.append_nil _).symm⟩
  | succ n ih =>
    obtain ⟨hentered, hround⟩ := round_spec hp hx
    rw [executed, loop]
    cases hstop : x.shouldStop with
    | true =>
      refine ⟨fun s hs => (by cases hs), fun y why h => ?_⟩
      cases h
      exact ⟨hx, (List.append_nil _).symm⟩
    | false =>
      simp only [Bool.false_eq_true, if_false]
      cases hr : x.round p with
      | error e =>
        refine ⟨fun s hs => ?_, fun y why h => by cases h⟩
        rw [List.append_nil, Option.mem_toList] at hs
        exact hentered s hs
      | ok r =>
        obtain ⟨y, why⟩ := r
        obtain ⟨hy, hvisited⟩ := hround y why hr
        cases why with
        | some why =>
          refine ⟨fun s hs => ?_, fun z why' h => ?_⟩
          · rw [List.append_nil, Option.mem_toList] at hs
            exact hentered s hs
          · cases h
            rw [List.append_nil]
            exact ⟨hy, hvisited⟩
        | none =>
          obtain ⟨hexecuted, hloop⟩ := ih hy
          refine ⟨fun s hs => ?_, fun z why' h => ?_⟩
          · rcases List.mem_append.mp hs with hs | hs
            · exact hentered s (Option.mem_toList.mp hs)
            · exact hexecuted s hs
          · obtain ⟨hz, hvisited'⟩ := hloop z why' h
            refine ⟨hz, ?_⟩
            rw [hvisited', hvisited, List.map_append, List.append_assoc]

/-- The states that are executed in a run from a state on. -/
def executedFrom (p : Setup α) (rounds : Nat) (x : Progress α) (initial : State) : List State :=
  match x.selector.push initial with
  | .ok selector => { x with selector }.executed p rounds
  | .error _ => []

end Progress

/-- No infeasible state is executed, by either engine and with any selector, and what waits after a run can be left
waiting for the next one. The executed states are those that are counted, and no others matter: a run in which these
are treated alike is the same run. -/
theorem Engine.executes_feasible (e : Engine) (limit : Nat) (visit : State → α → Except Fault (α × Bool))
    (rounds : Nat) (x : Progress α) (id : Nat) (hx : x.selector.Only (State.Cleared limit)) :
    (∀ s ∈ x.executedFrom (e.setup limit visit) rounds (e.initial id), s.Feasible limit) ∧
    (∀ y why, x.run (e.setup limit visit) rounds (e.initial id) = .ok (y, why) →
      y.selector.Only (State.Cleared limit) ∧ y.tally.visited =
        x.tally.visited ++ (x.executedFrom (e.setup limit visit) rounds (e.initial id)).map State.id) ∧
    ∀ q : Setup α, q.limit = limit →
      (∀ s ∈ x.executedFrom (e.setup limit visit) rounds (e.initial id), (e.setup limit visit).Agrees q s) →
      x.run q rounds (e.initial id) = x.run (e.setup limit visit) rounds (e.initial id) := by
  unfold Progress.executedFrom Progress.run
  cases hpush : x.selector.push (e.initial id) with
  | error f =>
    refine ⟨fun s hs => ?_, fun y why h => ?_, fun q _ _ => rfl⟩
    · cases hs
    · cases h
  | ok selector =>
    have hsel := hx.push (e.cleared_initial limit id) hpush
    obtain ⟨hfeasible, hran⟩ := Progress.loop_spec (e.defers limit visit) rounds (x := { x with selector }) hsel
    exact ⟨hfeasible, hran, fun q hlimit hq => Progress.loop_congr hlimit rounds _ hq⟩

/-- Two constructors of which the second cannot return where the first one did. -/
def narrowing : Engine :=
  let low : Method := .constructor "A" [.int]
  let high : Method := .constructor "B" [.int]
  .machine { methods := [(low, [.require 0 .lt 5]), (high, [.require 0 .ge 5])] }
    { name := "narrowing"
      params := [⟨"p0", .int⟩]
      body := [.construct "r0" low ["p0"], .construct "r1" high ["p0"]] }

/-- An exploration of a line that takes its states from both ends in turn. -/
def fromBothEnds : Progress (List State) :=
  { selector := .interleaved [.single (.queue .oldest .distance []) {}, .single (.queue .newest .distance []) {}] 0 {}
    instruments := { graph := .line 2 }
    nextId := 1
    result := [] }

/-- Of the five states the one behind both constructors is not executed. -/
theorem executes_feasible_narrowing :
    fromBothEnds.selector.Only (State.Cleared 100) ∧
    (fromBothEnds.executedFrom (narrowing.setup 100 (Walker.gather none)) 10 (narrowing.initial 0)).map
      (fun s => (s.id, s.path.hard.length)) = [(0, 0), (1, 2), (2, 2), (4, 3)] ∧
    ∀ s ∈ fromBothEnds.executedFrom (narrowing.setup 100 (Walker.gather none)) 10 (narrowing.initial 0),
      s.Feasible 100 := by
  have hempty : fromBothEnds.selector.Only (State.Cleared 100) := by
    exact .interleaved (List.forall_mem_cons.mpr ⟨.single nofun, List.forall_mem_singleton.mpr (.single nofun)⟩)
  refine ⟨hempty, by decide +kernel, ?_⟩
  exact (narrowing.executes_feasible 100 (Walker.gather none) 10 fromBothEnds 0 hempty).1

end Explore

end Symex
