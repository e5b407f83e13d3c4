import Symex.Proofs.Explore.Turns
import Symex.Proofs.Frontier.Interleaved

/-!
# A step limit ends an exploration

In a graph with cycles there is no end to the states that can be reached, and what waits in a selector may grow. But
every state apart from the first one came over a link that was reported, and links are reported only as long as the
step limit is not used up. So no more states can be picked than the limit has steps, with the children of one state
and the first state added.
-/

namespace Symex

namespace Explore.Progress

open Turn

variable {α : Type}

/-- A selector that holds nothing yet, with a step limit of which nothing is used up. -/
structure Fresh (limit : Nat) (x : Progress α) : Prop where
  empty : x.selector.Holding []
  limited : x.instruments.limits[x.selector.wiring.limit]? = some { limit }

/-- Every state that was pushed has been picked or is left, and each but the first was reported to the limit. -/
structure Accounts (limit : Nat) (ts : List Turn) (x : Progress α) : Prop where
  left : ∃ left, x.selector.Holding left ∧ (left.map State.id).Nodup ∧ (∀ s ∈ left, s.id < x.nextId) ∧
    ts.length + left.length = (reported ts).length + 1
  limited : x.instruments.limits[x.selector.wiring.limit]? = some { limit, steps := (reported ts).length }

variable {p : Setup α} {limit d : Nat} {ts : List Turn} {x : Progress α}

theorem Accounts.shouldStop_iff (h : x.Accounts limit ts) : x.shouldStop = true ↔ limit < (reported ts).length := by
  simp [shouldStop, Selector.shouldStop, Instruments.isSpent, h.limited, StepLimit.shouldStop]

theorem Accounts.length_le (h : x.Accounts limit ts) : ts.length ≤ (reported ts).length + 1 := by
  obtain ⟨left, -, -, -, hcount⟩ := h.left
  omega

theorem Accounts.size_eq_zero (h : x.Accounts limit ts) (hpick : x.selector.pick x.instruments = none) :
    x.selector.size = 0 := by
  obtain ⟨left, hheld, hids, -, -⟩ := h.left
  by_cases hleft : left = []
  · simp [hheld.size_eq, hleft]
  · obtain ⟨s, selector, hsome, -⟩ := hheld.exists_pick hids hleft x.instruments
    simp [hpick] at hsome

theorem Accounts.exists_round (h : x.Accounts limit ts) (hvisit : ∀ s a, ∃ r, p.visit s a = .ok r) :
    ∃ r, x.round p = .ok r := by
  obtain ⟨left, hheld, hids, -, -⟩ := h.left
  by_cases hleft : left = []
  · rw [hleft] at hheld
    exact ⟨_, by rw [round, hheld.pick_nil]⟩
  · obtain ⟨s, selector, hpick, -, -, hrest⟩ := hheld.exists_pick hids hleft x.instruments
    rcases round_cases p hpick with ⟨-, -, -, hround⟩ | ⟨-, -, checks, hround⟩
    · exact ⟨_, hround⟩
    · rw [hround, advance]
      split
      · obtain ⟨r, hr⟩ := hvisit { s with pending := false } x.result
        exact ⟨_, bind_eq_ok.mpr ⟨r, hr, rfl⟩⟩
      · obtain ⟨selector', hpush, -⟩ := hrest.exists_pushAll (p.step x.nextId { s with pending := false }).1
        exact ⟨_, bind_eq_ok.mpr ⟨_, expand_eq hpush, rfl⟩⟩

theorem keeps_accounts (hp : p.Numbers) (hd : ∀ n s, (p.step n s).1.length ≤ d) :
    Keeps p (fun ts => (reported ts).length ≤ limit + d) (Accounts limit) := by
  constructor
  · intro ts x t _ hx hgo ht
    -- The limit is not used up, and a state has no more than `d` children.
    have hroom : ¬ limit < (reported ts).length := by
      rw [← hx.shouldStop_iff, hgo]
      exact Bool.false_ne_true
    have hchildren : t.children.length ≤ d := by
      rcases (turn?_eq_some ht).2 with hnil | hstep
      · simp [hnil]
      · rw [hstep]
        exact hd _ _
    have hedges := List.length_filterMap_le (fun c : State => c.edge) t.children
    rw [reported_concat, List.length_append]
    omega
  · intro ts x y t why _ hx _ htakes
    obtain ⟨left, hheld, hids, hbelow, hcount⟩ := hx.left
    obtain ⟨selector, hpick, hpush, hreport⟩ := htakes.exchange
    have hne : left ≠ [] := by
      rintro rfl
      rw [hheld.pick_nil] at hpick
      cases hpick
    obtain ⟨s, rest, hpick', hs, hwire, hrest⟩ := hheld.exists_pick hids hne x.instruments
    cases hpick.symm.trans hpick'
    obtain ⟨pushed, hpush', hwire', hall⟩ := hrest.exists_pushAll t.children
    cases hpush.symm.trans hpush'
    have hnew := ids_of_turn? hp htakes.turn
    have hnext := htakes.nextId
    have hedges : (t.children.filterMap (·.edge)).length = t.children.length := by
      refine List.filterMap_length_eq_length.mpr fun c hc => ?_
      obtain ⟨b, hb⟩ := List.mem_iff_getElem?.mp hc
      exact (numbers_of_turn? hp htakes.turn hb).2.2
    have hbefore : ∀ c ∈ left.erase t.picked, c.id < x.nextId := fun c hc => hbelow c (List.mem_of_mem_erase hc)
    refine ⟨⟨left.erase t.picked ++ t.children, hall, ?_, ?_, ?_⟩, ?_⟩
    · rw [List.map_append]
      refine (hids.sublist (List.erase_sublist.map _)).append (hnew ▸ List.nodup_range') ?_
      intro n hold hchild
      obtain ⟨c, hc, rfl⟩ := List.mem_map.mp hold
      obtain ⟨c', hc', he⟩ := List.mem_map.mp hchild
      have hlt := hbefore c hc
      have hge := (htakes.id_bounds hp hc').1
      omega
    · intro c hc
      rcases List.mem_append.mp hc with hc | hc
      · have hlt := hbefore c hc
        omega
      · exact (htakes.id_bounds hp hc).2
    · have hlen := List.length_erase_of_mem hs
      have hpos := List.length_pos_of_mem hs
      rw [reported_concat, List.length_append, List.length_append, List.length_append, hedges, List.length_singleton]
      omega
    · have hlimited := hx.limited
      rw [← hwire] at hlimited
      rw [hwire', hreport, selector.limits_foldl_traverse _ hlimited, reported_concat, List.length_append]

/-- With a step limit every exploration ends, whatever its selector and its caller do. The number of rounds does not
matter from `limit + d + 2` on, where `d` bounds the children of a state. The limit has counted all links that were
reported. -/
theorem Fresh.exists_run (hp : p.Numbers) (hd : ∀ n s, (p.step n s).1.length ≤ d)
    (hvisit : ∀ s a, ∃ r, p.visit s a = .ok r) (hx : x.Fresh limit) {first : State} (hid : first.id < x.nextId) :
    ∃ y why turns,
      (∀ n, limit + d + 1 < n → x.run p n first = .ok (y, why) ∧ x.turnsFrom p n first = turns) ∧
      (reported turns).length ≤ limit + d ∧ turns.length ≤ limit + d + 1 ∧
      y.instruments.limits[y.selector.wiring.limit]? = some { limit, steps := (reported turns).length } ∧
      ((why = .exhausted ∧ y.selector.size = 0) ∨
        (why = .satisfied ∧ ∃ t ∈ turns, ∃ a, p.visit { t.picked with pending := false } a = .ok (y.result, true)) ∨
        (why = .stopped ∧ limit < (reported turns).length)) := by
  obtain ⟨selector, hpush, hwire, hheld⟩ := hx.empty.exists_push first
  have hstart : ({ x with selector } : Progress α).Accounts limit [] := by
    refine ⟨⟨[first], hheld, List.nodup_singleton _, ?_, rfl⟩, ?_⟩
    · simpa using hid
    · rw [hwire]
      exact hx.limited
  have hkeeps : Keeps p (fun ts => (reported ts).length ≤ limit + d) (Accounts limit) := keeps_accounts hp hd
  obtain ⟨y, why, hloop⟩ :=
    hkeeps.exists_loop hp (fun h => h.exists_round hvisit) (limit + d + 2) (Nat.zero_le _) hstart
  obtain ⟨hreported, haccounts⟩ := hkeeps.loop hp (limit + d + 2) (Nat.zero_le _) hstart
  rw [List.nil_append] at hreported haccounts
  have hy := haccounts y why hloop
  have hpicked := hy.length_le
  have hending := loop_ending hp _ hloop
  have hwhy : why ≠ .late := by
    -- An exploration that is late has picked a state in each of its rounds, which is one too many.
    rintro rfl
    simp only [reduceCtorEq, false_and, true_and, false_or] at hending
    omega
  refine ⟨y, why, _, ?_, hreported, by omega, hy.limited, ?_⟩
  · intro n hn
    unfold run turnsFrom
    rw [hpush]
    exact loop_of_le hn hloop hwhy
  · rcases hending with ⟨he, hpick⟩ | hsatisfied | ⟨he, hstop⟩ | ⟨he, -⟩
    · exact Or.inl ⟨he, hy.size_eq_zero hpick⟩
    · exact Or.inr (Or.inl hsatisfied)
    · exact Or.inr (Or.inr ⟨he, hy.shouldStop_iff.mp hstop⟩)
    · exact absurd he hwhy

end Explore.Progress

theorem Graph.length_successors_le {g : Graph} (hg : ∀ e ∈ g.links, e.source < g.size) (l : Nat) :
    (g.successors l).length ≤ g.maxDegree := by
  cases hl : g.successors l with
  | nil => exact Nat.zero_le _
  | cons m ms =>
    have hlink : ⟨l, m⟩ ∈ g.links := mem_successors.mp (hl ▸ List.mem_cons_self)
    have hmem : (g.successors l).length ∈ g.locations.map fun l => (g.successors l).length :=
      List.mem_map_of_mem (f := fun l => (g.successors l).length) (List.mem_range.mpr (hg _ hlink))
    rw [← hl]
    exact (le_foldl_max _ 0).2 _ hmem

namespace Walker

open Explore Explore.Turn

variable {α : Type}

/-- Every exploration of a graph with a step limit ends, whatever its selector and its caller do. The number of rounds
does not matter from `L + d + 2` on, where `L` is the limit and `d` bounds the links that leave a location. The limit
has counted all links that were reported. -/
theorem run_ends (w : Walker) {d : Nat} (hd : ∀ l, (w.graph.successors l).length ≤ d) (limit : Nat)
    (visit : State → α → α × Bool) {L : Nat} {x : Progress α} (hx : x.Fresh L) {id : Nat} (hid : id < x.nextId) :
    let p : Setup α := (Engine.walker w).setup limit fun s a => .ok (visit s a)
    ∃ y why turns,
      (∀ n, L + d + 1 < n → x.run p n (initial id) = .ok (y, why) ∧ x.turnsFrom p n (initial id) = turns) ∧
      (reported turns).length ≤ L + d ∧ turns.length ≤ L + d + 1 ∧
      y.instruments.limits[y.selector.wiring.limit]? = some { limit := L, steps := (reported turns).length } ∧
      ((why = .exhausted ∧ y.selector.size = 0) ∨
        (why = .satisfied ∧ ∃ t ∈ turns, ∃ a, visit { t.picked with pending := false } a = (y.result, true)) ∨
        (why = .stopped ∧ L < (reported turns).length)) := by
  intro p
  have hdegree : ∀ n s, (p.step n s).1.length ≤ d := by
    intro n s
    show (w.step n s).1.length ≤ d
    rw [length_step]
    exact hd s.location
  have hfirst : (initial id).id < x.nextId := hid
  obtain ⟨y, why, turns, hrun, hreported, hpicked, hlimited, hending⟩ := hx.exists_run
    ((Engine.walker w).numbers limit _) hdegree (fun s a => ⟨visit s a, rfl⟩) hfirst
  refine ⟨y, why, turns, hrun, hreported, hpicked, hlimited, hending.imp_right (Or.imp_left ?_)⟩
  rintro ⟨he, t, ht, a, hvisit⟩
  exact ⟨he, t, ht, a, Except.ok.inj hvisit⟩

/-- A cycle with a way out. -/
def treadmill : Walker := { graph := .ofEdges 3 [⟨0, 1⟩, ⟨1, 0⟩, ⟨1, 2⟩] }

/-- An exploration of the cycle with two policies in turn. -/
def treading : Progress (List State) :=
  let (selector, instruments) := Blueprint.build Dice.ofSeed
    (.interleaved [.policy .bfs { stepLimit := some 4 } [], .policy .randomPath { seed := some 7 } []] [])
    { graph := treadmill.graph }
  { selector := selector.toOption.getD (.interleaved [] 0 {}), instruments, nextId := 1, result := [] }

/-- The limit of four steps is exceeded by as much as it can be. -/
theorem run_ends_treadmill :
    (∀ l, (treadmill.graph.successors l).length ≤ 2) ∧ treading.Fresh 4 ∧
    ∃ y turns, (∀ n, 7 < n →
        treading.run ((Engine.walker treadmill).setup 100 fun s ss => .ok (ss ++ [s], false)) n (initial 0) =
          .ok (y, .stopped) ∧
        treading.turnsFrom ((Engine.walker treadmill).setup 100 fun s ss => .ok (ss ++ [s], false)) n (initial 0) =
          turns) ∧
      (reported turns).length = 6 ∧ turns.length ≤ 7 := by
  have hdegree : ∀ l, (treadmill.graph.successors l).length ≤ 2 := fun l =>
    Nat.le_trans (Graph.length_successors_le (by decide) l) (by decide)
  have hbare : (Blueprint.interleaved [.policy .bfs { stepLimit := some 4 } [],
      .policy .randomPath { seed := some 7 } []] []).Bare :=
    .interleaved (List.forall_mem_cons.mpr ⟨.policy, List.forall_mem_singleton.mpr .policy⟩)
  have hfresh : treading.Fresh 4 :=
    ⟨(hbare.holding_build (i := { graph := treadmill.graph }) nofun rfl).2.2, rfl⟩
  obtain ⟨y, why, turns, hrun, -, hpicked, -⟩ := run_ends treadmill hdegree 100 (fun s ss => (ss ++ [s], false)) hfresh
    (Nat.zero_lt_one : 0 < treading.nextId)
  obtain ⟨hy, hturns⟩ := hrun 8 (by decide)
  have hwhy : (treading.run ((Engine.walker treadmill).setup 100 fun s ss => .ok (ss ++ [s], false)) 8 (initial 0)).map
      (·.2) = .ok .stopped := by
    decide +kernel
  rw [hy] at hwhy
  cases hwhy
  refine ⟨hdegree, hfresh, y, turns, hrun, ?_, hpicked⟩
  rw [← hturns]
  decide +kernel

end Walker

end Symex
