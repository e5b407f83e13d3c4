import Symex.Proofs.Explore.Feasible

/-!
# The turns of an exploration

An exploration takes turns: a state is picked, and its children are pushed. There are no children if the state was
dropped or is at its end. What all turns keep is kept by a whole exploration, also by one that ends at fault; and an
exploration that has ended is not changed by further rounds.
-/

namespace Symex

/-- Of the time `n` that a run is given it takes `used`. If that is not all of it, the run would have come to the same
with any other time that is not all used up. -/
structure Timed {β : Type} (run : Nat → β) (n used : Nat) : Prop where
  le : used ≤ n
  more : used < n → ∀ m, used < m → run m = run n

/-! ### Nothing to push -/

theorem Frontier.pushAll_nil (f : Frontier) : f.pushAll [] = .ok f := by
  cases f with
  | queue o r bs => simp [pushAll, Batch.ofList?]
  | _ => rfl

mutual

theorem Selector.pushAll_nil : (s : Selector) → s.pushAll [] = .ok s
  | .single f w => by
    rw [pushAll, f.pushAll_nil]
    rfl
  | .interleaved ms k w => by
    rw [pushAll, pushAllEach_nil ms]
    rfl

theorem Selector.pushAllEach_nil : (ms : List Selector) → pushAllEach [] ms = .ok ms
  | [] => rfl
  | m :: ms => by
    rw [pushAllEach, m.pushAll_nil, pushAllEach_nil ms]
    rfl

end

namespace Explore

variable {α : Type}

/-! ### Turns -/

/-- Children are numbered in their order from the next free number on, as are the branches that they take; each came
over a link. -/
structure Setup.Numbers (p : Setup α) : Prop where
  next : ∀ n s, (p.step n s).2 = n + (p.step n s).1.length
  child : ∀ {n : Nat} {s : State} {b : Nat} {c : State}, (p.step n s).1[b]? = some c →
    c.id = n + b ∧ c.trail = s.trail ++ [b] ∧ c.edge.isSome

theorem Engine.numbers (e : Engine) (limit : Nat) (visit : State → α → Except Fault (α × Bool)) :
    (e.setup limit visit).Numbers := by
  cases e with
  | walker w =>
    constructor
    · intro n s
      show n + (w.graph.successors s.location).length = n + (w.step n s).1.length
      rw [w.length_step]
    · intro n s b c hc
      obtain ⟨hb, rfl⟩ := List.getElem?_eq_some_iff.mp hc
      simp [setup, step, Walker.step, Walker.child_eq]
  | machine m p =>
    refine ⟨fun n s => (m.step_numbers p n s).1, ?_⟩
    intro n s b c hc
    obtain ⟨hid, htrail, hedge⟩ := (m.step_numbers p n s).2 hc
    exact ⟨hid, htrail, Option.isSome_of_eq_some hedge⟩

/-- A state that is picked, and the children that are pushed then. -/
structure Turn where
  picked : State
  children : List State

namespace Turn

/-- All children that were pushed. -/
def pushed (ts : List Turn) : List State := ts.flatMap Turn.children

/-- The links that were reported. -/
def reported (ts : List Turn) : List Edge := (pushed ts).filterMap (·.edge)

/-- The numbers of the states that were picked. -/
def ids (ts : List Turn) : List Nat := ts.map fun t => t.picked.id

@[simp] theorem pushed_concat (ts : List Turn) (t : Turn) : pushed (ts ++ [t]) = pushed ts ++ t.children := by
  simp [pushed]

@[simp] theorem reported_concat (ts : List Turn) (t : Turn) :
    reported (ts ++ [t]) = reported ts ++ t.children.filterMap (·.edge) := by
  simp [reported]

@[simp] theorem ids_concat (ts : List Turn) (t : Turn) : ids (ts ++ [t]) = ids ts ++ [t.picked.id] := by
  simp [ids]

end Turn

namespace Progress

variable {p : Setup α} {x y : Progress α}

/-- The children that the next round pushes. -/
def children (p : Setup α) (x : Progress α) : List State :=
  match x.entered? p with
  | some s => if s.isTerminal then [] else (p.step x.nextId s).1
  | none => []

/-- The turn of the next round, if there is a state to pick. -/
def turn? (p : Setup α) (x : Progress α) : Option Turn :=
  (x.selector.pick x.instruments).map fun r => ⟨r.1, x.children p⟩

/-- The turns of at most so many rounds. If a round fails, its turn is the last one. -/
def turns (p : Setup α) : Nat → Progress α → List Turn
  | 0, _ => []
  | n + 1, x =>
    if x.shouldStop then []
    else (x.turn? p).toList ++ match x.round p with
      | .ok (y, none) => turns p n y
      | _ => []

/-- The turns of a run from a state on. -/
def turnsFrom (p : Setup α) (rounds : Nat) (x : Progress α) (initial : State) : List Turn :=
  match x.selector.push initial with
  | .ok selector => { x with selector }.turns p rounds
  | .error _ => []

/-! ### One round -/

theorem turn?_eq_some {t : Turn} (h : x.turn? p = some t) :
    (∃ selector, x.selector.pick x.instruments = some (t.picked, selector)) ∧
      (t.children = [] ∨ t.children = (p.step x.nextId { t.picked with pending := false }).1) := by
  obtain ⟨⟨s, selector⟩, hpick, rfl⟩ := Option.map_eq_some_iff.mp h
  refine ⟨⟨selector, hpick⟩, ?_⟩
  show x.children p = [] ∨ x.children p = _
  unfold children
  rcases round_cases p hpick with ⟨-, -, hnone, -⟩ | ⟨-, hsome, -⟩
  · rw [hnone]
    exact Or.inl rfl
  · rw [hsome]
    exact ite_eq_or_eq _ _ _

theorem numbers_of_turn? (hp : p.Numbers) {t : Turn} (h : x.turn? p = some t) {b : Nat} {c : State}
    (hc : t.children[b]? = some c) : c.id = x.nextId + b ∧ c.trail = t.picked.trail ++ [b] ∧ c.edge.isSome := by
  rcases (turn?_eq_some h).2 with hnil | hstep
  · rw [hnil] at hc
    cases hc
  · rw [hstep] at hc
    have hnumbers := hp.child hc
    exact hnumbers

theorem ids_of_turn? (hp : p.Numbers) {t : Turn} (h : x.turn? p = some t) :
    t.children.map State.id = List.range' x.nextId t.children.length := by
  refine List.ext_getElem (by simp) ?_
  intro b hb hb'
  rw [List.length_map] at hb
  rw [List.getElem_map, List.getElem_range', Nat.one_mul]
  exact (numbers_of_turn? hp h (List.getElem?_eq_getElem hb)).1

/-- A round that took a turn and ended without fault. -/
structure Takes (p : Setup α) (x : Progress α) (t : Turn) (y : Progress α) (why : Option Ending) : Prop where
  turn : x.turn? p = some t
  exchange : ∃ selector, x.selector.pick x.instruments = some (t.picked, selector) ∧
    selector.pushAll t.children = .ok y.selector ∧
    y.instruments = (t.children.filterMap (·.edge)).foldl (fun i e => selector.traverse e i) x.instruments
  nextId : y.nextId = x.nextId + t.children.length
  visited : y.tally.visited = x.tally.visited ∨ y.tally.visited = x.tally.visited ++ [t.picked.id]
  ending : why = none ∨ why = some .satisfied ∧
    ∃ a, p.visit { t.picked with pending := false } a = .ok (y.result, true)

theorem Takes.id_bounds (hp : p.Numbers) {t : Turn} {why : Option Ending} (h : x.Takes p t y why) {c : State}
    (hc : c ∈ t.children) : x.nextId ≤ c.id ∧ c.id < y.nextId := by
  have hmem : c.id ∈ t.children.map State.id := List.mem_map_of_mem hc
  rw [ids_of_turn? hp h.turn, List.mem_range'_1] at hmem
  rw [h.nextId]
  exact hmem

/-- What is done to a state that goes on: its end is handed over, or it is replaced by its children. -/
theorem advance_takes (hp : p.Numbers) {s : State} {why : Option Ending} (h : x.advance p s = .ok (y, why)) :
    let children := if s.isTerminal then [] else (p.step x.nextId s).1
    x.selector.pushAll children = .ok y.selector ∧
    y.instruments = (children.filterMap (·.edge)).foldl (fun i e => x.selector.traverse e i) x.instruments ∧
    y.nextId = x.nextId + children.length ∧
    y.tally.visited = x.tally.visited ++ [s.id] ∧
    (why = none ∨ why = some .satisfied ∧ ∃ a, p.visit s a = .ok (y.result, true)) := by
  unfold advance at h
  cases hs : s.isTerminal with
  | true =>
    rw [hs, if_pos rfl] at h
    obtain ⟨⟨b, enough⟩, hvisit, he⟩ := bind_eq_ok.mp h
    cases he
    refine ⟨x.selector.pushAll_nil, rfl, rfl, rfl, ?_⟩
    cases enough with
    | false => exact Or.inl rfl
    | true => exact Or.inr ⟨rfl, _, hvisit⟩
  | false =>
    rw [hs, if_neg Bool.false_ne_true] at h
    obtain ⟨z, hz, he⟩ := bind_eq_ok.mp h
    cases he
    obtain ⟨selector, hpush, he⟩ := bind_eq_ok.mp hz
    cases he
    exact ⟨hpush, rfl, hp.next _ _, rfl, Or.inl rfl⟩

theorem round_takes (hp : p.Numbers) {why : Option Ending} (h : x.round p = .ok (y, why)) :
    (x.turn? p = none ∧ x.selector.pick x.instruments = none ∧ y = x ∧ why = some .exhausted) ∨
      ∃ t, x.Takes p t y why := by
  cases hpick : x.selector.pick x.instruments with
  | none =>
    have hround : x.round p = .ok (x, some .exhausted) := by simp [round, hpick]
    rw [hround] at h
    cases h
    exact Or.inl ⟨by rw [turn?, hpick]; rfl, rfl, rfl, rfl⟩
  | some r =>
    obtain ⟨s, selector⟩ := r
    have hturn : x.turn? p = some ⟨s, x.children p⟩ := by
      rw [turn?, hpick]
      rfl
    refine Or.inr ⟨⟨s, x.children p⟩, ?_⟩
    unfold children at hturn ⊢
    rcases round_cases p hpick with ⟨-, -, hnone, hround⟩ | ⟨-, hsome, checks, hround⟩
    · rw [hround] at h
      cases h
      rw [hnone] at hturn ⊢
      exact ⟨hturn, ⟨selector, hpick, selector.pushAll_nil, rfl⟩, rfl, Or.inl rfl, Or.inl rfl⟩
    · rw [hround] at h
      rw [hsome] at hturn ⊢
      obtain ⟨hpush, hreport, hnext, hvisited, hending⟩ := advance_takes hp h
      exact ⟨hturn, ⟨selector, hpick, hpush, hreport⟩, hnext, Or.inr hvisited, hending⟩

/-! ### All rounds -/

theorem loop_of_shouldStop (p : Setup α) (h : x.shouldStop = true) (n : Nat) :
    x.loop p n = .ok (x, .stopped) ∧ x.turns p n = [] := by
  cases n with
  | zero => exact ⟨by rw [Progress.loop, if_pos h], rfl⟩
  | succ n => exact ⟨by rw [Progress.loop, if_pos h], by rw [turns, if_pos h]⟩

theorem loop_of_round {p : Setup α} {y : Progress α} {why : Option Ending} (h : x.shouldStop = false)
    (hround : x.round p = .ok (y, why)) (n : Nat) :
    x.loop p (n + 1) = why.elim (y.loop p n) fun why => .ok (y, why) := by
  rw [Progress.loop, h, if_neg Bool.false_ne_true, hround]
  cases why <;> rfl

/-- What turns keep: `Q` is true of the turns, and as long as no round is at fault `R` ties them to the exploration. -/
structure Keeps (p : Setup α) (Q : List Turn → Prop) (R : List Turn → Progress α → Prop) : Prop where
  turn : ∀ {ts : List Turn} {x : Progress α} {t : Turn}, Q ts → R ts x → x.shouldStop = false → x.turn? p = some t →
    Q (ts ++ [t])
  round : ∀ {ts : List Turn} {x y : Progress α} {t : Turn} {why : Option Ending}, Q ts → R ts x →
    x.shouldStop = false → x.Takes p t y why → R (ts ++ [t]) y

theorem Keeps.loop {Q : List Turn → Prop} {R : List Turn → Progress α → Prop} (hp : p.Numbers) (hk : Keeps p Q R)
    (n : Nat) {ts : List Turn} {x : Progress α} (hQ : Q ts) (hR : R ts x) :
    Q (ts ++ x.turns p n) ∧ ∀ y why, x.loop p n = .ok (y, why) → R (ts ++ x.turns p n) y := by
  induction n generalizing ts x with
  | zero =>
    rw [turns, List.append_nil]
    refine ⟨hQ, fun y why h => ?_⟩
    cases h
    exact hR
  | succ n ih =>
    cases hgo : x.shouldStop with
    | true =>
      obtain ⟨hloop, hturns⟩ := loop_of_shouldStop p hgo (n + 1)
      rw [hloop, hturns, List.append_nil]
      refine ⟨hQ, fun y why h => ?_⟩
      cases h
      exact hR
    | false =>
      rw [turns, Progress.loop]
      simp only [hgo, Bool.false_eq_true, if_false]
      cases hround : x.round p with
      | error f =>
        -- The turn of a round at fault is the last one, and nothing is left to tie it to.
        refine ⟨?_, fun y why h => by cases h⟩
        cases ht : x.turn? p with
        | none => simpa using hQ
        | some t => simpa using hk.turn hQ hR hgo ht
      | ok r =>
        obtain ⟨y, why⟩ := r
        rcases round_takes hp hround with ⟨hnone, -, rfl, rfl⟩ | ⟨t, htakes⟩
        · rw [hnone]
          refine ⟨by simpa using hQ, fun z why h => ?_⟩
          cases h
          simpa using hR
        · rw [htakes.turn, Option.toList_some]
          have hQ' := hk.turn hQ hR hgo htakes.turn
          have hR' := hk.round hQ hR hgo htakes
          cases why with
          | some why =>
            refine ⟨by simpa using hQ', fun z why' h => ?_⟩
            cases h
            simpa using hR'
          | none =>
            have hrest := ih hQ' hR'
            rw [List.append_assoc] at hrest
            exact hrest

theorem Keeps.run {Q : List Turn → Prop} {R : List Turn → Progress α → Prop} (hp : p.Numbers) (hk : Keeps p Q R)
    (n : Nat) (x : Progress α) (first : State) (hQ : Q [])
    (hR : ∀ selector, x.selector.push first = .ok selector → R [] { x with selector }) :
    Q (x.turnsFrom p n first) ∧ ∀ y why, x.run p n first = .ok (y, why) → R (x.turnsFrom p n first) y := by
  unfold turnsFrom Progress.run
  cases hpush : x.selector.push first with
  | error f => exact ⟨hQ, fun y why h => by cases h⟩
  | ok selector => exact hk.loop hp n hQ (hR selector hpush)

/-- If what is kept makes sure that rounds are not at fault, neither is the exploration. -/
theorem Keeps.exists_loop {Q : List Turn → Prop} {R : List Turn → Progress α → Prop} (hp : p.Numbers)
    (hk : Keeps p Q R) (hround : ∀ {ts x}, R ts x → ∃ r, x.round p = .ok r) (n : Nat) {ts : List Turn} {x : Progress α}
    (hQ : Q ts) (hR : R ts x) : ∃ y why, x.loop p n = .ok (y, why) := by
  induction n generalizing ts x with
  | zero => exact ⟨x, _, rfl⟩
  | succ n ih =>
    cases hgo : x.shouldStop with
    | true => exact ⟨x, _, (loop_of_shouldStop p hgo (n + 1)).1⟩
    | false =>
      obtain ⟨⟨y, why⟩, hy⟩ := hround hR
      rw [Progress.loop, hgo, if_neg Bool.false_ne_true, hy]
      cases why with
      | some why => exact ⟨y, why, rfl⟩
      | none =>
        rcases round_takes hp hy with ⟨-, -, -, hwhy⟩ | ⟨t, htakes⟩
        · cases hwhy
        · exact ih (hk.turn hQ hR hgo htakes.turn) (hk.round hQ hR hgo htakes)

/-- How an exploration ended can be told from the turns and from what is left. -/
theorem loop_ending (hp : p.Numbers) (n : Nat) {x y : Progress α} {why : Ending} (h : x.loop p n = .ok (y, why)) :
    (why = .exhausted ∧ y.selector.pick y.instruments = none) ∨
    (why = .satisfied ∧ ∃ t ∈ x.turns p n, ∃ a, p.visit { t.picked with pending := false } a = .ok (y.result, true)) ∨
    (why = .stopped ∧ y.shouldStop = true) ∨ (why = .late ∧ (x.turns p n).length = n) := by
  induction n generalizing x with
  | zero =>
    rw [Progress.loop] at h
    cases hgo : x.shouldStop with
    | true =>
      rw [hgo] at h
      cases h
      exact Or.inr (Or.inr (Or.inl ⟨rfl, hgo⟩))
    | false =>
      rw [hgo] at h
      cases h
      exact Or.inr (Or.inr (Or.inr ⟨rfl, rfl⟩))
  | succ n ih =>
    cases hgo : x.shouldStop with
    | true =>
      rw [(loop_of_shouldStop p hgo (n + 1)).1] at h
      cases h
      exact Or.inr (Or.inr (Or.inl ⟨rfl, hgo⟩))
    | false =>
      rw [Progress.loop] at h
      rw [turns]
      simp only [hgo, Bool.false_eq_true, if_false] at h ⊢
      obtain ⟨⟨z, e⟩, hround, h⟩ := bind_eq_ok.mp h
      rw [hround]
      rcases round_takes hp hround with ⟨-, hpick, rfl, rfl⟩ | ⟨t, htakes⟩
      · cases h
        exact Or.inl ⟨rfl, hpick⟩
      · rw [htakes.turn, Option.toList_some]
        cases e with
        | some e =>
          cases h
          obtain ⟨he, hvisit⟩ := htakes.ending.resolve_left (Option.some_ne_none _)
          cases he
          exact Or.inr (Or.inl ⟨rfl, t, List.mem_cons_self, hvisit⟩)
        | none =>
          rcases ih h with hend | ⟨he, u, hu, hvisit⟩ | hend | ⟨he, hlen⟩
          · exact Or.inl hend
          · exact Or.inr (Or.inl ⟨he, u, List.mem_cons_of_mem _ hu, hvisit⟩)
          · exact Or.inr (Or.inr (Or.inl hend))
          · refine Or.inr (Or.inr (Or.inr ⟨he, ?_⟩))
            rw [List.singleton_append, List.length_cons, hlen]

/-- Once an exploration has ended, more rounds change nothing. -/
theorem loop_of_le {n m : Nat} (hle : n ≤ m) {x y : Progress α} {why : Ending} (h : x.loop p n = .ok (y, why))
    (hwhy : why ≠ .late) : x.loop p m = .ok (y, why) ∧ x.turns p m = x.turns p n := by
  have hstopped : ∀ {x : Progress α} {k : Nat} (m : Nat), x.shouldStop = true → x.loop p k = .ok (y, why) →
      x.loop p m = .ok (y, why) ∧ x.turns p m = x.turns p k := by
    intro x k m hgo hk
    obtain ⟨hloop, hturns⟩ := loop_of_shouldStop p hgo m
    obtain ⟨hloop', hturns'⟩ := loop_of_shouldStop p hgo k
    exact ⟨hloop.trans (hloop'.symm.trans hk), hturns.trans hturns'.symm⟩
  induction n generalizing x m with
  | zero =>
    cases hgo : x.shouldStop with
    | true => exact hstopped m hgo h
    | false =>
      rw [Progress.loop, hgo] at h
      cases h
      exact absurd rfl hwhy
  | succ n ih =>
    cases hgo : x.shouldStop with
    | true => exact hstopped m hgo h
    | false =>
      obtain ⟨m, rfl⟩ := Nat.exists_eq_add_one_of_ne_zero (Nat.ne_of_gt (Nat.lt_of_lt_of_le (Nat.succ_pos n) hle))
      rw [Progress.loop] at h ⊢
      rw [turns, turns]
      simp only [hgo, Bool.false_eq_true, if_false] at h ⊢
      obtain ⟨⟨z, e⟩, hround, h⟩ := bind_eq_ok.mp h
      rw [hround]
      cases e with
      | some e => exact ⟨h, rfl⟩
      | none =>
        obtain ⟨hloop, hturns⟩ := ih (Nat.le_of_succ_le_succ hle) h
        exact ⟨hloop, congrArg ((x.turn? p).toList ++ ·) hturns⟩

/-! ### Time -/

/-- A round in which a state is picked takes its time. -/
theorem rounds_round {why : Option Ending} (h : x.round p = .ok (y, why)) :
    (why = some .exhausted ∧ y = x) ∨ y.tally.rounds = x.tally.rounds + 1 := by
  cases hpick : x.selector.pick x.instruments with
  | none =>
    rw [round, hpick] at h
    cases h
    exact Or.inl ⟨rfl, rfl⟩
  | some r =>
    refine Or.inr ?_
    rcases round_cases p hpick with ⟨-, -, -, hround⟩ | ⟨-, -, checks, hround⟩
    · rw [hround] at h
      cases h
      exact (Nat.add_assoc x.tally.steps x.tally.dropped 1).symm
    · rw [hround, advance] at h
      split at h
      · obtain ⟨⟨b, enough⟩, -, he⟩ := bind_eq_ok.mp h
        cases he
        exact Nat.succ_add _ _
      · obtain ⟨z, hz, he⟩ := bind_eq_ok.mp h
        cases he
        obtain ⟨selector, -, he⟩ := bind_eq_ok.mp hz
        cases he
        exact Nat.succ_add _ _

theorem loop_timed {n : Nat} {why : Ending} (h : x.loop p n = .ok (y, why)) :
    ∃ used, y.tally.rounds = x.tally.rounds + used ∧ Timed (fun n => x.loop p n) n used := by
  induction n generalizing x with
  | zero =>
    cases h
    exact ⟨0, rfl, Nat.le_refl _, fun h => absurd h (Nat.lt_irrefl _)⟩
  | succ n ih =>
    cases hgo : x.shouldStop with
    | true =>
      have hstop (m : Nat) : x.loop p m = .ok (x, .stopped) := (loop_of_shouldStop p hgo m).1
      rw [hstop] at h
      cases h
      exact ⟨0, rfl, Nat.zero_le _, fun _ m _ => (hstop m).trans (hstop (n + 1)).symm⟩
    | false =>
      have hbind := h
      rw [Progress.loop, hgo, if_neg Bool.false_ne_true] at hbind
      obtain ⟨⟨z, e⟩, hround, -⟩ := bind_eq_ok.mp hbind
      have hsucc := loop_of_round hgo hround
      rw [hsucc] at h
      cases e with
      | some e =>
        cases h
        have hagain (m : Nat) (hm : 0 < m) : x.loop p m = x.loop p (n + 1) := by
          obtain ⟨m, rfl⟩ := Nat.exists_eq_add_one_of_ne_zero (Nat.ne_of_gt hm)
          exact (hsucc m).trans (hsucc n).symm
        rcases rounds_round hround with ⟨-, rfl⟩ | hrounds
        · exact ⟨0, rfl, Nat.zero_le _, fun _ m hm => hagain m hm⟩
        · exact ⟨1, hrounds, Nat.succ_pos n, fun _ m hm => hagain m (by omega)⟩
      | none =>
        obtain ⟨used, hused, htimed⟩ := ih h
        have hrounds : z.tally.rounds = x.tally.rounds + 1 :=
          (rounds_round hround).resolve_left fun hend => Option.some_ne_none _ hend.1.symm
        refine ⟨used + 1, by omega, Nat.succ_le_succ htimed.le, ?_⟩
        intro hlt m hm
        obtain ⟨m, rfl⟩ := Nat.exists_eq_add_one_of_ne_zero (by omega : m ≠ 0)
        exact (hsucc m).trans ((htimed.more (by omega) m (by omega)).trans (hsucc n).symm)

end Progress

end Explore

end Symex
