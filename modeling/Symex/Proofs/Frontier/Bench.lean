import Symex.Proofs.Data.Outcome
import Symex.Proofs.Frontier.Jobs
import Symex.Proofs.Stats.Meters
import Symex.Random.Draw

/-!
# Selectors that share instruments

A bench builds selectors from one set of instruments and reports traversals through them. A listener has in its record
what it heard, each traversal once; all selectors have one step limit, which counts everything. An interleaving that is
built last knows all listeners, so whatever is reported through it alone is recorded once by each of them.
-/

namespace Symex

/-! ### What a builder does to the instruments -/

namespace Instruments

/-- Brings a step limit into force where there is none. -/
def grant (i : Instruments) (limit : Option Nat) : Instruments :=
  match i.current, limit with
  | none, some n => i.setLimit n
  | _, _ => i

variable {i j : Instruments} {limit : Option Nat} {k : Nat}

theorem grant_of_current (h : i.current = some k) : i.grant limit = i := by
  simp [grant, h]

theorem grant_none (i : Instruments) : i.grant none = i := by
  unfold grant
  split <;> simp_all

/-- Only the step limits can change. -/
theorem grant_frame (i : Instruments) (limit : Option Nat) :
    ∃ limits current, i.grant limit = { i with limits, current } := by
  unfold grant
  split
  · exact ⟨_, _, rfl⟩
  · exact ⟨_, _, rfl⟩

theorem Tuned.grant (h : i.Tuned) (limit : Option Nat) : (i.grant limit).Tuned := by
  obtain ⟨limits, current, hi⟩ := grant_frame i limit
  rw [hi]
  exact ⟨h.nodup, h.coverage, h.visits, h.counter⟩

theorem withLimit_eq_ok {name : String} (h : i.withLimit name limit = .ok (k, j)) :
    j = i.grant limit ∧ j.current = some k := by
  unfold withLimit at h
  split at h
  next hc =>
    cases h
    exact ⟨(grant_of_current hc).symm, hc⟩
  next hc =>
    cases h
    exact ⟨by simp [grant, hc], rfl⟩
  next => cases h

theorem attach_eq_ok {f : Frontier} {s : Selector} (h : i.attach f limit = .ok (s, j)) :
    j = (i.grant limit).withStatistics f ∧ ∃ k, (i.grant limit).current = some k ∧ s.wiring = j.wiring k := by
  obtain ⟨⟨k, m⟩, hm, h⟩ := bind_eq_ok.mp h
  obtain ⟨rfl, hk⟩ := withLimit_eq_ok hm
  obtain ⟨rfl, rfl⟩ := Prod.mk.inj (pure_eq_ok.mp h)
  exact ⟨rfl, k, hk, rfl⟩

theorem withStatistics_frontier (roll : Option Nat → Dice) (i : Instruments) (kind : Kind) (c : SelectorConfig) :
    i.withStatistics (kind.frontier roll c) = i.enroll (kind.asks c) := by
  cases kind <;> cases h : c.strategy <;> simp [withStatistics, Kind.frontier, Kind.asks, withRanking, enroll,
    Ranking.ofStrategy, h]

end Instruments

/-! ### Benches -/

/-- Instruments with the selectors that were built from them, in order. -/
structure Bench where
  instruments : Instruments
  selectors : List Selector := []

namespace Bench

open Job

def start (g : Graph) : Bench := { instruments := { graph := g } }

/-- Takes in a selector that was built, if it was. -/
def add (x : Bench) : Except BuildError (Selector × Instruments) → Option Bench
  | .ok (s, i) => some ⟨i, x.selectors ++ [s]⟩
  | .error _ => none

/-- Does a job. It cannot be done if the selector cannot be built, or if it names a selector that is not there. -/
def perform (roll : Option Nat → Dice) (x : Bench) : Job → Option Bench
  | .policy kind c => x.add (x.instruments.build roll kind c)
  | .scoring sc c => x.add (x.instruments.buildScoring sc c)
  | .interleave ks => do
    let ms ← ks.mapM fun k => x.selectors[k]?
    x.add ((x.instruments.interleave ms).map (·, x.instruments))
  | .counter => some { x with instruments := x.instruments.addCounter }
  | .traverse k e => do
    let s ← x.selectors[k]?
    return { x with instruments := s.traverse e x.instruments }

def performAll (roll : Option Nat → Dice) (x : Bench) (jobs : List Job) : Option Bench := jobs.foldlM (perform roll) x

variable {roll : Option Nat → Dice} {x y : Bench} {g : Graph} {jobs : List Job} {job : Job}

theorem performAll_append (more : List Job) :
    x.performAll roll (jobs ++ more) = (x.performAll roll jobs).bind (·.performAll roll more) :=
  List.foldlM_append

theorem add_eq_some {r : Except BuildError (Selector × Instruments)} (h : x.add r = some y) :
    ∃ s, r = .ok (s, y.instruments) ∧ y.selectors = x.selectors ++ [s] := by
  rcases r with _ | ⟨s, i⟩
  · cases h
  · cases h
    exact ⟨s, rfl, rfl⟩

theorem interleave_eq_ok {i : Instruments} {ms : List Selector} {s : Selector} (h : i.interleave ms = .ok s) :
    ∃ k, i.current = some k ∧ s = .interleaved ms 0 (i.wiring k) := by
  unfold Instruments.interleave at h
  split at h
  · cases h
  · cases h
  next k _ hk =>
    cases h
    exact ⟨k, hk, rfl⟩

/-- A job other than a traversal may bring a step limit into force and may enrol a listener. A selector that it builds
is wired to all listeners there are then. -/
theorem perform_quiet (h : x.perform roll job = some y) (hquiet : job.edge? = none) :
    y.instruments = (x.instruments.grant job.limit?).enroll (job.enrolls x.instruments.counters.length) ∧
      (job.builds = false ∧ y.selectors = x.selectors ∨
        job.builds = true ∧ ∃ s k, y.selectors = x.selectors ++ [s] ∧ s.wiring = y.instruments.wiring k ∧
          y.instruments.current = some k) := by
  have hattach : ∀ {f limit}, x.add (x.instruments.attach f limit) = some y →
      y.instruments = (x.instruments.grant limit).withStatistics f ∧ ∃ s k, y.selectors = x.selectors ++ [s] ∧
        s.wiring = y.instruments.wiring k ∧ (x.instruments.grant limit).current = some k := by
    intro f limit h
    obtain ⟨s, hs, hy⟩ := add_eq_some h
    obtain ⟨hi, k, hk, hw⟩ := Instruments.attach_eq_ok hs
    exact ⟨hi, s, k, hy, hw, hk⟩
  cases job with
  | traverse k e => cases hquiet
  | counter =>
    cases h
    change x.instruments.addCounter = (x.instruments.grant none).addCounter ∧ _
    rw [Instruments.grant_none]
    exact ⟨rfl, .inl ⟨rfl, rfl⟩⟩
  | policy kind c =>
    obtain ⟨hi, s, k, hy, hw, hk⟩ := hattach h
    rw [Instruments.withStatistics_frontier] at hi
    refine ⟨hi, .inr ⟨rfl, s, k, hy, hw, ?_⟩⟩
    rw [hi, (Instruments.enroll_frame _ _).2.2]
    exact hk
  | scoring sc c =>
    obtain ⟨hi, s, k, hy, hw, hk⟩ := hattach h
    have henroll : y.instruments = (x.instruments.grant c.stepLimit).enroll (some .coverage) := hi
    refine ⟨hi, .inr ⟨rfl, s, k, hy, hw, ?_⟩⟩
    rw [henroll, (Instruments.enroll_frame _ _).2.2]
    exact hk
  | interleave ks =>
    obtain ⟨ms, -, h⟩ := Option.bind_eq_some_iff.mp h
    obtain ⟨s, hs, hy⟩ := add_eq_some h
    cases hm : x.instruments.interleave ms with
    | error e => rw [hm] at hs; cases hs
    | ok t =>
      rw [hm] at hs
      obtain ⟨rfl, hi⟩ := Prod.mk.inj (Except.ok.inj hs)
      obtain ⟨k, hk, rfl⟩ := interleave_eq_ok hm
      change y.instruments = x.instruments.grant none ∧ _
      rw [Instruments.grant_none, ← hi]
      exact ⟨rfl, .inr ⟨rfl, _, k, hy, rfl, hk⟩⟩

theorem perform_traverse {k : Nat} {s : Selector} (hs : x.selectors[k]? = some s) (e : Edge) :
    x.perform roll (.traverse k e) = some { x with instruments := s.traverse e x.instruments } := by
  simp [perform, hs]

/-! ### The records of a bench -/

/-- What is there after some jobs: every listener that was asked for, with the record of what it heard, and the step
limit of the first selector, with a count of everything that was reported. -/
structure Records (g : Graph) (jobs : List Job) (x : Bench) : Prop where
  graph : x.instruments.graph = g
  tuned : x.instruments.Tuned
  orderly : Orderly jobs
  built : x.selectors.length = jobs.countP builds
  listens : ∀ l, l ∈ x.instruments.listeners ↔ asked jobs l = true
  wired : ∀ k s, x.selectors[k]? = some s → s.wiring.listeners.Nodup ∧
    (∀ l, l ∈ s.wiring.listeners ↔ asked (upTo k jobs) l = true) ∧ x.instruments.current = some s.wiring.limit
  current : x.instruments.current = (firstLimit jobs).map fun _ => 0
  limits : x.instruments.limits = (firstLimit jobs).toList.map fun n => ⟨n, (reported jobs).length⟩
  reads : ∀ {β : Type} (M : Meter β), M.read x.instruments =
    if asked jobs M.listener then some ((heard jobs M.listener).foldl M.tell (M.fresh g)) else none

namespace Records

/-- There is only one limit, and it came with the first selector. -/
theorem exists_firstLimit (h : Records g jobs x) {k : Nat} {s : Selector} (hs : x.selectors[k]? = some s) :
    ∃ n, firstLimit jobs = some n ∧ s.wiring.limit = 0 := by
  have hlimit := (h.wired k s hs).2.2
  rw [h.current] at hlimit
  obtain ⟨n, hn, hzero⟩ := Option.map_eq_some_iff.mp hlimit
  exact ⟨n, hn, hzero.symm⟩

theorem lt_of_getElem? (h : Records g jobs x) {k : Nat} {s : Selector} (hs : x.selectors[k]? = some s) :
    k < jobs.countP builds :=
  h.built ▸ (List.getElem?_eq_some_iff.mp hs).1

theorem counters (h : Records g jobs x) : x.instruments.counters.length = jobs.countP isCounter := by
  have hlt : ∀ c, c < x.instruments.counters.length ↔ c < jobs.countP isCounter := by
    intro c
    rw [← h.tuned.counter, h.listens]
    simp [asked]
  have hle := hlt x.instruments.counters.length
  have hge := hlt (jobs.countP isCounter)
  omega

/-- The first selector brings its limit into force, and no later one does. -/
theorem limits_quiet (h : Records g jobs x) (hy : y.instruments.limits = (x.instruments.grant job.limit?).limits)
    (hc : y.instruments.current = (x.instruments.grant job.limit?).current) (hquiet : job.edge? = none) :
    (y.instruments.current = (firstLimit (jobs ++ [job])).map fun _ => 0) ∧
      y.instruments.limits =
        (firstLimit (jobs ++ [job])).toList.map fun n => ⟨n, (reported (jobs ++ [job])).length⟩ := by
  have hreported : reported (jobs ++ [job]) = reported jobs := by simp [reported_concat, hquiet]
  rw [hreported, hy, hc]
  rcases Nat.eq_zero_or_pos (jobs.countP builds) with hzero | hpos
  · have hnone := h.current
    have hnil := h.limits
    rw [firstLimit_of_zero hzero] at hnone hnil
    rw [firstLimit_concat hzero, reported_eq_nil h.orderly hzero]
    cases job.limit? with
    | none => simp_all [Instruments.grant_none]
    | some n => simp_all [Instruments.grant, Instruments.setLimit]
  · obtain ⟨s, hs⟩ : ∃ s, x.selectors[0]? = some s := ⟨_, List.getElem?_eq_getElem (h.built ▸ hpos)⟩
    rw [firstLimit_append hpos, Instruments.grant_of_current (h.wired 0 s hs).2.2]
    exact ⟨h.current, h.limits⟩

/-- Selectors that were there keep their wiring. -/
theorem wired_concat (h : Records g jobs x) (hc : ∀ c, x.instruments.current = some c → y.instruments.current = some c)
    (job : Job) {k : Nat} {s : Selector} (hs : x.selectors[k]? = some s) :
    s.wiring.listeners.Nodup ∧ (∀ l, l ∈ s.wiring.listeners ↔ asked (upTo k (jobs ++ [job])) l = true) ∧
      y.instruments.current = some s.wiring.limit := by
  obtain ⟨hnodup, hmem, hcurrent⟩ := h.wired k s hs
  rw [upTo_append (h.lt_of_getElem? hs)]
  exact ⟨hnodup, hmem, hc _ hcurrent⟩

theorem counter_number {i : Instruments} {c : Nat} (hc : job.enrolls i.counters.length = some (.counter c)) :
    c = (i.grant job.limit?).counters.length := by
  obtain ⟨limits, current, hgrant⟩ := Instruments.grant_frame i job.limit?
  rw [hgrant]
  exact (enrolls_eq_counter.mp hc).2.symm

/-- A selector that has just been built knows all listeners. -/
theorem wired_last (h : Records g jobs x) (hb : job.builds = true) {s t : Selector} {k : Nat}
    (hk : x.selectors.length ≤ k) (hs : (x.selectors ++ [t])[k]? = some s) :
    s = t ∧ upTo k (jobs ++ [job]) = jobs ++ [job] := by
  rw [List.getElem?_append_right hk, List.getElem?_singleton] at hs
  split at hs
  next hzero =>
    obtain rfl : x.selectors.length = k := by omega
    rw [h.built]
    exact ⟨(Option.some.inj hs).symm, upTo_countP hb jobs []⟩
  next => cases hs

theorem reads_quiet (h : Records g jobs x) (hquiet : job.edge? = none) {β : Type} (M : Meter β) :
    M.read ((x.instruments.grant job.limit?).enroll (job.enrolls x.instruments.counters.length)) =
      if asked (jobs ++ [job]) M.listener then
        some ((heard (jobs ++ [job]) M.listener).foldl M.tell (M.fresh g)) else none := by
  obtain ⟨limits, current, hgrant⟩ := Instruments.grant_frame x.instruments job.limit?
  have hread : M.read (x.instruments.grant job.limit?) = M.read x.instruments := by rw [hgrant, M.read_limits]
  have hgraph : (x.instruments.grant job.limit?).graph = g := by rw [hgrant]; exact h.graph
  rw [heard_concat h.orderly hquiet]
  cases hl : job.enrolls x.instruments.counters.length with
  | none =>
    rw [asked_concat_of_ne (by rw [← h.counters, hl]; nofun), ← h.reads M, ← hread]
    rfl
  | some l =>
    rw [M.read_enroll _ _ fun c hc => counter_number (hl.trans (congrArg some hc)), hread, hgraph, h.reads M]
    by_cases hm : l = M.listener
    · have hasked : asked (jobs ++ [job]) M.listener = true :=
        asked_concat.mpr (.inr (by rw [← h.counters, hl, hm]))
      rw [if_pos hm, if_pos hasked]
      -- A listener that is new has heard nothing.
      cases ha : asked jobs M.listener with
      | true => rfl
      | false => rw [heard_eq_nil ha]; rfl
    · rw [if_neg hm, asked_concat_of_ne (by rw [← h.counters, hl]; simpa using hm)]

theorem quiet (h : Records g jobs x) (hxy : x.perform roll job = some y) (hquiet : job.edge? = none) :
    Records g (jobs ++ [job]) y := by
  obtain ⟨hi, hsel⟩ := perform_quiet hxy hquiet
  obtain ⟨limits, current, hgrant⟩ := Instruments.grant_frame x.instruments job.limit?
  obtain ⟨hgraph, hlimits, hcurrent⟩ := Instruments.enroll_frame (x.instruments.grant job.limit?)
    (job.enrolls x.instruments.counters.length)
  obtain ⟨htuned, hmem⟩ := (h.tuned.grant job.limit?).enroll fun c hc => counter_number hc
  rw [← hi] at hgraph hlimits hcurrent htuned hmem
  have hlistens : ∀ l, l ∈ y.instruments.listeners ↔ asked (jobs ++ [job]) l = true := by
    intro l
    rw [hmem, asked_concat, ← h.counters, ← h.listens, hgrant]
  have hkeeps : ∀ c, x.instruments.current = some c → y.instruments.current = some c := by
    intro c hc
    rw [hcurrent, Instruments.grant_of_current hc, hc]
  obtain ⟨hfirst, hspent⟩ := h.limits_quiet hlimits hcurrent hquiet
  refine ⟨?_, htuned, ?_, ?_, hlistens, ?_, hfirst, hspent, fun M => hi ▸ h.reads_quiet hquiet M⟩
  · rw [hgraph, hgrant]
    exact h.graph
  · refine h.orderly.concat ?_
    rintro k e rfl
    cases hquiet
  · rcases hsel with ⟨hb, hsel⟩ | ⟨hb, s, k, hsel, -⟩
    · simp [hsel, h.built, hb]
    · simp [hsel, h.built, hb]
  · intro k s hs
    rcases hsel with ⟨hb, hsel⟩ | ⟨hb, t, c, hsel, hw, hc⟩
    · exact h.wired_concat hkeeps job (hsel ▸ hs)
    · rw [hsel] at hs
      rcases Nat.lt_or_ge k x.selectors.length with hk | hk
      · rw [List.getElem?_append_left hk] at hs
        exact h.wired_concat hkeeps job hs
      · obtain ⟨rfl, hupTo⟩ := h.wired_last hb hk hs
        rw [hupTo, hw]
        exact ⟨htuned.nodup, hlistens, hc⟩

/-- A traversal reaches the listeners that were asked for by the time the selector was built. -/
theorem read_traverse (h : Records g jobs x) {k : Nat} {s : Selector} (hs : x.selectors[k]? = some s) (e : Edge)
    {β : Type} (M : Meter β) : M.read (s.traverse e x.instruments) =
      if asked (upTo k jobs) M.listener then (M.read x.instruments).map (M.tell · e) else M.read x.instruments := by
  obtain ⟨hnodup, hmem, -⟩ := h.wired k s hs
  rw [Selector.traverse, M.read_traverse _ hnodup]
  simp only [hmem]

theorem traverse (h : Records g jobs x) {k : Nat} {s : Selector} (hs : x.selectors[k]? = some s) (e : Edge) :
    Records g (jobs ++ [.traverse k e]) { x with instruments := s.traverse e x.instruments } := by
  obtain ⟨hgraph, hcurrent, hlisteners⟩ := Instruments.traverse_frame x.instruments s.wiring e
  have hk := h.lt_of_getElem? hs
  have hpos : 0 < jobs.countP builds := by omega
  have hasked : ∀ l, asked (jobs ++ [.traverse k e]) l = asked jobs l := fun l => asked_concat_of_ne nofun
  obtain ⟨n, hn, hzero⟩ := h.exists_firstLimit hs
  refine ⟨hgraph.trans h.graph, h.tuned.traverse s.wiring e, ?_, ?_, ?_, ?_, ?_, ?_, ?_⟩
  · refine h.orderly.concat ?_
    rintro k' e' he
    cases he
    exact hk
  · simp [h.built, builds]
  · intro l
    change l ∈ (x.instruments.traverse s.wiring e).listeners ↔ _
    rw [hlisteners, hasked]
    exact h.listens l
  · intro k' s' hs'
    exact h.wired_concat (fun c hc => hcurrent.trans hc) _ hs'
  · rw [firstLimit_append hpos]
    exact hcurrent.trans h.current
  · change (x.instruments.traverse s.wiring e).limits = _
    rw [Instruments.limits_traverse, firstLimit_append hpos, h.limits, hn, hzero, reported_concat]
    simp [edge?, StepLimit.traverse]
  · intro β M
    rw [h.read_traverse hs, h.reads M, hasked, heard_concat_traverse h.orderly hk]
    by_cases hm : asked (upTo k jobs) M.listener = true
    · have ha := asked_of_sublist (upTo_sublist k jobs) hm
      simp [hm, ha]
    · simp [hm]

/-- Every job that is done adds to the records what it should. -/
theorem of_performAll (h : (start g).performAll roll jobs = some x) : Records g jobs x := by
  induction jobs using List.reverseRecOn generalizing x with
  | nil =>
    cases h
    refine ⟨rfl, ⟨List.nodup_nil, by simp [start], by simp [start], by simp [start]⟩, ?_, rfl, ?_, ?_, rfl, rfl, ?_⟩
    · intro k e hmem
      cases hmem
    · intro l
      simp [start, asked_nil]
    · intro k s hs
      cases hs
    · intro β M
      rw [if_neg (by simp [asked_nil])]
      exact M.read_start g
  | append_singleton jobs job ih =>
    rw [performAll_append] at h
    obtain ⟨y, hy, h⟩ := Option.bind_eq_some_iff.mp h
    have hjob : y.perform roll job = some x := by simpa [performAll] using h
    cases he : job.edge? with
    | none => exact (ih hy).quiet hjob he
    | some e =>
      cases job with
      | traverse k e =>
        obtain ⟨s, hs, hx⟩ := Option.bind_eq_some_iff.mp hjob
        cases hx
        exact (ih hy).traverse hs e
      | _ => cases he

/-- All selectors stop together, once more was reported than the limit of the first one allows. -/
theorem shouldStop (h : Records g jobs x) {n : Nat} (hn : firstLimit jobs = some n) {s : Selector}
    (hs : s ∈ x.selectors) : s.shouldStop x.instruments = decide (n < (reported jobs).length) := by
  obtain ⟨k, hk⟩ := List.mem_iff_getElem?.mp hs
  obtain ⟨-, -, hzero⟩ := h.exists_firstLimit hk
  simp [Selector.shouldStop, Instruments.isSpent, hzero, h.limits, hn, StepLimit.shouldStop]

theorem coverage (h : Records g jobs x) :
    x.instruments.coverage = if asked jobs .coverage then some (.after g (heard jobs .coverage)) else none :=
  h.reads Meter.coverage

theorem visits (h : Records g jobs x) :
    x.instruments.visits = if asked jobs .visits then some (.after (heard jobs .visits)) else none :=
  h.reads Meter.visits

theorem counter (h : Records g jobs x) (c : Nat) : x.instruments.counters[c]? =
    if asked jobs (.counter c) then some (heard jobs (.counter c)).length else none := by
  have hcount : (heard jobs (.counter c)).foldl (Meter.counter c).tell 0 = (heard jobs (.counter c)).length := by
    simp [Meter.counter]
  rw [← hcount]
  exact h.reads (Meter.counter c)

end Records

/-! ### An interleaving that is built last -/

theorem exists_selectors {ks : List Nat} (h : ∀ k ∈ ks, k < x.selectors.length) :
    ∃ ms, (ks.mapM fun k => x.selectors[k]?) = some ms := by
  induction ks with
  | nil => exact ⟨[], rfl⟩
  | cons k ks ih =>
    obtain ⟨ms, hms⟩ := ih fun k' hk' => h k' (List.mem_cons_of_mem _ hk')
    have hk := List.getElem?_eq_getElem (h k List.mem_cons_self)
    exact ⟨_ :: ms, mapM_eq_some.mpr (.cons hk (mapM_eq_some.mp hms))⟩

/-- Once there is a selector, those that are there can be interleaved. -/
theorem Records.interleave (h : Records g jobs x) {ks : List Nat} (hne : ks ≠ [])
    (hks : ∀ k ∈ ks, k < x.selectors.length) :
    ∃ ms w, (ks.mapM fun k => x.selectors[k]?) = some ms ∧
      x.perform roll (.interleave ks) = some { x with selectors := x.selectors ++ [.interleaved ms 0 w] } := by
  obtain ⟨ms, hms⟩ := exists_selectors hks
  obtain ⟨k, hk⟩ := List.exists_mem_of_ne_nil ks hne
  obtain ⟨s, hs⟩ := exists_of_mapM hms k hk
  have hcurrent := (h.wired k s hs).2.2
  have hmembers : ms ≠ [] := by
    rintro rfl
    exact hne (List.forall₂_nil_right_iff.mp (mapM_eq_some.mp hms))
  have hinterleave : x.instruments.interleave ms =
      .ok (.interleaved ms 0 (x.instruments.wiring s.wiring.limit)) := by
    unfold Instruments.interleave
    rw [hcurrent]
    split
    · exact absurd rfl hmembers
    · simp_all
    · simp_all
  refine ⟨ms, x.instruments.wiring s.wiring.limit, hms, ?_⟩
  rw [perform, hms, Option.bind_eq_bind, Option.bind_some, hinterleave]
  rfl

theorem exists_performAll_traverse {k : Nat} {s : Selector} (hs : x.selectors[k]? = some s) (es : List Edge) :
    ∃ y, x.performAll roll (es.map (.traverse k)) = some y ∧ y.selectors = x.selectors := by
  induction es generalizing x with
  | nil => exact ⟨x, rfl, rfl⟩
  | cons e es ih =>
    obtain ⟨y, hy, hsel⟩ := ih (x := { x with instruments := s.traverse e x.instruments }) hs
    refine ⟨y, ?_, hsel⟩
    rw [List.map_cons, performAll, List.foldlM_cons, perform_traverse hs, Option.bind_eq_bind, Option.bind_some]
    exact hy

/-- Whatever is reported through an interleaving alone is recorded once by each listener that was asked for before, and
counts once against the limit that came with the first selector. -/
theorem interleaved_recorded_once (g : Graph) (hquiet : ∀ job ∈ jobs, job.edge? = none)
    (hx : (start g).performAll roll jobs = some x) {ks : List Nat} (hne : ks ≠ [])
    (hks : ∀ k ∈ ks, k < x.selectors.length)
    (es : List Edge) :
    ∃ y ms w n, x.performAll roll (.interleave ks :: es.map (.traverse x.selectors.length)) = some y ∧
      (ks.mapM fun k => x.selectors[k]?) = some ms ∧ y.selectors = x.selectors ++ [.interleaved ms 0 w] ∧
      (if asked jobs .visits then
        ∃ v, y.instruments.visits = some v ∧ (∀ e, v.of e = es.count e) ∧ v.total = es.length
      else y.instruments.visits = none) ∧
      y.instruments.coverage = (if asked jobs .coverage then some (Coverage.after g es) else none) ∧
      y.instruments.counters = List.replicate (jobs.countP isCounter) es.length ∧
      firstLimit jobs = some n ∧ ∀ s ∈ y.selectors, s.shouldStop y.instruments = decide (n < es.length) := by
  have hrecords := Records.of_performAll hx
  obtain ⟨ms, w, hms, hinter⟩ := hrecords.interleave hne hks
  obtain ⟨y, hy, hsel⟩ := exists_performAll_traverse (x := { x with selectors := x.selectors ++ [.interleaved ms 0 w] })
    (k := x.selectors.length) (s := .interleaved ms 0 w) (by simp) es
  have hall : x.performAll roll (.interleave ks :: es.map (.traverse x.selectors.length)) = some y := by
    rw [performAll, List.foldlM_cons, hinter]
    exact hy
  have hrun :
      (start g).performAll roll (jobs ++ .interleave ks :: es.map (.traverse (jobs.countP builds))) = some y := by
    rw [performAll_append, hx, Option.bind_some, ← hrecords.built]
    exact hall
  have hfinal := Records.of_performAll hrun
  have hheard := heard_interleaved hquiet ks es
  have hasked := asked_interleaved jobs ks (jobs.countP builds) es
  obtain ⟨k, hk⟩ := List.exists_mem_of_ne_nil ks hne
  have hs : x.selectors[k]? = some _ := List.getElem?_eq_getElem (hks k hk)
  have hpos : 0 < jobs.countP builds := Nat.zero_lt_of_lt (hrecords.lt_of_getElem? hs)
  obtain ⟨n, hn, -⟩ := hrecords.exists_firstLimit hs
  refine ⟨y, ms, w, n, hall, hms, hsel, ?_, ?_, ?_, hn, ?_⟩
  · have hvisits := hfinal.visits
    rw [hasked, hheard] at hvisits
    split
    next ha =>
      rw [if_pos ha, if_pos ha] at hvisits
      exact ⟨.after es, hvisits, Visits.of_after es, Visits.total_after es⟩
    next ha => rw [hvisits, if_neg ha]
  · rw [hfinal.coverage, hasked, hheard]
    split <;> rfl
  · refine List.ext_getElem? fun c => ?_
    have hc : asked jobs (.counter c) = decide (c < jobs.countP isCounter) := rfl
    rw [hfinal.counter, hasked, hheard, List.getElem?_replicate, hc]
    by_cases hlt : c < jobs.countP isCounter
    · simp [hlt]
    · simp [hlt]
  · intro s hs
    have hlimit := (firstLimit_append hpos (.interleave ks :: es.map (.traverse (jobs.countP builds)))).trans hn
    rw [hfinal.shouldStop hlimit hs, reported_interleaved hquiet]

def fork : Graph := .ofEdges 3 [⟨0, 1⟩, ⟨0, 2⟩]

/-- Two traversals of one edge, with a limit of one. -/
theorem interleaved_recorded_once_fork :
    ∃ x y,
      (start fork).performAll Dice.ofSeed
        [.counter, .policy .bfs { stepLimit := some 1 }, .policy .visitCounting {}] = some x ∧
      x.performAll Dice.ofSeed [.interleave [1, 0], .traverse 2 ⟨0, 1⟩, .traverse 2 ⟨0, 1⟩] = some y ∧
      (∃ v, y.instruments.visits = some v ∧ v.of ⟨0, 1⟩ = 2 ∧ v.total = 2) ∧ y.instruments.counters = [2] ∧
      ∀ s ∈ y.selectors, s.shouldStop y.instruments = true := by
  obtain ⟨x, hx, hlength⟩ : ∃ x, (start fork).performAll Dice.ofSeed [.counter, .policy .bfs { stepLimit := some 1 },
      .policy .visitCounting {}] = some x ∧ x.selectors.length = 2 := ⟨_, rfl, rfl⟩
  obtain ⟨y, -, -, n, hy, -, -, ⟨v, hv, hof, htotal⟩, -, hcounters, hn, hstop⟩ := interleaved_recorded_once fork
    (by decide) hx (show [1, 0] ≠ [] by decide) (by simp [hlength]) [⟨0, 1⟩, ⟨0, 1⟩]
  obtain rfl : 1 = n := Option.some.inj hn
  rw [hlength] at hy
  exact ⟨x, y, hx, hy, ⟨v, hv, hof _, htotal⟩, hcounters, hstop⟩

/-! ### Any order of jobs -/

/-- Does the jobs that can be done, and leaves the others. -/
def attemptAll (roll : Option Nat → Dice) (x : Bench) (jobs : List Job) : Bench :=
  jobs.foldl (fun x job => (x.perform roll job).getD x) x

/-- The jobs that could be done. -/
def accepted (roll : Option Nat → Dice) : Bench → List Job → List Job
  | _, [] => []
  | x, job :: jobs =>
    match x.perform roll job with
    | some y => job :: accepted roll y jobs
    | none => accepted roll x jobs

theorem performAll_accepted (x : Bench) (jobs : List Job) :
    x.performAll roll (x.accepted roll jobs) = some (x.attemptAll roll jobs) := by
  induction jobs generalizing x with
  | nil => rfl
  | cons job jobs ih =>
    rw [accepted, attemptAll, List.foldl_cons]
    cases hy : x.perform roll job with
    | none => exact ih x
    | some y =>
      rw [performAll, List.foldlM_cons, hy]
      exact ih y

/-- The statistics have heard what was reported through selectors that know them, and a selector does not know those
that were first asked for after it was built. -/
theorem attemptAll_heard (g : Graph) (jobs : List Job) {k : Nat}
    (hk : k < ((start g).attemptAll roll jobs).selectors.length) (e : Edge) :
    let x := (start g).attemptAll roll jobs
    let done := (start g).accepted roll jobs
    (x.instruments.coverage = if asked done .coverage then some (.after g (heard done .coverage)) else none) ∧
      (x.instruments.visits = if asked done .visits then some (.after (heard done .visits)) else none) ∧
      ∃ y, x.perform roll (.traverse k e) = some y ∧
        (y.instruments.coverage = if asked (upTo k done) .coverage then
          x.instruments.coverage.map (·.traverse e) else x.instruments.coverage) ∧
        y.instruments.visits = if asked (upTo k done) .visits then
          x.instruments.visits.map (·.traverse e) else x.instruments.visits := by
  intro x done
  have h : Records g done x := Records.of_performAll (performAll_accepted (start g) jobs)
  have hs := List.getElem?_eq_getElem hk
  exact ⟨h.coverage, h.visits, _, perform_traverse hs e, h.read_traverse hs e Meter.coverage,
    h.read_traverse hs e Meter.visits⟩

/-- The first job cannot be done, for want of a limit. -/
def visitsLate : List Job :=
  [.policy .visitCounting {}, .policy .bfs { stepLimit := some 9 }, .policy .visitCounting {}]

theorem attemptAll_heard_fork :
    ∃ y, ((start fork).attemptAll Dice.ofSeed visitsLate).perform Dice.ofSeed (.traverse 0 ⟨0, 1⟩) = some y ∧
    y.instruments.coverage =
      ((start fork).attemptAll Dice.ofSeed visitsLate).instruments.coverage.map (·.traverse ⟨0, 1⟩) ∧
    y.instruments.visits = ((start fork).attemptAll Dice.ofSeed visitsLate).instruments.visits := by
  obtain ⟨-, -, y, hy, hcoverage, hvisits⟩ := attemptAll_heard fork visitsLate
    (show 0 < ((start fork).attemptAll Dice.ofSeed visitsLate).selectors.length by decide) ⟨0, 1⟩
  exact ⟨y, hy, hcoverage, hvisits⟩

/-- Visits are counted, but not those that are reported through the older of two selectors. -/
theorem visits_unheard : ∃ x y z, (start fork).performAll Dice.ofSeed [.policy .bfs { stepLimit := some 9 },
    .policy .visitCounting {}] = some x ∧ x.instruments.visits.isSome = true ∧
      x.perform Dice.ofSeed (.traverse 0 ⟨0, 1⟩) = some y ∧ y.instruments.visitsOf ⟨0, 1⟩ = 0 ∧
      x.perform Dice.ofSeed (.traverse 1 ⟨0, 1⟩) = some z ∧ z.instruments.visitsOf ⟨0, 1⟩ = 1 :=
  ⟨_, _, _, rfl, rfl, rfl, rfl, rfl, rfl⟩

end Bench

end Symex
