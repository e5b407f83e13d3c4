import Mathlib.Data.List.Induction
import Symex.Stats.Coverage

/-!
# Distances are shortest

The search backwards finds the locations layer by layer: while it runs, the queue has the locations at some distance
`r` in front and those at distance `r + 1` behind them, and no location found is further away. So a distance is never
improved once it is found, every location enters the queue once, and when the queue is empty the distance of every
location is the length of a shortest path to a goal.
-/

namespace Symex

/-! ### Paths -/

/-- A path of so many edges from one location to another. -/
inductive Edge.Path (es : List Edge) : Nat → Nat → Nat → Prop
  | here (l : Nat) : Path es l l 0
  | cons {l m k n : Nat} (h : ⟨l, m⟩ ∈ es) (p : Path es m k n) : Path es l k (n + 1)

/-- The rank says how many edges the nearest goal is away, and is the worst if no goal can be reached. -/
def Edge.Shortest (es : List Edge) (goal : Nat → Prop) (l : Nat) : Rank → Prop
  | .finite n => (∃ k, goal k ∧ Path es l k n) ∧ ∀ k m, goal k → Path es l k m → n ≤ m
  | .worst => ∀ k m, goal k → ¬ Path es l k m

theorem Edge.Path.mono {es fs : List Edge} (h : ∀ e ∈ es, e ∈ fs) {l k n : Nat} (p : Path es l k n) :
    Path fs l k n := by
  induction p with
  | here l => exact .here l
  | cons hl _ ih => exact .cons (h _ hl) ih

theorem Edge.Shortest.congr {es fs : List Edge} {goal goal' : Nat → Prop} {l : Nat} {r : Rank}
    (hes : ∀ e, e ∈ es ↔ e ∈ fs) (hgoal : ∀ k n, Path fs l k n → (goal k ↔ goal' k)) (h : Shortest es goal l r) :
    Shortest fs goal' l r := by
  have hto : ∀ {k n}, Path es l k n → Path fs l k n := fun p => p.mono fun e he => (hes e).mp he
  have hof : ∀ {k n}, Path fs l k n → Path es l k n := fun p => p.mono fun e he => (hes e).mpr he
  cases r with
  | finite n =>
    obtain ⟨⟨k, hk, p⟩, hle⟩ := h
    exact ⟨⟨k, (hgoal k n (hto p)).mp hk, hto p⟩, fun k' m hk' p' => hle k' m ((hgoal k' m p').mpr hk') (hof p')⟩
  | worst => exact fun k m hk p => h k m ((hgoal k m p).mpr hk) (hof p)

/-! ### Graphs -/

namespace Graph

/-- The graph has room for the ends of its links. -/
def HasRoom (g : Graph) : Prop := ∀ e ∈ g.links, e.source < g.size ∧ e.target < g.size

theorem hasRoom_addEdge {g : Graph} (hg : g.HasRoom) (e : Edge) : (g.addEdge e).HasRoom := by
  have hsize : (g.addEdge e).size = max g.size (max e.source e.target + 1) := rfl
  intro x hx
  rcases mem_links_addEdge.mp hx with rfl | hx
  · omega
  · have := hg x hx
    omega

theorem hasRoom_ofEdges (size : Nat) (es : List Edge) : (ofEdges size es).HasRoom := by
  have hfold : ∀ (es : List Edge) (g : Graph), g.HasRoom → (es.foldl addEdge g).HasRoom := by
    intro es
    induction es with
    | nil => exact fun g hg => hg
    | cons e es ih => exact fun g hg => ih _ (hasRoom_addEdge hg e)
  exact hfold es _ (fun e he => by cases he)

theorem mem_links_ofEdges {size : Nat} {es : List Edge} {x : Edge} : x ∈ (ofEdges size es).links ↔ x ∈ es := by
  have hfold : ∀ (es : List Edge) (g : Graph), x ∈ (es.foldl addEdge g).links ↔ x ∈ g.links ∨ x ∈ es := by
    intro es
    induction es with
    | nil => simp
    | cons e es ih =>
      intro g
      rw [List.foldl_cons, ih, mem_links_addEdge, List.mem_cons, or_assoc, or_left_comm]
  simp [ofEdges, hfold]

theorem HasRoom.lt_of_path {g : Graph} (hg : g.HasRoom) {l k n : Nat} (p : Edge.Path g.links l k n) (hl : l < g.size) :
    k < g.size := by
  induction p with
  | here l => exact hl
  | cons h _ ih => exact ih (hg _ h).2

end Graph

/-! ### A search in progress -/

theorem Distances.of_set (d : Distances) (l m : Nat) (r : Rank) :
    (d.set l r).of m = if m = l ∧ l < d.ranks.length then r else d.of m := by
  simp only [of, set, List.getD_eq_getElem?_getD, List.getElem?_set]
  by_cases hm : l = m
  · subst hm
    by_cases hl : l < d.ranks.length <;> simp [hl]
  · simp [hm, Ne.symm hm]

namespace Spread

variable {g : Graph} {goal : Nat → Prop} {r : Nat} {near far : List Nat} {s t u : Spread}

/-- Locations at distance `r` are near, those in the queue behind them are far, and nothing found is further away. -/
structure Running (g : Graph) (goal : Nat → Prop) (r : Nat) (near far : List Nat) (s : Spread) : Prop where
  queue_eq : s.queue = near ++ far
  length_eq : s.distances.ranks.length = g.size
  near_eq : ∀ l ∈ near, s.distances.of l = .finite r
  far_eq : ∀ l ∈ far, s.distances.of l = .finite (r + 1)
  found_le : ∀ l n, s.distances.of l = .finite n → n ≤ r + 1
  path : ∀ l n, s.distances.of l = .finite n → ∃ k, goal k ∧ Edge.Path g.links l k n
  goals : ∀ l < g.size, goal l → s.distances.of l = .finite 0

/-- The predecessors of a location that was found are found, and at most one link further away. -/
def Settled (g : Graph) (s : Spread) (l : Nat) : Prop :=
  ∀ n p, s.distances.of l = .finite n → ⟨p, l⟩ ∈ g.links → ∃ m ≤ n + 1, s.distances.of p = .finite m

/-- The locations in the queue and those still to be found. -/
def pending (s : Spread) : Nat := s.queue.length + s.distances.ranks.count .worst

/-- What was found stays, and what is found from here on goes into the queue. -/
structure Grows (s t : Spread) : Prop where
  found : ∀ l n, s.distances.of l = .finite n → t.distances.of l = .finite n
  fresh : ∀ l n, t.distances.of l = .finite n → s.distances.of l = .finite n ∨ l ∈ t.queue
  queued : ∀ l ∈ s.queue, l ∈ t.queue
  pending_eq : t.pending = s.pending

theorem Grows.refl (s : Spread) : Grows s s := ⟨fun _ _ h => h, fun _ _ h => Or.inl h, fun _ h => h, rfl⟩

theorem Grows.trans (h : Grows s t) (k : Grows t u) : Grows s u where
  found l n hl := k.found l n (h.found l n hl)
  fresh l n hl := by
    rcases k.fresh l n hl with ht | hu
    · exact (h.fresh l n ht).imp_right (k.queued l)
    · exact Or.inr hu
  queued l hl := k.queued l (h.queued l hl)
  pending_eq := k.pending_eq.trans h.pending_eq

theorem Grows.settled (h : Grows s t) {l : Nat} (hl : l ∉ t.queue) (hs : Settled g s l) : Settled g t l := by
  intro n p hn hp
  have hold : s.distances.of l = .finite n := (h.fresh l n hn).resolve_right hl
  obtain ⟨m, hm, hpm⟩ := hs n p hold hp
  exact ⟨m, hm, h.found p m hpm⟩

/-- A predecessor of a location at distance `r` is found one link further away, unless it was found before. -/
theorem Running.reach (h : Running g goal r near far s) {l p : Nat} (hl : s.distances.of l = .finite r)
    (hp : ⟨p, l⟩ ∈ g.links) (hlt : p < g.size) :
    ∃ far', Running g goal r near far' (s.reach (.finite (r + 1)) p) ∧ Grows s (s.reach (.finite (r + 1)) p) ∧
      ∃ m ≤ r + 1, (s.reach (.finite (r + 1)) p).distances.of p = .finite m := by
  have hlen := h.length_eq
  cases hd : s.distances.of p with
  | finite m =>
    have hm := h.found_le p m hd
    have hsame : s.reach (.finite (r + 1)) p = s := by
      have hlt : ¬ r + 1 < m := by omega
      simp [Spread.reach, hd, Rank.lt, hlt]
    rw [hsame]
    exact ⟨far, h, .refl s, m, hm, hd⟩
  | worst =>
    have hnew : s.reach (.finite (r + 1)) p = ⟨s.distances.set p (.finite (r + 1)), s.queue ++ [p]⟩ := by
      simp [Spread.reach, hd, Rank.lt]
    have hof : ∀ x, (s.distances.set p (.finite (r + 1))).of x = if x = p then .finite (r + 1) else s.distances.of x := by
      intro x
      rw [Distances.of_set]
      simp [hlen, hlt]
    -- What was found before is not `p`.
    have hkeep : ∀ x n, s.distances.of x = .finite n → (s.distances.set p (.finite (r + 1))).of x = .finite n := by
      intro x n hx
      have hne : x ≠ p := by
        rintro rfl
        rw [hd] at hx
        cases hx
      rw [hof, if_neg hne, hx]
    rw [hnew]
    refine ⟨far ++ [p], ⟨?_, ?_, ?_, ?_, ?_, ?_, ?_⟩, ⟨hkeep, ?_, ?_, ?_⟩, r + 1, Nat.le_refl _, by simp [hof]⟩
    · simp [h.queue_eq]
    · simp [Distances.set, hlen]
    · exact fun x hx => hkeep x r (h.near_eq x hx)
    · intro x hx
      rcases List.mem_append.mp hx with hx | hx
      · exact hkeep x (r + 1) (h.far_eq x hx)
      · simp [hof, List.mem_singleton.mp hx]
    · intro x n hx
      rw [hof] at hx
      split at hx
      · cases hx
        exact Nat.le_refl _
      · exact h.found_le x n hx
    · intro x n hx
      rw [hof] at hx
      split at hx
      next he =>
        cases hx
        obtain ⟨k, hk, q⟩ := h.path l r hl
        exact ⟨k, hk, he ▸ .cons hp q⟩
      next => exact h.path x n hx
    · exact fun x hx hgoal => hkeep x 0 (h.goals x hx hgoal)
    · intro x n hx
      by_cases he : x = p
      · simp [he]
      · left
        have hx' : (s.distances.set p (.finite (r + 1))).of x = .finite n := hx
        rwa [hof, if_neg he] at hx'
    · intro x hx
      exact List.mem_append_left _ hx
    · have hp' : p < s.distances.ranks.length := by omega
      have hget : s.distances.ranks[p] = .worst := by
        simpa [Distances.of, List.getD_eq_getElem?_getD, hp'] using hd
      have hpos : 0 < s.distances.ranks.count .worst := List.count_pos_iff.mpr (hget ▸ List.getElem_mem hp')
      simp only [pending, Distances.set, List.count_set hp', hget, List.length_append, List.length_singleton]
      simp
      omega

theorem Running.foldl_reach (hg : g.HasRoom) (h : Running g goal r near far s) {l : Nat}
    (hl : s.distances.of l = .finite r) {ps : List Nat} (hps : ∀ p ∈ ps, ⟨p, l⟩ ∈ g.links) :
    ∃ far', Running g goal r near far' (ps.foldl (Spread.reach (.finite (r + 1))) s) ∧
      Grows s (ps.foldl (Spread.reach (.finite (r + 1))) s) ∧
      ∀ p ∈ ps, ∃ m ≤ r + 1, (ps.foldl (Spread.reach (.finite (r + 1))) s).distances.of p = .finite m := by
  induction ps generalizing s far with
  | nil => exact ⟨far, h, .refl s, fun p hp => by cases hp⟩
  | cons p ps ih =>
    have hp := hps p List.mem_cons_self
    obtain ⟨far₁, h₁, hg₁, m, hm, hpm⟩ := h.reach hl hp (hg _ hp).1
    obtain ⟨far₂, h₂, hg₂, hall⟩ := ih h₁ (hg₁.found l r hl) fun q hq => hps q (List.mem_cons_of_mem _ hq)
    refine ⟨far₂, h₂, hg₁.trans hg₂, ?_⟩
    intro q hq
    rcases List.mem_cons.mp hq with rfl | hq
    · exact ⟨m, hm, hg₂.found q m hpm⟩
    · exact hall q hq

/-- When the locations at distance `r` have left the queue, those at distance `r + 1` are the near ones. -/
theorem Running.advance (h : Running g goal r [] far s) : Running g goal (r + 1) far [] s where
  queue_eq := by simp [h.queue_eq]
  length_eq := h.length_eq
  near_eq := h.far_eq
  far_eq l hl := by cases hl
  found_le l n hl := by
    have := h.found_le l n hl
    omega
  path := h.path
  goals := h.goals

theorem Running.exists_head (h : Running g goal r near far s) {l : Nat} {ls : List Nat} (hq : s.queue = l :: ls) :
    ∃ r near' far', Running g goal r (l :: near') far' s ∧ ls = near' ++ far' := by
  have heq := h.queue_eq.symm.trans hq
  cases near with
  | nil =>
    have hfar : far = l :: ls := heq
    exact ⟨r + 1, ls, [], hfar ▸ h.advance, by simp⟩
  | cons x near =>
    simp only [List.cons_append, List.cons.injEq] at heq
    obtain ⟨rfl, rfl⟩ := heq
    exact ⟨r, near, far, h, rfl⟩

/-- One location leaves the queue. -/
theorem Running.expand (hg : g.HasRoom) {l : Nat} (h : Running g goal r (l :: near) far s)
    (hs : ∀ x ∉ s.queue, Settled g s x) :
    ∃ far', Running g goal r near far' (Spread.expand g { s with queue := near ++ far } l) ∧
      (∀ x ∉ (Spread.expand g { s with queue := near ++ far } l).queue,
        Settled g (Spread.expand g { s with queue := near ++ far } l) x) ∧
      (Spread.expand g { s with queue := near ++ far } l).pending + 1 = s.pending := by
  have hl := h.near_eq l List.mem_cons_self
  have hrest : Running g goal r near far { s with queue := near ++ far } :=
    ⟨rfl, h.length_eq, fun x hx => h.near_eq x (List.mem_cons_of_mem _ hx), h.far_eq, h.found_le, h.path, h.goals⟩
  have hexp : Spread.expand g { s with queue := near ++ far } l =
      (g.predecessors l).foldl (Spread.reach (.finite (r + 1))) { s with queue := near ++ far } := by
    simp [Spread.expand, hl, Rank.next]
  obtain ⟨far', hrun, hgrow, hall⟩ := hrest.foldl_reach hg hl fun p (hp : p ∈ g.predecessors l) =>
    Graph.mem_predecessors.mp hp
  rw [hexp]
  refine ⟨far', hrun, ?_, ?_⟩
  · intro x hx
    by_cases he : x = l
    · subst he
      intro n p hn hp
      have hn' := hgrow.found x r hl
      rw [hn] at hn'
      cases hn'
      exact hall p (Graph.mem_predecessors.mpr hp)
    · have hmem : x ∉ near ++ far := fun hmem => hx (hgrow.queued x hmem)
      have hq : x ∉ s.queue := by
        rw [h.queue_eq, List.cons_append, List.mem_cons]
        exact fun hor => hor.elim he hmem
      exact hgrow.settled hx (hs x hq)
  · rw [hgrow.pending_eq]
    simp only [pending, h.queue_eq, List.cons_append, List.length_cons]
    omega

theorem Running.ended (h : Running g goal r near far s) (hs : ∀ x ∉ s.queue, Settled g s x) (hq : s.queue = []) :
    ∃ r', Running g goal r' [] [] s ∧ ∀ x, Settled g s x := by
  have hnil := List.append_eq_nil_iff.mp (h.queue_eq.symm.trans hq)
  rw [hnil.1, hnil.2] at h
  exact ⟨r, h, fun x => hs x (by simp [hq])⟩

/-- Every location leaves the queue once, so the search ends with an empty queue. -/
theorem Running.run (hg : g.HasRoom) {n : Nat} (h : Running g goal r near far s) (hs : ∀ x ∉ s.queue, Settled g s x)
    (hn : s.pending ≤ n) :
    ∃ r', Running g goal r' [] [] (Spread.run g n s) ∧ ∀ x, Settled g (Spread.run g n s) x := by
  induction n generalizing s r near far with
  | zero =>
    have hlen : s.queue.length = 0 := by
      unfold pending at hn
      omega
    exact h.ended hs (List.length_eq_zero_iff.mp hlen)
  | succ n ih =>
    rw [Spread.run]
    cases hq : s.queue with
    | nil => exact h.ended hs hq
    | cons l ls =>
      obtain ⟨r, near', far', h', rfl⟩ := h.exists_head hq
      obtain ⟨far₂, h₂, hs₂, hpend⟩ := h'.expand hg hs
      exact ih h₂ hs₂ (by omega)

/-! ### The search as a whole -/

theorem of_start (g : Graph) (covered : List Nat) (l : Nat) :
    (Distances.start g covered).of l = if l < g.size ∧ l ∉ covered then .finite 0 else .worst := by
  simp only [Distances.of, Distances.start, List.getD_eq_getElem?_getD, Graph.locations, List.getElem?_map]
  by_cases hl : l < g.size
  · by_cases hc : l ∈ covered <;> simp [hl, hc]
  · simp [hl]

theorem pending_start (g : Graph) (covered : List Nat) : (start g covered).pending = g.size := by
  have hcount : (Distances.start g covered).ranks.count .worst = (g.locations.countP (· ∈ covered)) := by
    simp only [Distances.start, List.count, List.countP_map]
    congr 1
    funext l
    by_cases hc : l ∈ covered <;> simp [hc]
  have hsplit := List.length_eq_countP_add_countP (fun l => decide (l ∈ covered)) (l := g.locations)
  have hlen : g.locations.length = g.size := List.length_range
  simp only [pending, start, hcount, ← List.countP_eq_length_filter]
  simp only [decide_not, decide_eq_true_eq] at hsplit ⊢
  omega

theorem running_start (g : Graph) (covered : List Nat) :
    Running g (fun k => k < g.size ∧ k ∉ covered) 0 (start g covered).queue [] (start g covered) := by
  have hof : ∀ l n, (start g covered).distances.of l = .finite n → n = 0 ∧ l < g.size ∧ l ∉ covered := by
    intro l n hl
    have hl' := (of_start g covered l).symm.trans hl
    split at hl'
    next h =>
      cases hl'
      exact ⟨rfl, h⟩
    next => cases hl'
  constructor
  · simp
  · simp [start, Distances.start, Graph.locations]
  · intro l hl
    simp only [start, Graph.locations, List.mem_filter, List.mem_range, decide_eq_true_eq] at hl
    exact (of_start g covered l).trans (if_pos hl)
  · intro l hl
    cases hl
  · intro l n hl
    have := (hof l n hl).1
    omega
  · intro l n hl
    obtain ⟨rfl, hgoal⟩ := hof l n hl
    exact ⟨l, hgoal, .here l⟩
  · intro l _ hgoal
    exact (of_start g covered l).trans (if_pos hgoal)

theorem settled_start (g : Graph) (covered : List Nat) {l : Nat} (hl : l ∉ (start g covered).queue) :
    Settled g (start g covered) l := by
  intro n p hn _
  have hn' := (of_start g covered l).symm.trans hn
  split at hn'
  next h => exact absurd (by simpa [start, Graph.locations] using h) hl
  next => cases hn'

/-- A location from which a goal can be reached is found, and not further away than the goal. -/
theorem Running.le_of_path (h : Running g goal r near far s) (hg : g.HasRoom) (hs : ∀ x, Settled g s x) {l k n : Nat}
    (hk : goal k) (p : Edge.Path g.links l k n) (hl : l < g.size) : ∃ m ≤ n, s.distances.of l = .finite m := by
  induction p with
  | here l => exact ⟨0, Nat.le_refl _, h.goals l hl hk⟩
  | cons hlink _ ih =>
    obtain ⟨m, hm, hfound⟩ := ih hk (hg _ hlink).2
    obtain ⟨m', hm', hfound'⟩ := hs _ m _ hfound hlink
    exact ⟨m', by omega, hfound'⟩

end Spread

/-- Distances to the locations that are not covered. -/
theorem Distances.compute_shortest {g : Graph} (hg : g.HasRoom) (covered : List Nat) {l : Nat} (hl : l < g.size) :
    Edge.Shortest g.links (fun k => k < g.size ∧ k ∉ covered) l ((compute g covered).of l) := by
  obtain ⟨r, hrun, hsettled⟩ := (Spread.running_start g covered).run hg
    (fun x hx => Spread.settled_start g covered hx) (Nat.le_of_eq (Spread.pending_start g covered))
  have hle := fun k n hk (p : Edge.Path g.links l k n) => hrun.le_of_path hg hsettled hk p hl
  show Edge.Shortest _ _ _ ((Spread.run g g.size (.start g covered)).distances.of l)
  cases hd : (Spread.run g g.size (.start g covered)).distances.of l with
  | finite n =>
    refine ⟨hrun.path l n hd, ?_⟩
    intro k m hk p
    obtain ⟨m', hm', hfound⟩ := hle k m hk p
    rw [hd] at hfound
    cases hfound
    exact hm'
  | worst =>
    intro k m hk p
    obtain ⟨m', -, hfound⟩ := hle k m hk p
    rw [hd] at hfound
    cases hfound

/-! ### Coverage along a run -/

/-- The location is an end of one of the edges. -/
def Touched (es : List Edge) (l : Nat) : Prop := ∃ e ∈ es, l = e.source ∨ l = e.target

theorem touched_concat {es : List Edge} {e : Edge} {l : Nat} :
    Touched (es ++ [e]) l ↔ Touched es l ∨ (l = e.source ∨ l = e.target) := by
  simp [Touched, or_and_right, exists_or]

namespace Coverage

/-- What is known after some traversals, in order. -/
def after (g : Graph) (es : List Edge) : Coverage := es.foldl traverse (.start g)

theorem after_concat (g : Graph) (es : List Edge) (e : Edge) : after g (es ++ [e]) = (after g es).traverse e := by
  simp [after]

/-- The edge leads to or from a location in range that none of the earlier edges touches. -/
def Discovers (g : Graph) (before : List Edge) (e : Edge) : Prop :=
  ∃ l, (l = e.source ∨ l = e.target) ∧ l < g.size ∧ ¬ Touched before l

/-- What a run of traversals has to know. -/
structure Tracks (g : Graph) (es : List Edge) (c : Coverage) : Prop where
  graph_eq : c.graph = g
  covered_iff : ∀ l, l ∈ c.covered ↔ l < g.size ∧ Touched es l
  covering_iff : ∀ e, e ∈ c.covering ↔ ∃ before later, es = before ++ e :: later ∧ Discovers g before e
  distances_eq : c.distances = .compute g c.covered

theorem tracks_start (g : Graph) : Tracks g [] (.start g) where
  graph_eq := rfl
  covered_iff l := by simp [start, Touched]
  covering_iff e := by simp [start]
  distances_eq := rfl

variable {g : Graph} {es : List Edge} {c : Coverage}

theorem Tracks.isNew_iff (h : Tracks g es c) (l : Nat) : c.isNew l = true ↔ l < g.size ∧ ¬ Touched es l := by
  simp only [isNew, isCovered, h.graph_eq, h.covered_iff, Bool.and_eq_true, decide_eq_true_eq, Bool.not_eq_true',
    decide_eq_false_iff_not]
  exact and_congr_right fun hl => by simp [hl]

theorem Tracks.mem_reached (h : Tracks g es c) (e : Edge) (l : Nat) :
    l ∈ [e.source, e.target].eraseDups.filter c.isNew ↔
      (l = e.source ∨ l = e.target) ∧ l < g.size ∧ ¬ Touched es l := by
  simp [List.mem_filter, List.mem_eraseDups, h.isNew_iff]

theorem exists_split_concat {e x : Edge} {p : List Edge → Prop} :
    (∃ before later, es ++ [e] = before ++ x :: later ∧ p before) ↔
      (∃ before later, es = before ++ x :: later ∧ p before) ∨ (x = e ∧ p es) := by
  constructor
  · rintro ⟨before, later, heq, hp⟩
    rcases List.eq_nil_or_concat later with rfl | ⟨later, y, rfl⟩
    · obtain ⟨rfl, hx⟩ := List.append_inj' heq rfl
      exact Or.inr ⟨(List.singleton_inj.mp hx).symm, hp⟩
    · have hsame : es ++ [e] = (before ++ x :: later) ++ [y] := by simpa using heq
      exact Or.inl ⟨before, later, (List.append_inj' hsame rfl).1, hp⟩
  · rintro (⟨before, later, rfl, hp⟩ | ⟨rfl, hp⟩)
    · exact ⟨before, later ++ [e], by simp, hp⟩
    · exact ⟨es, [], rfl, hp⟩

theorem Tracks.traverse (h : Tracks g es c) (e : Edge) : Tracks g (es ++ [e]) (c.traverse e) := by
  have hmem := h.mem_reached e
  unfold Coverage.traverse
  generalize hr : [e.source, e.target].eraseDups.filter c.isNew = reached at hmem
  cases reached with
  | nil =>
    -- Both ends were touched before or are out of range, and nothing changes.
    have hold : ∀ l, (l = e.source ∨ l = e.target) → l < g.size → Touched es l := by
      intro l hl hlt
      by_contra hn
      exact List.not_mem_nil ((hmem l).mpr ⟨hl, hlt, hn⟩)
    refine ⟨h.graph_eq, ?_, ?_, h.distances_eq⟩
    · intro l
      rw [h.covered_iff, touched_concat]
      exact and_congr_right fun hlt => ⟨Or.inl, fun ht => ht.elim id fun hl => hold l hl hlt⟩
    · intro x
      rw [h.covering_iff, exists_split_concat]
      refine ⟨Or.inl, fun ht => ht.elim id ?_⟩
      rintro ⟨rfl, l, hl, hlt, hn⟩
      exact absurd (hold l hl hlt) hn
  | cons k ks =>
    have hdiscovers : Discovers g es e := ⟨k, (hmem k).mp List.mem_cons_self⟩
    refine ⟨h.graph_eq, ?_, ?_, by simp only [h.graph_eq]⟩
    · intro l
      simp only [List.mem_append, hmem, h.covered_iff, touched_concat]
      by_cases ht : Touched es l
      · simp [ht]
      · simp [ht, and_comm]
    · intro x
      have hx : x ∈ (if e ∈ c.covering then c.covering else c.covering ++ [e]) ↔ x ∈ c.covering ∨ x = e := by
        split
        next he => exact ⟨Or.inl, fun ht => ht.elim id fun hxe => hxe ▸ he⟩
        next => simp
      rw [exists_split_concat, ← h.covering_iff]
      refine hx.trans (or_congr_right ⟨fun hxe => ⟨hxe, hxe ▸ hdiscovers⟩, fun hxe => hxe.1⟩)

theorem tracks_after (g : Graph) (es : List Edge) : Tracks g es (after g es) := by
  induction es using List.reverseRecOn with
  | nil => exact tracks_start g
  | append_singleton es e ih =>
    rw [after_concat]
    exact ih.traverse e

/-- After any traversals, also of edges that the graph does not have, the distances are those of shortest paths to a
location that no traversal has touched, the covered locations are those touched and in range, and an edge is covering if
one of its traversals was the first to touch one of its ends. -/
theorem after_exact (size : Nat) (edges traversed : List Edge) :
    (∀ l < (Graph.ofEdges size edges).size,
      Edge.Shortest edges (fun k => ¬ Touched traversed k) l ((after (.ofEdges size edges) traversed).distance l)) ∧
    (∀ l, (after (.ofEdges size edges) traversed).isCovered l = true ↔
      l < (Graph.ofEdges size edges).size ∧ Touched traversed l) ∧
    ∀ e, (after (.ofEdges size edges) traversed).isCovering e = true ↔
      ∃ before later, traversed = before ++ e :: later ∧ Discovers (.ofEdges size edges) before e := by
  have h := tracks_after (.ofEdges size edges) traversed
  have hg := Graph.hasRoom_ofEdges size edges
  refine ⟨?_, ?_, ?_⟩
  · intro l hl
    have hd := Distances.compute_shortest hg (after (.ofEdges size edges) traversed).covered hl
    rw [← h.distances_eq] at hd
    refine hd.congr (fun e => Graph.mem_links_ofEdges) ?_
    intro k n p
    have hk : k < (Graph.ofEdges size edges).size :=
      hg.lt_of_path (p.mono fun e he => Graph.mem_links_ofEdges.mpr he) hl
    simp [h.covered_iff, hk]
  · intro l
    simp [isCovered, h.covered_iff]
  · intro e
    simp [isCovering, h.covering_iff]

-- The second traversal covers what was left, and the third nothing.
example : (after (.ofEdges 3 [⟨0, 1⟩, ⟨1, 2⟩, ⟨0, 2⟩]) [⟨0, 1⟩]).distances = ⟨[.finite 1, .finite 1, .finite 0]⟩ ∧
    (after (.ofEdges 3 [⟨0, 1⟩, ⟨1, 2⟩, ⟨0, 2⟩]) [⟨0, 1⟩, ⟨1, 2⟩, ⟨0, 2⟩]).covering = [⟨0, 1⟩, ⟨1, 2⟩] := by
  decide

end Coverage

end Symex
