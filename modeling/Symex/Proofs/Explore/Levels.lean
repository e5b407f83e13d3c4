import Symex.Proofs.Explore.Turns

/-!
# Breadth first

A queue that gives out the oldest batch first explores level by level. The ranking may take the states of a batch in any
order, and the children of early picks wait behind the batches that are left. But at every moment the queue holds
batches of one level, and after them only batches of the next one.
-/

namespace Symex

/-! ### Two levels in a queue -/

namespace Batches

/-- Batches of states of one depth, followed by batches of states one deeper. -/
def Leveled (d : Nat) (bs : List Batch) : Prop :=
  ∃ near far, bs = near ++ far ∧ (∀ s ∈ near.flatMap Batch.toList, s.depth = d) ∧
    ∀ s ∈ far.flatMap Batch.toList, s.depth = d + 1

variable {d : Nat} {bs rest : List Batch} {below : State → State → Bool} {s : State}

theorem Leveled.pushAll (h : Leveled d bs) {ss : List State} (hss : ∀ s ∈ ss, s.depth = d + 1) :
    Leveled d (bs ++ (Batch.ofList? ss).toList) := by
  obtain ⟨near, far, rfl, hnear, hfar⟩ := h
  refine ⟨near, far ++ (Batch.ofList? ss).toList, List.append_assoc _ _ _, hnear, ?_⟩
  intro s hs
  simp only [List.flatMap_append, Batch.flatMap_ofList?, List.mem_append] at hs
  exact hs.elim (hfar s) (hss s)

/-- What is picked is as deep as anything that is held, or less deep. -/
theorem Leveled.pick (h : Leveled d bs) (hpick : Batches.pick below bs = some (s, rest)) :
    d ≤ s.depth ∧ (∀ c ∈ bs.flatMap Batch.toList, s.depth ≤ c.depth) ∧ Leveled s.depth rest := by
  obtain ⟨near, far, rfl, hnear, hfar⟩ := h
  have hperm := pick_perm hpick
  cases near with
  | nil =>
    -- The level is done, and all that is left is of the next one.
    have hs : s.depth = d + 1 := hfar s (hperm.mem_iff.mp List.mem_cons_self)
    refine ⟨hs ▸ Nat.le_succ d, fun c hc => by rw [hs, hfar c hc], rest, [], (List.append_nil rest).symm, ?_, by simp⟩
    intro c hc
    rw [hs]
    exact hfar c (hperm.mem_iff.mp (List.mem_cons_of_mem _ hc))
  | cons b near =>
    obtain ⟨⟨t, left⟩, ht, he⟩ := Option.map_eq_some_iff.mp hpick
    obtain ⟨rfl, rfl⟩ := Prod.mk.inj he
    have hbatch : ∀ c ∈ t :: left, c.depth = d := by
      intro c hc
      have hb : c ∈ b.toList := (takeLeast_perm ht).mem_iff.mp hc
      exact hnear c (by simp [hb])
    have hs : t.depth = d := hbatch t List.mem_cons_self
    have hrest : restore left (near ++ far) = restore left near ++ far := by simp [restore]
    refine ⟨hs.ge, ?_, restore left near, far, hrest, ?_, by rwa [hs]⟩
    · intro c hc
      rw [List.flatMap_append, List.mem_append] at hc
      rcases hc with hc | hc
      · rw [hs, hnear c hc]
      · rw [hs, hfar c hc]
        omega
    · intro c hc
      rw [flatMap_restore, List.mem_append] at hc
      rw [hs]
      rcases hc with hc | hc
      · exact hbatch c (List.mem_cons_of_mem _ hc)
      · exact hnear c (List.mem_append_right _ hc)

end Batches

/-- All states that are held, those of each frontier in turn. -/
def Selector.states (s : Selector) : List State := s.frontiers.flatMap Frontier.toList

namespace Explore

variable {α : Type}

namespace Progress

variable {p : Setup α} {x y : Progress α}

/-! ### Stages -/

/-- The exploration as it is before each round, of at most so many. -/
def stages (p : Setup α) : Nat → Progress α → List (Progress α)
  | 0, _ => []
  | n + 1, x =>
    if x.shouldStop then []
    else x :: match x.round p with
      | .ok (y, none) => stages p n y
      | _ => []

/-- The stages of a run from a state on. -/
def stagesFrom (p : Setup α) (rounds : Nat) (x : Progress α) (first : State) : List (Progress α) :=
  match x.selector.push first with
  | .ok selector => { x with selector }.stages p rounds
  | .error _ => []

/-- The turns are those that are taken at the stages. -/
theorem turns_eq_filterMap (n : Nat) (x : Progress α) : x.turns p n = (x.stages p n).filterMap (turn? p) := by
  induction n generalizing x with
  | zero => rfl
  | succ n ih =>
    rw [turns, stages]
    split
    · rfl
    · have hcons : ∀ l, (x :: l).filterMap (turn? p) = (x.turn? p).toList ++ l.filterMap (turn? p) := by
        intro l
        cases ht : x.turn? p with
        | none => simp [ht]
        | some t => simp [ht]
      rw [hcons]
      rcases x.round p with f | ⟨y, _ | why⟩
      · rfl
      · exact congrArg ((x.turn? p).toList ++ ·) (ih y)
      · rfl

theorem turnsFrom_eq_filterMap (n : Nat) (x : Progress α) (first : State) :
    x.turnsFrom p n first = (x.stagesFrom p n first).filterMap (turn? p) := by
  unfold turnsFrom stagesFrom
  cases x.selector.push first with
  | error f => rfl
  | ok selector => exact turns_eq_filterMap n _

/-- What no turn changes is true at all stages. -/
theorem forall_stages (hp : p.Numbers) (inv : Progress α → Prop)
    (hinv : ∀ {x y : Progress α} {t : Turn} {why : Option Ending}, inv x → x.Takes p t y why → inv y) (n : Nat)
    (hx : inv x) : ∀ y ∈ x.stages p n, inv y := by
  induction n generalizing x with
  | zero => simp [stages]
  | succ n ih =>
    intro y hy
    rw [stages] at hy
    split at hy
    · cases hy
    · rcases List.mem_cons.mp hy with rfl | hy
      · exact hx
      · split at hy
        next z hround =>
          rcases round_takes hp hround with ⟨-, -, -, hwhy⟩ | ⟨t, htakes⟩
          · cases hwhy
          · exact ih (hinv hx htakes) y hy
        next => cases hy

/-! ### Levels of an exploration -/

/-- The selector takes the oldest batches first, and holds two levels at most. -/
def Leveled (d : Nat) (x : Progress α) : Prop :=
  ∃ r bs w, x.selector = .single (.queue .oldest r bs) w ∧ Batches.Leveled d bs

variable {d : Nat} {t : Turn}

theorem Leveled.picks (h : x.Leveled d) {s : State} {rest : Selector}
    (hpick : x.selector.pick x.instruments = some (s, rest)) :
    d ≤ s.depth ∧ (∀ c ∈ x.selector.states, s.depth ≤ c.depth) ∧
      ∃ r bs w, rest = .single (.queue .oldest r bs) w ∧ Batches.Leveled s.depth bs := by
  obtain ⟨r, bs, w, hselector, hbs⟩ := h
  rw [hselector] at hpick ⊢
  obtain ⟨⟨s', f⟩, hf, he⟩ := Option.map_eq_some_iff.mp hpick
  cases he
  obtain ⟨⟨s', bs'⟩, hpick', he⟩ := Option.map_eq_some_iff.mp hf
  cases he
  obtain ⟨hle, hleast, hrest⟩ := hbs.pick hpick'
  refine ⟨hle, ?_, r, bs', w, rfl, hrest⟩
  simpa [Selector.states, Selector.frontiers, Frontier.toList] using hleast

/-- The children of what is picked are one deeper. -/
theorem Leveled.takes (hp : p.Numbers) (h : x.Leveled d) {why : Option Ending} (htakes : x.Takes p t y why) :
    d ≤ t.picked.depth ∧ y.Leveled t.picked.depth := by
  obtain ⟨selector, hpick, hpush, -⟩ := htakes.exchange
  obtain ⟨hle, -, r, bs, w, rfl, hbs⟩ := h.picks hpick
  have hchildren : ∀ c ∈ t.children, c.depth = t.picked.depth + 1 := by
    intro c hc
    obtain ⟨b, hb⟩ := List.mem_iff_getElem?.mp hc
    obtain ⟨-, htrail, -⟩ := numbers_of_turn? hp htakes.turn hb
    simp [State.depth, htrail]
  exact ⟨hle, r, _, w, (Except.ok.inj hpush).symm, hbs.pushAll hchildren⟩

theorem keeps_levels (hp : p.Numbers) :
    Keeps p (fun ts => (ts.map fun t => t.picked.depth).Pairwise (· ≤ ·))
      (fun ts x => ∃ d, x.Leveled d ∧ ∀ t ∈ ts, t.picked.depth ≤ d) := by
  constructor
  · intro ts x t hts ⟨d, hx, hpast⟩ _ ht
    obtain ⟨⟨selector, hpick⟩, -⟩ := turn?_eq_some ht
    have hle := (hx.picks hpick).1
    rw [List.map_append, List.pairwise_append]
    refine ⟨hts, List.pairwise_singleton _ _, ?_⟩
    intro a ha b hb
    obtain ⟨u, hu, rfl⟩ := List.mem_map.mp ha
    rw [List.mem_singleton.mp hb]
    exact Nat.le_trans (hpast u hu) hle
  · intro ts x y t why _ ⟨d, hx, hpast⟩ _ htakes
    obtain ⟨hle, hy⟩ := hx.takes hp htakes
    refine ⟨t.picked.depth, hy, ?_⟩
    intro u hu
    rcases List.mem_append.mp hu with hu | hu
    · exact Nat.le_trans (hpast u hu) hle
    · rw [List.mem_singleton.mp hu]

end Progress

/-- With a queue that is empty at first and takes the oldest batches first, both engines are explored level by level,
whatever the ranking inside the batches, the step limit and the caller: the depths of the states that are picked never
decrease, and none is picked while a state of smaller depth is held. -/
theorem Engine.run_by_levels (e : Engine) (limit : Nat) (visit : State → α → Except Fault (α × Bool)) (n : Nat)
    (r : Ranking) (w : Wiring) (x : Progress α) (first : State) :
    let p := e.setup limit visit
    let x := { x with selector := .single (.queue .oldest r []) w }
    x.turnsFrom p n first = (x.stagesFrom p n first).filterMap (Progress.turn? p) ∧
    ((x.turnsFrom p n first).map fun t => t.picked.depth).Pairwise (· ≤ ·) ∧
    ∀ y ∈ x.stagesFrom p n first, ∀ s rest, y.selector.pick y.instruments = some (s, rest) →
      ∀ c ∈ y.selector.states, s.depth ≤ c.depth := by
  intro p x
  have hp : p.Numbers := e.numbers limit visit
  have hstart : ∀ selector, x.selector.push first = .ok selector →
      ({ x with selector } : Progress α).Leveled first.depth := by
    intro selector hpush
    exact ⟨r, [{ first }], w, (Except.ok.inj hpush).symm, [{ first }], [], rfl, by simp [Batch.toList], by simp⟩
  refine ⟨x.turnsFrom_eq_filterMap n first, ?_, ?_⟩
  · have hrun := (Progress.keeps_levels hp).run hp n x first List.Pairwise.nil
      fun selector hpush => ⟨first.depth, hstart selector hpush, fun t ht => by cases ht⟩
    exact hrun.1
  · intro y hy s rest hpick
    unfold Progress.stagesFrom at hy
    cases hpush : x.selector.push first with
    | error f => simp [hpush] at hy
    | ok selector =>
      rw [hpush] at hy
      have hinv := Progress.forall_stages hp (fun y => ∃ d, y.Leveled d)
        (fun h htakes => h.elim fun _ h => ⟨_, (h.takes hp htakes).2⟩) n ⟨first.depth, hstart selector hpush⟩
      obtain ⟨d, hlevel⟩ := hinv y hy
      exact (hlevel.picks hpick).2.1

/-- Two locations with links to each other, and a way out of one of them. -/
def crossing : Engine :=
  .walker { graph := .ofEdges 4 [⟨0, 1⟩, ⟨0, 2⟩, ⟨1, 0⟩, ⟨1, 2⟩, ⟨2, 1⟩, ⟨2, 3⟩] }

/-- An exploration that prefers states close to what is not covered. -/
def crossed : Progress (List State) :=
  let i := { graph := .ofEdges 4 [⟨0, 1⟩, ⟨0, 2⟩, ⟨1, 0⟩, ⟨1, 2⟩, ⟨2, 1⟩, ⟨2, 3⟩] : Instruments }
  let i := i.withCoverage.setLimit 20
  { selector := .single (.queue .oldest .distance []) (i.wiring 0), instruments := i, nextId := 1, result := [] }

/-- Of the first batch the second state is picked first, and then the other one before its children. -/
theorem run_by_levels_crossing :
    (crossed.turnsFrom (crossing.setup 100 (Walker.gather none)) 5 (crossing.initial 0)).map
      (fun t => (t.picked.id, t.picked.depth)) = [(0, 0), (2, 1), (1, 1), (3, 2), (4, 2)] ∧
    (crossed.stagesFrom (crossing.setup 100 (Walker.gather none)) 5 (crossing.initial 0)).map
      (fun y => y.selector.states.map State.depth) = [[0], [1, 1], [1, 2, 2], [2, 2, 2, 2], [2, 2, 2, 3, 3]] ∧
    ∀ y ∈ crossed.stagesFrom (crossing.setup 100 (Walker.gather none)) 5 (crossing.initial 0), ∀ s rest,
      y.selector.pick y.instruments = some (s, rest) → ∀ c ∈ y.selector.states, s.depth ≤ c.depth := by
  refine ⟨by decide +kernel, by decide +kernel, ?_⟩
  exact (crossing.run_by_levels 100 (Walker.gather none) 5 .distance crossed.selector.wiring crossed
    (crossing.initial 0)).2.2

end Explore

end Symex
