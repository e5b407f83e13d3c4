import Mathlib.Algebra.Ring.Nat
import Symex.Proofs.Stats.Shortest
import Symex.Stats.Instruments

/-!
# Meters

A meter is one of the listeners of a set of instruments with what it records: the coverage, the visits, or a counter.
All three behave alike. A listener that is enrolled starts a record, unless it is there already, and a traversal that is
reported through a wiring goes once into the record of each of its listeners, and into no other.
-/

namespace Symex

/-! ### The visits after some traversals -/

namespace Visits

def after (es : List Edge) : Visits := es.foldl traverse {}

theorem after_concat (es : List Edge) (e : Edge) : after (es ++ [e]) = (after es).traverse e := by
  simp [after]

theorem of_after (es : List Edge) (e : Edge) : (after es).of e = es.count e := by
  induction es using List.reverseRecOn with
  | nil => rfl
  | append_singleton es f ih =>
    rw [after_concat, of_traverse, ih, List.count_append, List.count_singleton]
    by_cases h : e = f
    · simp [h]
    · simp [h, beq_false_of_ne (Ne.symm h)]

/-- What is counted under one key and what is counted under the others is all that is counted. -/
theorem sum_eq_lookup_add {l : List (Edge × Nat)} (hl : (l.map (·.1)).Nodup) (e : Edge) :
    (l.map (·.2)).sum = (l.lookup e).getD 0 + ((l.filter fun p => p.1 ≠ e).map (·.2)).sum := by
  induction l with
  | nil => rfl
  | cons p l ih =>
    obtain ⟨f, n⟩ := p
    rw [List.map_cons, List.nodup_cons] at hl
    rw [Table.lookup_cons_if, List.map_cons, List.sum_cons]
    by_cases hef : e = f
    · -- No later entry has the same key.
      have hrest : l.filter (fun p => p.1 ≠ e) = l := by
        rw [List.filter_eq_self]
        intro p hp
        have hne : p.1 ≠ f := fun h => hl.1 (List.mem_map.mpr ⟨p, hp, h⟩)
        simpa [hef] using hne
      rw [if_pos hef, List.filter_cons_of_neg (by simp [hef]), hrest]
      rfl
    · have hfe : f ≠ e := fun h => hef h.symm
      rw [if_neg hef, List.filter_cons_of_pos (by simp [hfe]), List.map_cons, List.sum_cons, ih hl.2]
      omega

theorem nodup_after (es : List Edge) : ((after es).counts.entries.map (·.1)).Nodup := by
  induction es using List.reverseRecOn with
  | nil => exact List.nodup_nil
  | append_singleton es e ih =>
    rw [after_concat, traverse, Table.insert, List.map_cons, List.nodup_cons]
    exact ⟨by simp, ih.sublist (List.filter_sublist.map _)⟩

theorem total_after (es : List Edge) : (after es).total = es.length := by
  induction es using List.reverseRecOn with
  | nil => rfl
  | append_singleton es e ih =>
    have hsum := sum_eq_lookup_add (nodup_after es) e
    change (after es).total = (after es).of e + _ at hsum
    rw [ih] at hsum
    rw [after_concat, List.length_append, List.length_singleton, hsum]
    simp only [total, traverse, Table.insert, List.map_cons, List.foldr_cons]
    rw [← List.sum_eq_foldr]
    omega

end Visits

/-! ### Enrolment -/

namespace Instruments

/-- Sees to it that a listener is there. A counter is always a new one. -/
def enroll (i : Instruments) : Option Listener → Instruments
  | some .coverage => i.withCoverage
  | some .visits => i.withVisits
  | some (.counter _) => i.addCounter
  | none => i

/-- Each listener is registered once, and those that are registered are there. -/
structure Tuned (i : Instruments) : Prop where
  nodup : i.listeners.Nodup
  coverage : .coverage ∈ i.listeners ↔ i.coverage.isSome
  visits : .visits ∈ i.listeners ↔ i.visits.isSome
  counter : ∀ c, .counter c ∈ i.listeners ↔ c < i.counters.length

variable {i : Instruments}

theorem Tuned.enroll (h : i.Tuned) {l : Option Listener} (hl : ∀ c, l = some (.counter c) → c = i.counters.length) :
    (i.enroll l).Tuned ∧ ∀ l', l' ∈ (i.enroll l).listeners ↔ l' ∈ i.listeners ∨ l = some l' := by
  have happend : ∀ {l}, l ∉ i.listeners → (i.listeners ++ [l]).Nodup := by
    intro l hn
    refine List.nodup_append.mpr ⟨h.nodup, by simp, ?_⟩
    intro a ha b hb he
    exact hn (List.mem_singleton.mp hb ▸ he ▸ ha)
  rcases l with _ | _ | _ | c
  · exact ⟨h, by simp [Instruments.enroll]⟩
  · cases hc : i.coverage with
    | some r =>
      have hmem : .coverage ∈ i.listeners := by simp [h.coverage, hc]
      simp only [Instruments.enroll, withCoverage, hc]
      exact ⟨h, fun l' => ⟨Or.inl, fun hl' => hl'.elim id fun he => Option.some.inj he ▸ hmem⟩⟩
    | none =>
      have hn : .coverage ∉ i.listeners := by simp [h.coverage, hc]
      simp only [Instruments.enroll, withCoverage, hc]
      refine ⟨⟨happend hn, by simp, by simp [h.visits], by simp [h.counter]⟩, by simp [eq_comm]⟩
  · cases hv : i.visits with
    | some r =>
      have hmem : .visits ∈ i.listeners := by simp [h.visits, hv]
      simp only [Instruments.enroll, withVisits, hv]
      exact ⟨h, fun l' => ⟨Or.inl, fun hl' => hl'.elim id fun he => Option.some.inj he ▸ hmem⟩⟩
    | none =>
      have hn : .visits ∉ i.listeners := by simp [h.visits, hv]
      simp only [Instruments.enroll, withVisits, hv]
      refine ⟨⟨happend hn, by simp [h.coverage], by simp, by simp [h.counter]⟩, by simp [eq_comm]⟩
  · obtain rfl := hl c rfl
    have hn : .counter i.counters.length ∉ i.listeners := by simp [h.counter]
    simp only [Instruments.enroll, addCounter]
    refine ⟨⟨happend hn, by simp [h.coverage], by simp [h.visits], ?_⟩, by simp [eq_comm]⟩
    intro c
    simp [h.counter]
    omega

theorem enroll_frame (i : Instruments) (l : Option Listener) :
    (i.enroll l).graph = i.graph ∧ (i.enroll l).limits = i.limits ∧ (i.enroll l).current = i.current := by
  rcases l with _ | _ | _ | c
  · exact ⟨rfl, rfl, rfl⟩
  · cases h : i.coverage <;> simp [enroll, withCoverage, h]
  · cases h : i.visits <;> simp [enroll, withVisits, h]
  · exact ⟨rfl, rfl, rfl⟩

/-! ### Traversals -/

/-- Everything but the records is left as it was. -/
theorem foldl_notify_frame (e : Edge) (ls : List Listener) (i : Instruments) :
    let j := ls.foldl (fun i l => i.notify e l) i
    j.graph = i.graph ∧ j.limits = i.limits ∧ j.current = i.current ∧ j.listeners = i.listeners ∧
      j.coverage.isSome = i.coverage.isSome ∧ j.visits.isSome = i.visits.isSome ∧
      j.counters.length = i.counters.length := by
  induction ls generalizing i with
  | nil => simp
  | cons l ls ih =>
    have hone : (i.notify e l).graph = i.graph ∧ (i.notify e l).limits = i.limits ∧
        (i.notify e l).current = i.current ∧ (i.notify e l).listeners = i.listeners ∧
        (i.notify e l).coverage.isSome = i.coverage.isSome ∧ (i.notify e l).visits.isSome = i.visits.isSome ∧
        (i.notify e l).counters.length = i.counters.length := by
      cases l <;> simp [notify]
    have hrest := ih (i.notify e l)
    simp only [hone] at hrest
    exact hrest

theorem limits_traverse (i : Instruments) (w : Wiring) (e : Edge) :
    (i.traverse w e).limits = i.limits.modify w.limit (·.traverse) := by
  have hlimits := (foldl_notify_frame e w.listeners i).2.1
  simp only [traverse, hlimits]

theorem traverse_frame (i : Instruments) (w : Wiring) (e : Edge) :
    (i.traverse w e).graph = i.graph ∧ (i.traverse w e).current = i.current ∧
      (i.traverse w e).listeners = i.listeners := by
  obtain ⟨hgraph, -, hcurrent, hlisteners, -⟩ := foldl_notify_frame e w.listeners i
  exact ⟨hgraph, hcurrent, hlisteners⟩

theorem Tuned.traverse (h : i.Tuned) (w : Wiring) (e : Edge) : (i.traverse w e).Tuned := by
  obtain ⟨-, -, -, hlisteners, hcoverage, hvisits, hcounters⟩ := foldl_notify_frame e w.listeners i
  constructor
  · simpa only [Instruments.traverse, hlisteners] using h.nodup
  · simpa only [Instruments.traverse, hlisteners, hcoverage] using h.coverage
  · simpa only [Instruments.traverse, hlisteners, hvisits] using h.visits
  · simpa only [Instruments.traverse, hlisteners, hcounters] using h.counter

end Instruments

/-- A listener with what it records. -/
structure Meter (β : Type) where
  listener : Listener
  /-- The record, if the listener is there. -/
  read : Instruments → Option β
  /-- The record of a listener that has been told of nothing. -/
  fresh : Graph → β
  tell : β → Edge → β
  read_start : ∀ g, read { graph := g } = none
  read_notify : ∀ i e l, read (i.notify e l) = if l = listener then (read i).map (tell · e) else read i
  read_limits : ∀ (i : Instruments) limits current, read { i with limits, current } = read i
  read_enroll : ∀ i l, (∀ c, l = .counter c → c = i.counters.length) →
    read (i.enroll (some l)) = if l = listener then some ((read i).getD (fresh i.graph)) else read i

namespace Meter

def coverage : Meter Coverage where
  listener := .coverage
  read i := i.coverage
  fresh := .start
  tell := Coverage.traverse
  read_start _ := rfl
  read_notify i e l := by cases l <;> rfl
  read_limits _ _ _ := rfl
  read_enroll i l _ := by
    cases l with
    | coverage => cases h : i.coverage <;> simp [Instruments.enroll, Instruments.withCoverage, h]
    | visits => cases h : i.visits <;> simp [Instruments.enroll, Instruments.withVisits, h]
    | counter c => rfl

def visits : Meter Visits where
  listener := .visits
  read i := i.visits
  fresh _ := {}
  tell := Visits.traverse
  read_start _ := rfl
  read_notify i e l := by cases l <;> rfl
  read_limits _ _ _ := rfl
  read_enroll i l _ := by
    cases l with
    | coverage => cases h : i.coverage <;> simp [Instruments.enroll, Instruments.withCoverage, h]
    | visits => cases h : i.visits <;> simp [Instruments.enroll, Instruments.withVisits, h]
    | counter c => rfl

def counter (c : Nat) : Meter Nat where
  listener := .counter c
  read i := i.counters[c]?
  fresh _ := 0
  tell n _ := n + 1
  read_start _ := rfl
  read_notify i e l := by
    cases l with
    | counter k => by_cases h : k = c <;> simp [Instruments.notify, h]
    | _ => rfl
  read_limits _ _ _ := rfl
  read_enroll i l hl := by
    cases l with
    | coverage => cases h : i.coverage <;> simp [Instruments.enroll, Instruments.withCoverage, h]
    | visits => cases h : i.visits <;> simp [Instruments.enroll, Instruments.withVisits, h]
    | counter k =>
      obtain rfl := hl k rfl
      by_cases h : c = i.counters.length
      · simp [Instruments.enroll, Instruments.addCounter, h]
      · simp only [Instruments.enroll, Instruments.addCounter, Listener.counter.injEq, Ne.symm h, if_false]
        rcases Nat.lt_or_gt_of_ne h with h | h
        · rw [List.getElem?_append_left h]
        · rw [List.getElem?_eq_none (by simp; omega), List.getElem?_eq_none (by omega)]

variable {β : Type} (M : Meter β)

/-- A traversal goes once into the record of each listener of the wiring. -/
theorem read_traverse (i : Instruments) {w : Wiring} (hw : w.listeners.Nodup) (e : Edge) :
    M.read (i.traverse w e) = if M.listener ∈ w.listeners then (M.read i).map (M.tell · e) else M.read i := by
  have hfold : ∀ (ls : List Listener) (i : Instruments), ls.Nodup → M.read (ls.foldl (fun i l => i.notify e l) i) =
      if M.listener ∈ ls then (M.read i).map (M.tell · e) else M.read i := by
    intro ls
    induction ls with
    | nil => intro i _; rfl
    | cons l ls ih =>
      intro i hnodup
      obtain ⟨hl, hls⟩ := List.nodup_cons.mp hnodup
      rw [List.foldl_cons, ih _ hls, M.read_notify]
      by_cases h : l = M.listener
      · rw [if_pos h, if_neg (h ▸ hl), if_pos (h ▸ List.mem_cons_self)]
      · simp only [if_neg h, List.mem_cons, Ne.symm h, false_or]
  rw [Instruments.traverse, M.read_limits]
  exact hfold _ _ hw

end Meter

end Symex
