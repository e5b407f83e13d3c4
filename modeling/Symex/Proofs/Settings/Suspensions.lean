import Mathlib.Data.List.Basic
import Mathlib.Data.List.Infix
import Symex.Settings

/-!
# Overlapping suspensions

A suspension that ends puts back what it found at its start, whatever else is alive by then. So the switch follows the
living suspensions only as long as the oldest of them is the last to end. The main statement says that this order is
necessary as well as sufficient, and nested suspensions keep to it.
-/

namespace Symex.Suspensions

def run (es : List Event) : Suspensions := es.foldl step {}

theorem run_concat (es : List Event) (e : Event) : run (es ++ [e]) = (run es).step e := by
  simp [run]

def Alive (d : Suspensions) (k : Nat) : Prop := ∃ g, d.given[k]? = some (some g)

/-- The switch is off exactly while a suspension is alive. -/
def Exact (d : Suspensions) : Prop := d.switch.enabled = false ↔ ∃ k, d.Alive k

/-- The end of a suspension leaves an older one alive, if it leaves any. -/
def Spares (d : Suspensions) (k : Nat) : Prop :=
  d.Alive k → ∀ i, d.Alive i → i ≠ k → ∃ j, j < k ∧ d.Alive j

/-- The oldest living suspension never ends before another one. -/
def Orderly (es : List Event) : Prop := ∀ p k, p ++ [.finish k] <+: es → (run p).Spares k

/-- Only the youngest living suspension ends. -/
def Nested (es : List Event) : Prop :=
  ∀ p k, p ++ [.finish k] <+: es → (run p).Alive k → ∀ i, (run p).Alive i → i ≤ k

/-! ### One event -/

variable {d : Suspensions} {k j : Nat} {g : Suspension}

theorem Alive.lt_length (h : d.Alive k) : k < d.given.length := by
  obtain ⟨g, hg⟩ := h
  exact (List.getElem?_eq_some_iff.mp hg).1

theorem given_start (d : Suspensions) : d.start.given = d.given ++ [some ⟨d.switch.enabled⟩] := rfl

theorem getElem?_start : d.start.given[k]? = some (some g) ↔
    d.given[k]? = some (some g) ∨ k = d.given.length ∧ g.previous = d.switch.enabled := by
  rw [given_start, List.getElem?_append]
  by_cases hk : k < d.given.length
  · rw [if_pos hk]
    exact ⟨Or.inl, fun h => h.resolve_right fun h => absurd h.1 (Nat.ne_of_lt hk)⟩
  · have hnone : d.given[k]? = none := List.getElem?_eq_none (Nat.le_of_not_lt hk)
    rw [if_neg hk, hnone, List.getElem?_singleton]
    by_cases hlast : k = d.given.length
    · subst hlast
      cases g
      simp [eq_comm]
    · have hpast : k - d.given.length ≠ 0 := by omega
      simp [hpast, hlast]

theorem alive_start : d.start.Alive k ↔ d.Alive k ∨ k = d.given.length := by
  simp only [Alive, getElem?_start, exists_or, exists_and_left]
  exact or_congr_right (and_iff_left ⟨⟨d.switch.enabled⟩, rfl⟩)

theorem finish_of_getElem? (h : d.given[k]? = some (some g)) :
    d.finish k = ⟨⟨g.previous⟩, d.given.set k none⟩ := by
  simp [finish, h, Switch.resume]

theorem finish_of_not_alive (h : ¬ d.Alive k) : d.finish k = d := by
  unfold finish
  split
  · next g hg => exact absurd ⟨g, hg⟩ h
  · rfl

theorem getElem?_finish : (d.finish k).given[j]? = some (some g) ↔ d.given[j]? = some (some g) ∧ j ≠ k := by
  by_cases hk : d.Alive k
  · obtain ⟨g', hg'⟩ := hk
    rw [finish_of_getElem? hg']
    by_cases hjk : j = k
    · subst hjk
      have hlt : j < d.given.length := (List.getElem?_eq_some_iff.mp hg').1
      simp [List.getElem?_set_self hlt]
    · simp [List.getElem?_set_ne (Ne.symm hjk), hjk]
  · rw [finish_of_not_alive hk]
    refine ⟨fun hg => ⟨hg, ?_⟩, And.left⟩
    rintro rfl
    exact hk ⟨g, hg⟩

theorem alive_finish : (d.finish k).Alive j ↔ d.Alive j ∧ j ≠ k := by
  simp only [Alive, getElem?_finish, exists_and_right]

/-! ### Exactness of the switch -/

/-- Besides, it is the oldest living suspension that found the switch on. -/
structure Tidy (d : Suspensions) : Prop where
  exact : d.Exact
  oldest : ∀ k g, d.given[k]? = some (some g) → (g.previous = true ↔ ∀ j, d.Alive j → k ≤ j)

theorem Tidy.enabled_iff (h : Tidy d) : d.switch.enabled = true ↔ ∀ j, ¬ d.Alive j := by
  rw [← not_exists, ← Bool.not_eq_false, not_iff_not]
  exact h.exact

theorem tidy_none : Tidy {} where
  exact := by simp [Exact, Alive]
  oldest := by simp

theorem Tidy.start (h : Tidy d) : Tidy d.start where
  exact := iff_of_true rfl ⟨d.given.length, alive_start.mpr (.inr rfl)⟩
  oldest := by
    intro k g hg
    simp only [alive_start, or_imp, forall_and, forall_eq]
    obtain hg | ⟨rfl, hprev⟩ := getElem?_start.mp hg
    · have hle : k ≤ d.given.length := Nat.le_of_lt (Alive.lt_length ⟨g, hg⟩)
      rw [h.oldest k g hg, and_iff_left hle]
    · -- No older one is alive exactly if the new one found the switch on.
      rw [hprev, h.enabled_iff, and_iff_left le_rfl]
      refine forall_congr' fun j => ⟨fun hdead hj => absurd hj hdead, fun hle hj => ?_⟩
      have hlt : j < d.given.length := hj.lt_length
      have hge : d.given.length ≤ j := hle hj
      omega

theorem Tidy.exact_finish_iff (h : Tidy d) : (d.finish k).Exact ↔ d.Spares k := by
  by_cases hk : d.Alive k
  · obtain ⟨g, hg⟩ := hk
    have hoff : (d.finish k).switch.enabled = false ↔ ∃ j, j < k ∧ d.Alive j := by
      rw [finish_of_getElem? hg, ← Bool.not_eq_true, h.oldest k g hg]
      simp only [not_forall, Nat.not_le, exists_prop, and_comm]
    rw [Exact, hoff]
    simp only [alive_finish]
    constructor
    · intro hiff _ i hi hne
      exact hiff.mpr ⟨i, hi, hne⟩
    · intro hspares
      exact ⟨fun ⟨j, hlt, hj⟩ => ⟨j, hj, Nat.ne_of_lt hlt⟩, fun ⟨i, hi, hne⟩ => hspares ⟨g, hg⟩ i hi hne⟩
  · rw [finish_of_not_alive hk]
    exact iff_of_true h.exact fun hal => absurd hal hk

theorem Tidy.finish (h : Tidy d) (hk : d.Spares k) : Tidy (d.finish k) where
  exact := h.exact_finish_iff.mpr hk
  oldest := by
    intro j g hg
    obtain ⟨hg, hjk⟩ := getElem?_finish.mp hg
    rw [h.oldest j g hg]
    simp only [alive_finish]
    refine ⟨fun hle i hi => hle i hi.1, fun hle i hi => ?_⟩
    by_cases hik : i = k
    · -- The one that ends is not older than all others: it leaves an older one.
      obtain ⟨o, hlt, ho⟩ := hk (hik ▸ hi) j ⟨g, hg⟩ hjk
      have hjo : j ≤ o := hle o ⟨ho, Nat.ne_of_lt hlt⟩
      omega
    · exact hle i ⟨hi, hik⟩

/-! ### Runs -/

theorem Orderly.of_isPrefix {p es : List Event} (h : Orderly es) (hp : p <+: es) : Orderly p :=
  fun q k hq => h q k (hq.trans hp)

theorem Orderly.tidy {es : List Event} (h : Orderly es) : Tidy (run es) := by
  induction es using List.reverseRecOn with
  | nil => exact tidy_none
  | append_singleton es e ih =>
    have htidy : Tidy (run es) := ih (h.of_isPrefix (List.prefix_append _ _))
    rw [run_concat]
    cases e with
    | start => exact htidy.start
    | finish k => exact htidy.finish (h es k (List.prefix_refl _))

theorem Nested.orderly {es : List Event} (h : Nested es) : Orderly es := by
  intro p k hp hk i hi hne
  exact ⟨i, Nat.lt_of_le_of_ne (h p k hp hk i hi) hne, hi⟩

theorem orderly_of_exact {es : List Event} (h : ∀ p, p <+: es → (run p).Exact) : Orderly es := by
  induction es using List.reverseRecOn with
  | nil => intro p k hp; simp at hp
  | append_singleton es e ih =>
    have horderly : Orderly es := ih fun p hp => h p (hp.trans (List.prefix_append _ _))
    intro p k hp
    obtain hlast | hp := List.prefix_concat_iff.mp hp
    · -- The end that comes last: what it spares is read off the switch after it.
      obtain ⟨rfl, hek⟩ := List.append_inj' hlast rfl
      obtain rfl := List.singleton_inj.mp hek
      have hexact := h _ (List.prefix_refl _)
      rw [run_concat] at hexact
      exact horderly.tidy.exact_finish_iff.mp hexact
    · exact horderly p k hp

theorem length_given_finish (d : Suspensions) (k : Nat) : (d.finish k).given.length = d.given.length := by
  unfold finish
  split <;> simp

theorem length_given_run (es : List Event) : (run es).given.length = es.count .start := by
  induction es using List.reverseRecOn with
  | nil => rfl
  | append_singleton es e ih =>
    rw [run_concat, List.count_append, ← ih]
    cases e with
    | start => simp [step, given_start]
    | finish k => simp [step, length_given_finish]

/-- A living suspension remembers the switch as it was when it started. -/
theorem exists_start_of_getElem? {es : List Event} (h : (run es).given[k]? = some (some g)) :
    ∃ p, p ++ [.start] <+: es ∧ p.count .start = k ∧ (run p).switch = ⟨g.previous⟩ := by
  induction es using List.reverseRecOn with
  | nil => simp [run] at h
  | append_singleton es e ih =>
    have hlater : (run es).given[k]? = some (some g) →
        ∃ p, p ++ [.start] <+: es ++ [e] ∧ p.count .start = k ∧ (run p).switch = ⟨g.previous⟩ := by
      intro hg
      obtain ⟨p, hp, hcount, hswitch⟩ := ih hg
      exact ⟨p, hp.trans (List.prefix_append _ _), hcount, hswitch⟩
    rw [run_concat] at h
    cases e with
    | start =>
      obtain hg | ⟨hk, hprev⟩ := getElem?_start.mp h
      · exact hlater hg
      · refine ⟨es, List.prefix_refl _, ?_, ?_⟩
        · rw [hk, length_given_run]
        · rw [hprev]
    | finish j => exact hlater (getElem?_finish.mp h).1

/-- The switch is off exactly while a suspension is alive, all through a history, if and only if the oldest living
suspension never ends before another one. Nested suspensions do not. In any order, the end of a suspension puts back the
switch as it was at its start. -/
theorem exact_iff_orderly (es : List Event) :
    ((∀ p, p <+: es → (run p).Exact) ↔ Orderly es) ∧
    (Nested es → ∀ p, p <+: es → (run p).Exact) ∧
    ∀ k, (run es).Alive k → ∃ p, p ++ [.start] <+: es ∧ p.count .start = k ∧
      (run (es ++ [.finish k])).switch = (run p).switch := by
  have hexact : Orderly es → ∀ p, p <+: es → (run p).Exact := fun h p hp => (h.of_isPrefix hp).tidy.exact
  refine ⟨⟨orderly_of_exact, hexact⟩, fun h => hexact h.orderly, ?_⟩
  rintro k ⟨g, hg⟩
  obtain ⟨p, hp, hcount, hswitch⟩ := exists_start_of_getElem? hg
  refine ⟨p, hp, hcount, ?_⟩
  rw [run_concat, step, finish_of_getElem? hg, hswitch]

/-- Of two suspensions the older one ends first: the switch is on while the younger one is alive, and off when both have
ended. -/
theorem not_exact_overlapping :
    ((run [.start, .start, .finish 0]).Alive 1 ∧ (run [.start, .start, .finish 0]).switch.enabled = true) ∧
    (∀ k, ¬ (run [.start, .start, .finish 0, .finish 1]).Alive k) ∧
    (run [.start, .start, .finish 0, .finish 1]).switch.enabled = false := by
  refine ⟨⟨⟨⟨false⟩, rfl⟩, rfl⟩, ?_, rfl⟩
  rintro k ⟨g, hg⟩
  have hgiven : (run [.start, .start, .finish 0, .finish 1]).given = [none, none] := rfl
  rw [hgiven] at hg
  have hmem := List.mem_of_getElem? hg
  simp at hmem

end Symex.Suspensions
