import Mathlib.Data.List.Basic
import Symex.Frontier.Build

/-!
# Jobs for a bench

Selectors are built from one set of instruments, and traversals are reported through any of them. A selector knows the
listeners that were asked for by the time it was built, its own included. The traversals that a listener hears are those
reported through the selectors that know it.
-/

namespace Symex

/-- The statistics by which a selector of the kind ranks states. -/
def Kind.asks (c : SelectorConfig) : Kind → Option Listener
  | bfs | dfs | rp =>
    match c.strategy with
    | .distance => some .coverage
    | .visits => some .visits
  | minimalDistance | coveredNew => some .coverage
  | visitCounting => some .visits
  | random | randomPath | depth => none

/-- What a bench is asked to do. Selectors are numbered in the order in which they are built. -/
inductive Job where
  | policy (kind : Kind) (config : SelectorConfig)
  | scoring (scorer : Scorer) (config : SelectorConfig)
  | interleave (members : List Nat)
  /-- Registers a counter. -/
  | counter
  | traverse (selector : Nat) (edge : Edge)

namespace Job

/-- Whether the job is to build a selector. -/
def builds : Job → Bool
  | policy .. | scoring .. | interleave _ => true
  | _ => false

def isCounter : Job → Bool
  | counter => true
  | _ => false

def edge? : Job → Option Edge
  | traverse _ e => some e
  | _ => none

/-- The step limit that is given with the job. -/
def limit? : Job → Option Nat
  | policy _ c | scoring _ c => c.stepLimit
  | _ => none

/-- The statistics that the job asks for. -/
def asks : Job → Option Listener
  | policy kind c => kind.asks c
  | scoring _ _ => some .coverage
  | _ => none

/-- The listener that is there after the job, if `n` counters were there before. -/
def enrolls (n : Nat) : Job → Option Listener
  | counter => some (.counter n)
  | job => job.asks

/-! ### Lists of jobs -/

/-- The step limit given with the first selector. -/
def firstLimit (jobs : List Job) : Option Nat := (jobs.find? builds).bind limit?

/-- All traversals that are reported. -/
def reported (jobs : List Job) : List Edge := jobs.filterMap edge?

/-- Whether some job asks for the listener. -/
def asked (jobs : List Job) : Listener → Bool
  | .counter c => c < jobs.countP isCounter
  | l => jobs.any fun job => job.asks = some l

/-- The jobs until the selector with a given number is built. -/
def upTo : Nat → List Job → List Job
  | _, [] => []
  | k, job :: jobs =>
    match job.builds, k with
    | false, k => job :: upTo k jobs
    | true, 0 => [job]
    | true, k + 1 => job :: upTo k jobs

/-- The traversals that are reported through selectors which know the listener. -/
def heard (jobs : List Job) (l : Listener) : List Edge :=
  jobs.filterMap fun
    | traverse k e => if asked (upTo k jobs) l then some e else none
    | _ => none

variable {jobs : List Job} {job : Job} {k : Nat} {l : Listener}

theorem asked_nil (l : Listener) : asked [] l = false := by
  cases l <;> simp [asked]

theorem asks_ne_counter (job : Job) (c : Nat) : job.asks ≠ some (.counter c) := by
  cases job with
  | policy kind config => cases kind <;> cases h : config.strategy <;> simp [asks, Kind.asks, h]
  | _ => simp [asks]

/-- A counter gets the next free number. -/
theorem enrolls_eq_counter {n c : Nat} : job.enrolls n = some (.counter c) ↔ job.isCounter = true ∧ n = c := by
  cases job with
  | counter => simp [enrolls, isCounter]
  | _ => simp [enrolls, isCounter, asks_ne_counter]

theorem asked_concat :
    asked (jobs ++ [job]) l = true ↔ asked jobs l = true ∨ job.enrolls (jobs.countP isCounter) = some l := by
  cases l with
  | counter c =>
    rw [enrolls_eq_counter]
    cases h : job.isCounter with
    | false => simp [asked, h]
    | true =>
      simp [asked, h]
      omega
  | _ =>
    cases job with
    | counter => simp [asked, enrolls, asks]
    | _ => simp [asked, enrolls]

theorem asked_concat_of_ne (h : job.enrolls (jobs.countP isCounter) ≠ some l) :
    asked (jobs ++ [job]) l = asked jobs l := by
  rw [Bool.eq_iff_iff, asked_concat]
  simp [h]

theorem asked_of_sublist {few : List Job} (hs : few.Sublist jobs) (h : asked few l = true) : asked jobs l = true := by
  cases l with
  | counter c =>
    have hle := hs.countP_le (p := isCounter)
    simp only [asked, decide_eq_true_eq] at h ⊢
    omega
  | _ =>
    obtain ⟨job, hjob, ha⟩ := List.any_eq_true.mp h
    exact List.any_eq_true.mpr ⟨job, hs.subset hjob, ha⟩

theorem upTo_cons_of_not (hb : job.builds = false) : upTo k (job :: jobs) = job :: upTo k jobs := by
  simp [upTo, hb]

theorem upTo_zero_cons (hb : job.builds = true) : upTo 0 (job :: jobs) = [job] := by
  simp [upTo, hb]

theorem upTo_succ_cons (hb : job.builds = true) : upTo (k + 1) (job :: jobs) = job :: upTo k jobs := by
  simp [upTo, hb]

theorem upTo_sublist (k : Nat) (jobs : List Job) : (upTo k jobs).Sublist jobs := by
  induction jobs generalizing k with
  | nil => exact List.Sublist.refl _
  | cons job jobs ih =>
    cases hb : job.builds with
    | false => exact upTo_cons_of_not hb ▸ (ih k).cons_cons job
    | true =>
      cases k with
      | zero => simp [upTo_zero_cons hb]
      | succ k => exact upTo_succ_cons hb ▸ (ih k).cons_cons job

/-- Later jobs do not matter to a selector that has been built. -/
theorem upTo_append (h : k < jobs.countP builds) (more : List Job) : upTo k (jobs ++ more) = upTo k jobs := by
  induction jobs generalizing k with
  | nil => simp at h
  | cons job jobs ih =>
    rw [List.cons_append]
    cases hb : job.builds with
    | false =>
      rw [List.countP_cons_of_neg (by simp [hb])] at h
      rw [upTo_cons_of_not hb, upTo_cons_of_not hb, ih h]
    | true =>
      rw [List.countP_cons_of_pos hb] at h
      cases k with
      | zero => rw [upTo_zero_cons hb, upTo_zero_cons hb]
      | succ k => rw [upTo_succ_cons hb, upTo_succ_cons hb, ih (by omega)]

theorem upTo_countP (hb : job.builds = true) (jobs more : List Job) :
    upTo (jobs.countP builds) (jobs ++ job :: more) = jobs ++ [job] := by
  induction jobs with
  | nil => simp [upTo, hb]
  | cons j jobs ih =>
    cases hj : j.builds with
    | false => simp [upTo, hj, ih]
    | true => simp [upTo, hj, ih]

/-- Traversals are reported through selectors that have been built. -/
def Orderly (jobs : List Job) : Prop := ∀ k e, .traverse k e ∈ jobs → k < jobs.countP builds

theorem Orderly.concat (h : Orderly jobs) (hjob : ∀ k e, job = .traverse k e → k < jobs.countP builds) :
    Orderly (jobs ++ [job]) := by
  intro k e hmem
  have hk : k < jobs.countP builds := by
    rcases List.mem_append.mp hmem with hmem | hmem
    · exact h k e hmem
    · exact hjob k e (List.mem_singleton.mp hmem).symm
  rw [List.countP_append]
  omega

theorem heard_append (h : Orderly jobs) (more : List Job) (l : Listener) :
    heard (jobs ++ more) l = heard jobs l ++ more.filterMap fun
      | traverse k e => if asked (upTo k (jobs ++ more)) l then some e else none
      | _ => none := by
  rw [heard, List.filterMap_append]
  congr 1
  refine List.filterMap_congr fun job hjob => ?_
  cases job with
  | traverse k e => simp only [upTo_append (h k e hjob)]
  | _ => rfl

theorem heard_concat (h : Orderly jobs) (hjob : job.edge? = none) : heard (jobs ++ [job]) l = heard jobs l := by
  rw [heard_append h]
  cases job with
  | traverse k e => cases hjob
  | _ => simp

theorem heard_concat_traverse (h : Orderly jobs) (hk : k < jobs.countP builds) (e : Edge) :
    heard (jobs ++ [.traverse k e]) l = heard jobs l ++ if asked (upTo k jobs) l then [e] else [] := by
  rw [heard_append h]
  by_cases ha : asked (upTo k jobs) l = true
  · simp [upTo_append hk, ha]
  · simp [upTo_append hk, ha]

theorem heard_eq_nil (h : asked jobs l = false) : heard jobs l = [] := by
  refine List.filterMap_eq_nil_iff.mpr fun job _ => ?_
  cases job with
  | traverse k e =>
    have hk : asked (upTo k jobs) l = false :=
      Bool.eq_false_iff.mpr fun ha => Bool.eq_false_iff.mp h (asked_of_sublist (upTo_sublist k jobs) ha)
    simp [hk]
  | _ => rfl

theorem reported_concat : reported (jobs ++ [job]) = reported jobs ++ job.edge?.toList := by
  cases job <;> simp [reported, edge?]

theorem reported_eq_nil (h : Orderly jobs) (hzero : jobs.countP builds = 0) : reported jobs = [] := by
  refine List.filterMap_eq_nil_iff.mpr fun job hjob => ?_
  cases job with
  | traverse k e =>
    have hk := h k e hjob
    omega
  | _ => rfl

theorem firstLimit_append (h : 0 < jobs.countP builds) (more : List Job) :
    firstLimit (jobs ++ more) = firstLimit jobs := by
  obtain ⟨first, hfirst⟩ := Option.isSome_iff_exists.mp (List.find?_isSome.mpr (List.countP_pos_iff.mp h))
  simp only [firstLimit, List.find?_append, hfirst, Option.some_or]

theorem firstLimit_of_zero (h : jobs.countP builds = 0) : firstLimit jobs = none := by
  simp only [firstLimit, List.find?_eq_none.mpr (List.countP_eq_zero.mp h), Option.bind_none]

theorem firstLimit_concat (h : jobs.countP builds = 0) : firstLimit (jobs ++ [job]) = job.limit? := by
  simp only [firstLimit, List.find?_append, List.find?_eq_none.mpr (List.countP_eq_zero.mp h), Option.none_or]
  cases job <;> rfl

/-! ### An interleaving after all else -/

/-- Every listener hears everything that is reported through an interleaving that is built after all else. -/
theorem heard_interleaved (hquiet : ∀ job ∈ jobs, job.edge? = none) (ks : List Nat) (es : List Edge)
    (l : Listener) :
    heard (jobs ++ .interleave ks :: es.map (.traverse (jobs.countP builds))) l = if asked jobs l then es else [] := by
  have horderly : Orderly jobs := by
    intro k e hmem
    cases hquiet _ hmem
  have hjobs : heard jobs l = [] := by
    refine List.filterMap_eq_nil_iff.mpr fun job hjob => ?_
    cases job with
    | traverse k e => cases hquiet _ hjob
    | _ => rfl
  have hasked : asked (jobs ++ [.interleave ks]) l = asked jobs l := asked_concat_of_ne nofun
  rw [heard_append horderly, hjobs, List.nil_append, List.filterMap_cons_none rfl, List.filterMap_map]
  have hupTo := upTo_countP (show (Job.interleave ks).builds = true from rfl) jobs
  simp only [Function.comp_def, hupTo, hasked]
  cases asked jobs l <;> simp

theorem reported_interleaved (hquiet : ∀ job ∈ jobs, job.edge? = none) (ks : List Nat) (k : Nat)
    (es : List Edge) : reported (jobs ++ .interleave ks :: es.map (.traverse k)) = es := by
  have hnone : jobs.filterMap edge? = [] := List.filterMap_eq_nil_iff.mpr hquiet
  rw [reported, List.filterMap_append, hnone, List.nil_append, List.filterMap_cons_none rfl, List.filterMap_map]
  exact List.filterMap_some

theorem asked_interleaved (jobs : List Job) (ks : List Nat) (k : Nat) (es : List Edge) (l : Listener) :
    asked (jobs ++ .interleave ks :: es.map (.traverse k)) l = asked jobs l := by
  cases l <;> simp [asked, asks, isCounter, Function.comp_def]

end Job

end Symex
