import Symex.Proofs.Explore.Straight
import Symex.Proofs.Synthesis.Answered

/-!
# Accepted drafts

A draft whose probe does not fork is accepted if the state at the end of its line can be satisfied together with the
goal. Of the drafts that are accepted, the search takes one with the fewest calls, if it has the time for it.
-/

namespace Symex

open Draft (Sane Reaches)

/-! ### Probes that do not fork -/

namespace Workshop

variable {w : Workshop} {c : Catalog} {d : Draft} {targets : Store} {roots : List Handle}
  (hs : d.Sane c targets roots) (hr : Draft.Ready targets roots) (hm : Goal.Measured targets roots)

include hs hr hm

/-- A line is followed to its end. If that is a witness, the draft is accepted. -/
theorem accepts_of_line {p : Probe} (hc : d.isComplete = .ok true) (hprobe : ∀ name, d.probe name = .ok { p with name })
    (hlocals : p.locals.length = roots.length) (hground : ∀ r ∈ p.recipes, r.Grounded p.recipes.length) {n : Nat}
    {s : State} (hline : Explore.Setup.Line
      { limit := w.limit, step := w.machine.step p, visit := w.visit ⟨targets, roots, p.locals⟩ } 1 n
      (Machine.enter p 0) s)
    (hn : n ≤ w.settings.probeStepLimit) (hreturned : s.status = .returned) {atoms : List Atom}
    (hatoms : Goal.atoms ⟨targets, roots, p.locals⟩ s = .ok (some atoms))
    (hsat : (Solver.solve w.limit (atoms.foldl Path.addHard s.path).hard).isSome) : Synthesizer.Accepts w d := by
  obtain ⟨m, hm'⟩ := Option.isSome_iff_exists.mp hsat
  have hvisit : w.visit ⟨targets, roots, p.locals⟩ s {} =
      .ok (⟨some ⟨{ s with path := atoms.foldl Path.addHard s.path }, m⟩, 1⟩, true) := by
    rw [visit, if_neg (not_not.mpr hreturned), hatoms]
    dsimp only [bind, Except.bind]
    rw [Solver.check_hard, hm']
    rfl
  obtain ⟨x, hx, hfresh, hnext, hresult, hrounds⟩ := w.exists_progress hs hr hm p
  have hroom : 0 + n ≤ w.settings.probeStepLimit := (Nat.zero_add n).le.trans hn
  have hlt : n < x.rounds w.machine.degree := by
    unfold allowance at hrounds
    omega
  obtain ⟨y, hrun, hy⟩ :=
    Explore.Progress.run_of_line hline hfresh.empty ⟨_, hfresh.limited, hroom⟩ hnext (hresult ▸ hvisit) hlt
  obtain ⟨out, hout, -⟩ := Probe.exists_assemble (p := p)
    (Store.Closed.closedOn
      (Resolve.closed_resolve w.settings { s with path := atoms.foldl Path.addHard s.path } m .initial s.inputs))
    (fun h hh => Resolve.isSome_resolve w.settings { s with path := atoms.foldl Path.addHard s.path } m .initial
      s.inputs hh) hground
  have hmodels : w.models p y.result = .ok (some out) := by
    rw [hy]
    exact bind_eq_ok.mpr ⟨out, hout, rfl⟩
  have hgoal : Goal.make d.targets d.roots p.locals = .ok ⟨targets, roots, p.locals⟩ := by
    rw [Goal.make, hs.targets_eq, hs.roots_eq, if_pos hlocals.symm]
  -- The name that the verifier gives to the probe makes no difference.
  have hx' : ∀ name, w.progress d { p with name } = .ok x := fun _ => hx
  refine ⟨{}, out, ?_⟩
  rw [verify_of_probe w hc (hprobe _) hgoal, hx']
  exact ⟨_, bind_eq_ok.mpr ⟨y, bind_eq_ok.mpr ⟨_, hrun, rfl⟩, bind_eq_ok.mpr ⟨_, hmodels, rfl⟩⟩⟩

end Workshop

/-! ### The fewest calls -/

theorem Agenda.weight_start {c : Catalog} {d : Draft} {depth : Nat} {a : Agenda} (h : start d depth = .ok a) :
    a.weight c ≤ d.weight c depth := by
  obtain ⟨⟨taken, b⟩, hpush, hend⟩ := bind_eq_ok.mp h
  cases hend
  obtain ⟨n, -, hpush⟩ := bind_eq_ok.mp hpush
  split at hpush
  · cases hpush
    exact Nat.zero_le _
  · cases hpush
    exact (Nat.add_zero _).le

namespace Synthesizer

variable {w : Workshop} {c : Catalog} {targets : Store} {roots : List Handle} {depth time used : Nat}
  (ha : targets.Acyclic) (hl : targets.PrimitiveLengths) (hr : Draft.Ready targets roots)
  {answer : Option (Store × List Handle)} (h : Finds w c targets roots depth time answer used)

include ha hl hr h

/-- The time that a search takes has a bound that does not depend on how much it is given. -/
theorem Finds.used_le_weight : used ≤ Draft.weight c depth { targets, roots } * (w.allowance + 1) := by
  have htime := h.used_le
  obtain ⟨a, hstart, hsearch⟩ := h
  obtain ⟨a', hstart', hsound, -⟩ := Agenda.exists_start (c := c) ha hl hr
  rw [hstart] at hstart'
  cases hstart'
  have hspan : span w c a ≤ Draft.weight c depth { targets, roots } * (w.allowance + 1) :=
    Nat.mul_le_mul_right _ (Agenda.weight_start hstart)
  obtain ⟨r, v, hrun, hclock, -⟩ := exists_search w ha hl hr hsound {}
  obtain ⟨v', hv', hclock'⟩ := hsearch {}
  rcases Nat.lt_or_ge (span w c a) time with hlt | hge
  · rw [hrun time hlt] at hv'
    cases hv'
    omega
  · omega

/-- With enough time a search finds models by an accepted draft with the fewest calls, unless there is none. -/
theorem Finds.fewest (htime : Draft.weight c depth { targets, roots } * (w.allowance + 1) < time) :
    (answer = none → ∀ d, Reaches c { targets, roots } d → d.cost ≤ depth → ¬ Accepts w d) ∧
      ∀ out, answer = some out → ∃ d u u', Reaches c { targets, roots } d ∧ d.cost ≤ depth ∧
        w.verify d none u = .ok (some out, u') ∧
        ∀ e, Reaches c { targets, roots } e → Accepts w e → d.cost ≤ e.cost := by
  obtain ⟨a, hstart, hsearch⟩ := h
  obtain ⟨a', hstart', hsound, hreaches⟩ := Agenda.exists_start (c := c) ha hl hr
  rw [hstart] at hstart'
  cases hstart'
  obtain ⟨r, v, hrun, -, hanswers⟩ := exists_search w ha hl hr hsound {}
  obtain ⟨v', hv', -⟩ := hsearch {}
  rw [hrun time (Nat.lt_of_le_of_lt (Nat.mul_le_mul_right _ (Agenda.weight_start hstart)) htime)] at hv'
  cases hv'
  refine ⟨?_, ?_⟩
  · rintro rfl d hd hcost
    obtain ⟨e, he, hed⟩ := (hreaches d hcost).mpr hd
    exact hanswers e he d hed hcost
  · rintro out rfl
    obtain ⟨d, u, hfrom, hcost, hverify, hleast⟩ := hanswers
    refine ⟨d, u, v, (hreaches d hcost).mp hfrom, hcost, hverify, ?_⟩
    intro e he haccepts
    by_cases hec : e.cost ≤ depth
    · obtain ⟨f, hf, hfe⟩ := (hreaches e hec).mpr he
      exact hleast f hf e hfe haccepts
    · omega

end Synthesizer

end Symex
