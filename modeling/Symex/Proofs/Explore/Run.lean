import Symex.Explore.Basic
import Symex.Frontier.Lemmas
import Symex.Proofs.Data.Outcome

/-!
# Invariants of an exploration

If a property of states is handed on from a state to its children, then every state that an exploration looks at has
it. If moreover states with that property can be judged and visited without fault, then so can the exploration be
run, and what the visits establish of the result is true of it in the end.
-/

namespace Symex

namespace Frontier

/-- States with a property can be judged, if the frontier judges states. -/
def Judges (inv : State → Prop) : Frontier → Prop
  | scored sc _ _ => ∀ s, inv s → ∃ v, sc.judge s = .ok v
  | _ => True

/-- A frontier that holds only states with a property, and can judge them. -/
structure Keeps (inv : State → Prop) (f : Frontier) : Prop where
  holds : ∀ s ∈ f.toList, inv s
  judges : f.Judges inv

variable {inv : State → Prop} {f : Frontier}

theorem Judges.exists_push (hf : f.Judges inv) {s : State} (hs : inv s) : ∃ g, f.push s = .ok g ∧ g.Judges inv := by
  cases f with
  | scored sc es n =>
    obtain ⟨v, hv⟩ := hf s hs
    obtain ⟨r, hr, hsame⟩ : ∃ r, sc.score s = .ok r ∧ r.2.judge = sc.judge := by
      unfold Scorer.score
      split
      · exact ⟨_, rfl, rfl⟩
      · rw [hv]
        exact ⟨_, rfl, rfl⟩
    refine ⟨.scored r.2 (es ++ [(r.1, s)]) (if r.1 = .infeasible then n + 1 else n), ?_, ?_⟩
    · rw [push, hr]
      rfl
    · intro t ht
      rw [hsame]
      exact hf t ht
  | _ => exact ⟨_, rfl, trivial⟩

theorem Judges.exists_foldlM_push (hf : f.Judges inv) {ss : List State} (hs : ∀ s ∈ ss, inv s) :
    ∃ g, ss.foldlM push f = .ok g ∧ g.Judges inv := by
  induction ss generalizing f with
  | nil => exact ⟨f, rfl, hf⟩
  | cons s ss ih =>
    obtain ⟨g, hg, hj⟩ := hf.exists_push (hs s List.mem_cons_self)
    obtain ⟨g', hg', hj'⟩ := ih hj fun t ht => hs t (List.mem_cons_of_mem _ ht)
    exact ⟨g', by rw [List.foldlM_cons]; exact bind_eq_ok.mpr ⟨g, hg, hg'⟩, hj'⟩

theorem Judges.exists_pushAll (hf : f.Judges inv) {ss : List State} (hs : ∀ s ∈ ss, inv s) :
    ∃ g, f.pushAll ss = .ok g ∧ g.Judges inv := by
  cases f with
  | queue o r bs => exact ⟨_, rfl, trivial⟩
  | _ => exact hf.exists_foldlM_push hs

theorem Judges.pick (hf : f.Judges inv) {i : Instruments} {s : State} {g : Frontier} (h : f.pick i = some (s, g)) :
    g.Judges inv := by
  cases f with
  | scored sc es n =>
    simp only [Frontier.pick, Option.map_eq_some_iff, Prod.mk.injEq, Prod.exists] at h
    obtain ⟨v, t, rest, -, -, rfl⟩ := h
    exact hf
  | queue o r bs =>
    cases o <;>
    · simp only [Frontier.pick, Option.map_eq_some_iff, Prod.mk.injEq, Prod.exists] at h
      obtain ⟨_, _, _, -, rfl⟩ := h
      trivial
  | ranked r ss =>
    simp only [Frontier.pick, Option.map_eq_some_iff, Prod.mk.injEq, Prod.exists] at h
    obtain ⟨_, _, _, -, rfl⟩ := h
    trivial
  | uniform t ss =>
    simp only [Frontier.pick] at h
    split at h
    · cases h
    · simp only [Option.map_eq_some_iff, Prod.mk.injEq, Prod.exists] at h
      obtain ⟨_, _, _, -, rfl⟩ := h
      trivial
  | walk t ss =>
    simp only [Frontier.pick, Option.map_eq_some_iff, Prod.mk.injEq, Prod.exists] at h
    obtain ⟨_, _, _, -, rfl⟩ := h
    trivial
  | weighted r t ss =>
    simp only [Frontier.pick] at h
    split at h
    · cases h
    · simp only [Option.map_eq_some_iff, Prod.mk.injEq, Prod.exists] at h
      obtain ⟨_, _, _, -, rfl⟩ := h
      trivial

theorem Judges.remove {id : Nat} {g : Frontier} {s : State} (hf : f.Judges inv) (h : f.remove id = some (s, g)) :
    g.Judges inv := by
  cases f with
  | scored sc es n =>
    obtain ⟨r, -, he⟩ := Option.map_eq_some_iff.mp h
    cases he
    exact hf
  | _ =>
    obtain ⟨r, -, he⟩ := Option.map_eq_some_iff.mp h
    cases he
    trivial

theorem Keeps.exists_push (hf : f.Keeps inv) {s : State} (hs : inv s) : ∃ g, f.push s = .ok g ∧ g.Keeps inv := by
  obtain ⟨g, hg, hj⟩ := hf.judges.exists_push hs
  refine ⟨g, hg, ?_, hj⟩
  intro t ht
  rw [toList_push hg] at ht
  rcases List.mem_append.mp ht with ht | ht
  · exact hf.holds t ht
  · rw [List.mem_singleton.mp ht]
    exact hs

theorem Keeps.exists_pushAll (hf : f.Keeps inv) {ss : List State} (hs : ∀ s ∈ ss, inv s) :
    ∃ g, f.pushAll ss = .ok g ∧ g.Keeps inv := by
  obtain ⟨g, hg, hj⟩ := hf.judges.exists_pushAll hs
  refine ⟨g, hg, ?_, hj⟩
  intro t ht
  rw [toList_pushAll hg] at ht
  rcases List.mem_append.mp ht with ht | ht
  · exact hf.holds t ht
  · exact hs t ht

theorem Keeps.pick (hf : f.Keeps inv) {i : Instruments} {s : State} {g : Frontier} (h : f.pick i = some (s, g)) :
    inv s ∧ g.Keeps inv := by
  have hp := pick_perm h
  refine ⟨hf.holds s (hp.mem_iff.mp List.mem_cons_self), ?_, hf.judges.pick h⟩
  intro t ht
  exact hf.holds t (hp.mem_iff.mp (List.mem_cons_of_mem _ ht))

end Frontier

namespace Explore

variable {α : Type}

/-- What an exploration hands on: `inv` from a state to its children, and `res` from result to result. -/
structure Setup.Preserves (p : Setup α) (inv : State → Prop) (res : α → Prop) : Prop where
  step : ∀ {s : State} (n : Nat), inv s → s.isTerminal = false → ∀ t ∈ (p.step n s).1, inv t
  checked : ∀ {s : State}, inv s → inv { s with pending := false }
  visit : ∀ {s : State} {a : α}, inv s → res a → ∃ b enough, p.visit s a = .ok (b, enough) ∧ res b

/-- An exploration with a single frontier, in which every state and the result are as they should be. -/
structure Progress.Holds (inv : State → Prop) (res : α → Prop) (x : Progress α) : Prop where
  keeps : ∃ f w, x.selector = .single f w ∧ f.Keeps inv
  result : res x.result

namespace Progress.Holds

variable {p : Setup α} {inv : State → Prop} {res : α → Prop} (hp : p.Preserves inv res) {x : Progress α}

include hp

theorem advance (hx : x.Holds inv res) {s : State} (hs : inv s) :
    ∃ y why, x.advance p s = .ok (y, why) ∧ y.Holds inv res := by
  unfold Progress.advance
  by_cases ht : s.isTerminal = true
  · rw [if_pos ht]
    obtain ⟨b, enough, hv, hb⟩ := hp.visit hs hx.result
    have hv' : p.visit s (x.enter s).result = .ok (b, enough) := hv
    unfold Progress.finish
    rw [hv']
    exact ⟨_, _, rfl, hx.keeps, hb⟩
  · rw [if_neg ht]
    obtain ⟨f, w, hf, hk⟩ := hx.keeps
    obtain ⟨g, hg, hkg⟩ := hk.exists_pushAll (hp.step x.nextId hs (Bool.eq_false_iff.mpr ht))
    have hpush : x.selector.pushAll (p.step x.nextId s).1 = .ok (.single g w) := by
      rw [hf, Selector.pushAll, hg]
      rfl
    obtain ⟨y, hy, hsel, hres⟩ :
        ∃ y, (x.enter s).expand p s = .ok y ∧ y.selector = .single g w ∧ y.result = x.result := by
      unfold Progress.expand
      show ∃ y, (x.selector.pushAll (p.step x.nextId s).1 >>= _) = .ok y ∧ _
      rw [hpush]
      exact ⟨_, rfl, rfl, rfl⟩
    refine ⟨y, none, ?_, ⟨g, w, hsel, hkg⟩, hres ▸ hx.result⟩
    show ((x.enter s).expand p s >>= _) = _
    rw [hy]
    rfl

theorem round (hx : x.Holds inv res) : ∃ y why, x.round p = .ok (y, why) ∧ y.Holds inv res := by
  obtain ⟨f, w, hf, hk⟩ := hx.keeps
  unfold Progress.round
  rw [hf, Selector.pick]
  cases hpick : f.pick x.instruments with
  | none => exact ⟨x, _, rfl, hx⟩
  | some r =>
    obtain ⟨s, g⟩ := r
    obtain ⟨hs, hkg⟩ := hk.pick hpick
    have hpicked (t : Tally) : ({ x with selector := .single g w, tally := t } : Progress α).Holds inv res :=
      ⟨⟨g, w, rfl, hkg⟩, hx.result⟩
    simp only [Option.map_some]
    split
    · split
      · exact advance hp (hpicked _) (hp.checked hs)
      · exact ⟨_, _, rfl, hpicked _⟩
    · exact advance hp (hpicked x.tally) hs

theorem loop (hx : x.Holds inv res) (n : Nat) : ∃ y why, x.loop p n = .ok (y, why) ∧ y.Holds inv res := by
  induction n generalizing x with
  | zero => exact ⟨x, _, rfl, hx⟩
  | succ n ih =>
    rw [Progress.loop]
    split
    · exact ⟨x, _, rfl, hx⟩
    · obtain ⟨y, why, hy, hhold⟩ := round hp hx
      rw [hy]
      cases why with
      | some why => exact ⟨y, why, rfl, hhold⟩
      | none => exact ih hhold

/-- An exploration that starts from a state with the property runs to its end, and the result is as it should
be. -/
theorem run (hx : x.Holds inv res) {s : State} (hs : inv s) (n : Nat) :
    ∃ y why, x.run p n s = .ok (y, why) ∧ y.Holds inv res := by
  obtain ⟨f, w, hf, hk⟩ := hx.keeps
  obtain ⟨g, hg, hkg⟩ := hk.exists_push hs
  have hpush : x.selector.push s = .ok (.single g w) := by
    rw [hf, Selector.push, hg]
    rfl
  have hstart : ({ x with selector := .single g w } : Progress α).Holds inv res := ⟨⟨g, w, rfl, hkg⟩, hx.result⟩
  unfold Progress.run
  rw [hpush]
  exact loop hp hstart n

end Progress.Holds

end Explore

end Symex
