import Symex.Demo
import Symex.Proofs.Model.WellFormed
import Symex.Proofs.Plan.Enumeration
import Symex.Proofs.Synthesis.Origin

/-!
# Every cluster has an answer

Where drafts can be counted, tested, refined and verified without fault, a search ends with an answer, whatever was
verified before it. So what is found for a cluster does not depend on the clusters that were tried before, except by
the time that they took; and not by that if there is some left.
-/

namespace Symex

open Cluster (rootsAt)
open Draft (Sane)

namespace Agenda

theorem exists_push (a : Agenda) {d : Draft} (hd : ∃ n, d.calls = .ok n) : ∃ b, a.push d = .ok b := by
  refine exists_bind hd fun n => ?_
  split <;> exact ⟨_, rfl⟩

theorem exists_pushAll (a : Agenda) {ds : List Draft} (hds : ∀ d ∈ ds, ∃ n, d.calls = .ok n) :
    ∃ b, a.pushAll ds = .ok b := by
  induction ds generalizing a with
  | nil => exact ⟨a, rfl⟩
  | cons d ds ih =>
    obtain ⟨b, hpush⟩ := a.exists_push (hds d List.mem_cons_self)
    obtain ⟨b', hall⟩ := ih b.2 fun e he => hds e (List.mem_cons_of_mem _ he)
    rw [pushAll, List.foldlM_cons]
    exact ⟨b', bind_eq_ok.mpr ⟨b.2, bind_eq_ok.mpr ⟨b, hpush, rfl⟩, hall⟩⟩

end Agenda

namespace Synthesizer

/-- The drafts for some roots can be worked on without fault. The answers of the verifier do not depend on what was
verified before, and what it finds satisfies `good`. -/
structure Workable (w : Workshop) (c : Catalog) (targets : Store) (roots : List Handle)
    (good : Store × List Handle → Prop) : Prop where
  calls : ∀ {d : Draft}, Sane c targets roots d → ∃ n, d.calls = .ok n
  isComplete : ∀ {d : Draft}, Sane c targets roots d → ∃ b, d.isComplete = .ok b
  refine : ∀ {d : Draft}, Sane c targets roots d → ∃ ds, d.refine c = .ok ds
  verify : ∀ {d : Draft}, Sane c targets roots d → ∀ time,
    ∃ r used, (∀ v, ∃ v', w.verify d time v = .ok (r, v') ∧ v'.clock = v.clock + used) ∧ ∀ out, r = some out → good out

/-- The answer of the search for some roots in a given time, and how much of that it takes, whatever was verified
before. -/
def Finds (w : Workshop) (c : Catalog) (targets : Store) (roots : List Handle) (depth time : Nat)
    (answer : Option (Store × List Handle)) (used : Nat) : Prop :=
  ∃ a, Agenda.start { targets, roots } depth = .ok a ∧
    ∀ v, ∃ v', search w c time a v = .ok (answer, v') ∧ v'.clock = v.clock + used

variable {w : Workshop} {c : Catalog} {targets : Store} {roots : List Handle} {depth time used : Nat}
  {answer : Option (Store × List Handle)}

theorem Finds.unique {answer' : Option (Store × List Handle)} {used' : Nat}
    (h : Finds w c targets roots depth time answer used) (h' : Finds w c targets roots depth time answer' used') :
    answer = answer' ∧ used = used' := by
  obtain ⟨a, hstart, hsearch⟩ := h
  obtain ⟨a', hstart', hsearch'⟩ := h'
  rw [hstart] at hstart'
  cases hstart'
  obtain ⟨v, hv, hclock⟩ := hsearch {}
  obtain ⟨v', hv', hclock'⟩ := hsearch' {}
  rw [hv] at hv'
  cases hv'
  exact ⟨rfl, by omega⟩

theorem Finds.used_le (h : Finds w c targets roots depth time answer used) : used ≤ time := by
  obtain ⟨a, -, hsearch⟩ := h
  obtain ⟨v, hv, hclock⟩ := hsearch {}
  obtain ⟨used', hused, htimed⟩ := search_timed hv
  have hle := htimed.le
  omega

/-- As long as not all of it is used up, the time makes no difference. -/
theorem Finds.of_lt (h : Finds w c targets roots depth time answer used) (hlt : used < time) {t : Nat} (ht : used < t) :
    Finds w c targets roots depth t answer used := by
  obtain ⟨a, hstart, hsearch⟩ := h
  refine ⟨a, hstart, fun v => ?_⟩
  obtain ⟨v', hv, hclock⟩ := hsearch v
  obtain ⟨used', hused, htimed⟩ := search_timed hv
  cases Nat.add_left_cancel (hclock.symm.trans hused)
  exact ⟨v', (htimed.more hlt t ht).trans hv, hclock⟩

section Workable

variable {good : Store × List Handle → Prop} (hw : Workable w c targets roots good)

include hw

theorem Workable.exists_next {a : Agenda} (ha : ∀ e ∈ a.entries, Sane c targets roots e.2) :
    ∃ r, a.next c = .ok r := by
  unfold Agenda.next
  split
  · exact ⟨none, rfl⟩
  next k d es hes =>
    have hd : Sane c targets roots d := ha (k, d) (by rw [hes]; exact List.mem_cons_self)
    obtain ⟨ds, hds⟩ := hw.refine hd
    obtain ⟨b, hall⟩ := Agenda.exists_pushAll { a with entries := es } fun e he =>
      hw.calls (hd.of_reaches (.step .refl hds he))
    exact ⟨_, bind_eq_ok.mpr ⟨ds, hds, bind_eq_ok.mpr ⟨b, hall, rfl⟩⟩⟩

theorem Workable.exists_search {a : Agenda} (ha : ∀ e ∈ a.entries, Sane c targets roots e.2) (n : Nat) :
    ∃ r used, (∀ v, ∃ v', search w c n a v = .ok (r, v') ∧ v'.clock = v.clock + used) ∧
      ∀ out, r = some out → good out := by
  induction n using Nat.strongRecOn generalizing a with
  | _ n ih =>
    cases n with
    | zero => exact ⟨none, 0, fun v => ⟨v, by rw [search], rfl⟩, nofun⟩
    | succ n =>
      obtain ⟨next, hnext⟩ := hw.exists_next ha
      cases next with
      | none => exact ⟨none, 0, fun v => ⟨v, search_of_empty hnext, rfl⟩, nofun⟩
      | some e =>
        obtain ⟨d, b⟩ := e
        obtain ⟨hd, hb⟩ := Agenda.sane_of_next ha hnext
        obtain ⟨q, hq⟩ := hw.isComplete hd
        obtain ⟨r, spent, hverify, hgood⟩ := hw.verify hd (some n)
        cases r with
        | some out =>
          refine ⟨some out, 1 + spent, fun v => ?_, hgood⟩
          obtain ⟨v', hv, hclock⟩ := hverify v.tick
          exact ⟨v', search_succ hnext hq hv, hclock.trans (Nat.add_assoc _ _ _)⟩
        | none =>
          obtain ⟨r, used, hsearch, hgood⟩ := ih (n - spent) (by omega) hb
          refine ⟨r, 1 + spent + used, fun v => ?_, hgood⟩
          obtain ⟨u, hu, hspent⟩ := hverify v.tick
          obtain ⟨v', hv, hclock⟩ := hsearch u
          refine ⟨v', ?_, ?_⟩
          · rw [search_succ hnext hq hu, hspent, Nat.add_sub_cancel_left]
            exact hv
          · rw [hclock, hspent]
            show v.clock + 1 + spent + used = _
            omega

theorem Workable.exists_finds (depth time : Nat) :
    ∃ answer used, Finds w c targets roots depth time answer used ∧ ∀ out, answer = some out → good out := by
  obtain ⟨b, hpush⟩ := Agenda.exists_push { depth } (hw.calls (Draft.sane_start c targets roots))
  have hstart : Agenda.start { targets, roots } depth = .ok b.2 := bind_eq_ok.mpr ⟨b, hpush, rfl⟩
  obtain ⟨answer, used, hsearch, hgood⟩ := hw.exists_search (Agenda.sane_of_start hstart) time
  exact ⟨answer, used, ⟨b.2, hstart, hsearch⟩, hgood⟩

end Workable

/-! ### Attempts -/

/-- An attempt goes by the answer for the roots of the cluster in the time that is left. -/
theorem attempt_of_finds {s : Synthesizer} {cluster : List Nat} {deadline : Nat}
    (h : Finds s.workshop s.catalog targets (rootsAt roots cluster) depth (deadline - s.verifier.clock) answer used)
    (r : Synthesized) :
    ∃ verifier, verifier.clock = s.verifier.clock + used ∧ s.attempt targets roots depth deadline r cluster =
      match answer with
      | none => .ok ({ s with verifier, attempts := s.attempts + 1 }, r)
      | some out => do
        let r ← Synthesized.adopt out.1 (cluster.zip out.2) { store := r.store } r.models
        return ({ s with verifier, attempts := s.attempts + 1, successes := s.successes + 1 }, r) := by
  obtain ⟨a, hstart, hsearch⟩ := h
  obtain ⟨v, hv, hclock⟩ := hsearch s.verifier
  refine ⟨v, hclock, ?_⟩
  unfold attempt
  show (Agenda.start { targets, roots := rootsAt roots cluster } depth >>= _) = _
  rw [hstart]
  show (search s.workshop s.catalog (deadline - s.verifier.clock) a s.verifier >>= _) = _
  rw [hv]
  cases answer <;> rfl

/-! ### Well-posed roots -/

/-- The roots are models of a store in which every handle leads to a model, aliases end and no container is inside
itself. -/
structure WellPosed (targets : Store) (roots : List Handle) : Prop where
  built : ∀ h ∈ roots, (targets.get? h).isSome
  closed : targets.Closed
  ends : ∀ {h k : Handle} {t : Term}, targets.get? h = some (.sameAs t k) → ∃ j, targets.deref k = .ok j
  acyclic : targets.Acyclic

namespace WellPosed

theorem of_wellFormed (hs : targets.WellFormed) (hroots : ∀ h ∈ roots, h.index < targets.size) :
    WellPosed targets roots := by
  refine ⟨fun h hh => hs.built (hroots h hh), hs.closed, ?_, hs.acyclic⟩
  intro h k t hg
  obtain ⟨m, hm, hsubject⟩ := hs.aliased hg
  exact ⟨k, Store.deref_of_subject hm hsubject⟩

variable (hp : WellPosed targets roots)

include hp

theorem of_subset {members : List Handle} (hsub : members ⊆ roots) : WellPosed targets members :=
  ⟨fun h hh => hp.built h (hsub hh), hp.closed, hp.ends, hp.acyclic⟩

theorem isSome_of_within {h : Handle} (hw : targets.Within roots h) : (targets.get? h).isSome := by
  obtain ⟨r, hr, hreach⟩ := hw
  induction hreach with
  | refl => exact hp.built r hr
  | tail _ hstep _ =>
    obtain ⟨k, b, hg, hmem⟩ := hstep
    exact hp.closed hg _ hmem

theorem legible : Draft.Legible targets roots := by
  intro h hw
  obtain ⟨m, hm⟩ := Option.isSome_iff_exists.mp (hp.isSome_of_within hw)
  refine ⟨m, hm, ?_⟩
  rintro t k rfl
  exact hp.ends hm

theorem ready : Draft.Ready targets roots := (Draft.ready_iff_legible hp.acyclic).mpr hp.legible

theorem measured : Goal.Measured targets roots := by
  intro h _ k b hd
  obtain ⟨j, -, hj⟩ := bind_eq_ok.mp hd
  obtain ⟨m, hm⟩ := Option.isSome_iff_exists.mp (hp.closed (Store.get_eq_ok.mp hj) b.length List.mem_cons_self)
  exact ⟨m, Store.get_eq_ok.mpr hm⟩

theorem workable (w : Workshop) (c : Catalog) : Workable w c targets roots fun out =>
    Probe.Assembled roots.length out ∧ ∃ d t u u', Sane c targets roots d ∧ w.verify d t u = .ok (some out, u') := by
  refine ⟨fun hs => hs.exists_calls hp.acyclic hp.ready, fun hs => hs.exists_isComplete hp.acyclic hp.ready,
    fun hs => hs.exists_refine hp.acyclic hp.ready, ?_⟩
  intro d hs time
  obtain ⟨r, used, hverify, hassembled⟩ := w.exists_verify hs hp.ready hp.acyclic hp.measured time
  refine ⟨r, used, hverify, ?_⟩
  intro out hout
  obtain ⟨v, hv, -⟩ := hverify {}
  exact ⟨hassembled out hout, d, time, {}, v, hs, hout ▸ hv⟩

end WellPosed

/-- An object with a number in it, an object that nothing can make, and an alias of the first one. -/
def twins : Store :=
  .ofSlots
    [some (Demo.target "foo" 3), some (.object (.param "bar" (.object "Bar")) {}),
     some (.sameAs (.param "twin" (.object "Foo")) ⟨0⟩)]

theorem twins_cases {h : Handle} {m : Model} (hg : twins.get? h = some m) :
    (∃ t as, m = .object t as) ∨ ∃ t, m = .sameAs t ⟨0⟩ := by
  obtain ⟨i⟩ := h
  match i with
  | 0 | 1 =>
    cases hg
    exact Or.inl ⟨_, _, rfl⟩
  | 2 =>
    cases hg
    exact Or.inr ⟨_, rfl⟩
  | i + 3 => cases hg

theorem wellFormed_twins : twins.WellFormed := by
  refine ⟨?_, ?_, ?_, ?_, ?_⟩
  · rintro ⟨i⟩ hi
    match i with
    | 0 | 1 | 2 => rfl
    | i + 3 => exact absurd hi (Nat.not_lt.mpr (Nat.le_add_left 3 i))
  · intro h m hg k hk
    obtain ⟨t, as, rfl⟩ | ⟨t, rfl⟩ := twins_cases hg
    · cases hk
    · rw [List.mem_singleton.mp hk]
      decide
  · intro h m hg
    obtain ⟨t, as, rfl⟩ | ⟨t, rfl⟩ := twins_cases hg <;> trivial
  · intro h k t hg
    obtain ⟨u, as, he⟩ | ⟨u, he⟩ := twins_cases hg
    · cases he
    · cases he
      exact ⟨_, rfl, rfl⟩
  · apply Store.acyclic_of_index_lt
    rintro a b ⟨k, c, hg, -⟩
    obtain ⟨t, as, he⟩ | ⟨t, he⟩ := twins_cases hg <;> cases he

theorem wellPosed_twins : WellPosed twins [⟨2⟩, ⟨1⟩, ⟨0⟩] := .of_wellFormed wellFormed_twins (by decide)

end Synthesizer

end Symex
