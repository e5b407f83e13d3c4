import Symex.Demo
import Symex.Proofs.Plan.Agenda
import Symex.Proofs.Synthesis.Verified

/-!
# The search is complete and finds the fewest calls

The agenda hands out drafts by their number of calls, and refinement never takes a call away. So the first draft that
the verifier accepts has as few calls as any that it would accept, and drafts that are left out for having too many
calls lead to none that is wanted. The search ends because the agenda gets lighter with every draft that is taken out.
-/

namespace Symex

open Draft (Sane Ready Reaches)

/-! ### The search -/

namespace Synthesizer

/-- The verifier accepts a draft, and has models for its roots. -/
def Accepts (w : Workshop) (d : Draft) : Prop := ∃ v found v', w.verify d none v = .ok (some found, v')

/-- A draft that a search may find: it can be reached, is complete, has no more calls than the depth allows, and is
accepted. -/
structure Admissible (w : Workshop) (c : Catalog) (targets : Store) (roots : List Handle) (depth : Nat)
    (d : Draft) : Prop where
  reached : Reaches c { targets, roots } d
  complete : d.isComplete = .ok true
  bounded : ∃ k ≤ depth, d.calls = .ok k
  accepted : Accepts w d

theorem Accepts.complete {w : Workshop} {d : Draft} (h : Accepts w d) : d.isComplete = .ok true := by
  obtain ⟨v, found, v', hv⟩ := h
  obtain ⟨q, hq, hrest⟩ := bind_eq_ok.mp hv
  cases q with
  | true => exact hq
  | false => cases hrest

/-! Rounds of the search. A draft that is not complete is verified in no time. -/

section Rounds

variable {w : Workshop} {c : Catalog} {a b : Agenda} {d : Draft} {n : Nat} {v v' : Verifier}
  {r : Option (Store × List Handle)}

theorem search_of_empty (hn : a.next c = .ok none) : search w c n a v = .ok (none, v) := by
  cases n with
  | zero => rw [search]
  | succ n =>
    rw [search, hn]
    rfl

/-- A round goes by the answer of the verifier. -/
theorem search_succ {q : Bool} (hn : a.next c = .ok (some (d, b))) (hc : d.isComplete = .ok q)
    (hv : w.verify d (some n) v.tick = .ok (r, v')) :
    search w c (n + 1) a v =
      if r.isSome then .ok (r, v') else search w c (n - (v'.clock - v.tick.clock)) b v' := by
  rw [search, hn]
  show (d.isComplete >>= _) = _
  rw [hc]
  cases q with
  | false =>
    rw [w.verify_of_incomplete hc] at hv
    cases hv
    rw [Nat.sub_self]
    rfl
  | true =>
    show (w.verify d (some n) v.tick >>= _) = _
    rw [hv]
    rfl

theorem search_cases (h : search w c (n + 1) a v = .ok (r, v')) :
    (a.next c = .ok none ∧ r = none ∧ v' = v) ∨
    ∃ d b q r' u, a.next c = .ok (some (d, b)) ∧ d.isComplete = .ok q ∧ w.verify d (some n) v.tick = .ok (r', u) ∧
      (r'.isSome ∧ r' = r ∧ u = v' ∨
        r' = none ∧ search w c (n - (u.clock - v.tick.clock)) b u = .ok (r, v')) := by
  have hround := h
  rw [search] at hround
  obtain ⟨next, hnext, hround⟩ := bind_eq_ok.mp hround
  cases next with
  | none =>
    cases hround
    exact Or.inl ⟨hnext, rfl, rfl⟩
  | some e =>
    obtain ⟨d, b⟩ := e
    obtain ⟨q, hq, hround⟩ := bind_eq_ok.mp hround
    obtain ⟨⟨r', u⟩, hu⟩ : ∃ e, w.verify d (some n) v.tick = .ok e := by
      cases q with
      | false => exact ⟨_, w.verify_of_incomplete hq _ _⟩
      | true =>
        obtain ⟨e, he, -⟩ := bind_eq_ok.mp hround
        exact ⟨e, he⟩
    refine Or.inr ⟨d, b, q, r', u, hnext, hq, hu, ?_⟩
    rw [search_succ hnext hq hu] at h
    cases r' with
    | none => exact Or.inr ⟨rfl, h⟩
    | some found =>
      cases h
      exact Or.inl ⟨rfl, rfl, rfl⟩

/-- The clock goes on by the time that a search takes. -/
theorem search_timed (h : search w c n a v = .ok (r, v')) :
    ∃ used, v'.clock = v.clock + used ∧ Timed (fun n => search w c n a v) n used := by
  induction n using Nat.strongRecOn generalizing a v with
  | _ n ih =>
    cases n with
    | zero =>
      rw [search] at h
      cases h
      exact ⟨0, rfl, Nat.le_refl _, fun hlt => absurd hlt (Nat.lt_irrefl _)⟩
    | succ n =>
      rcases search_cases h with ⟨hnone, rfl, rfl⟩ | ⟨d, b, q, r', u, hnext, hq, hu, hend⟩
      · refine ⟨0, rfl, Nat.zero_le _, fun _ m _ => ?_⟩
        exact (search_of_empty hnone).trans (search_of_empty hnone).symm
      obtain ⟨spent, hspent, hverify⟩ := Workshop.verify_timed hu
      have hspent' : u.clock = v.clock + 1 + spent := hspent
      have hle := hverify.le
      have hround (m : Nat) (hm : spent < n ∧ spent < m ∨ m = n) :
          search w c (m + 1) a v = if r'.isSome then .ok (r', u) else search w c (m - spent) b u := by
        have hum : w.verify d (some m) v.tick = .ok (r', u) := by
          rcases hm with ⟨hn, hm⟩ | rfl
          · exact (hverify.more hn m hm).trans hu
          · exact hu
        rw [search_succ hnext hq hum, hspent, Nat.add_sub_cancel_left]
      rcases hend with ⟨hsome, rfl, rfl⟩ | ⟨rfl, hrest⟩
      · refine ⟨spent + 1, by omega, Nat.succ_le_succ hle, ?_⟩
        intro hlt m hm
        obtain ⟨m, rfl⟩ := Nat.exists_eq_add_one_of_ne_zero (by omega : m ≠ 0)
        show search w c (m + 1) a v = search w c (n + 1) a v
        rw [hround m (Or.inl ⟨by omega, by omega⟩), hround n (Or.inr rfl), if_pos hsome, if_pos hsome]
      · rw [hspent, Nat.add_sub_cancel_left] at hrest
        obtain ⟨used, hused, htimed⟩ := ih (n - spent) (by omega) hrest
        have hused_le := htimed.le
        refine ⟨spent + 1 + used, by omega, by omega, ?_⟩
        intro hlt m hm
        obtain ⟨m, rfl⟩ := Nat.exists_eq_add_one_of_ne_zero (by omega : m ≠ 0)
        show search w c (m + 1) a v = search w c (n + 1) a v
        rw [hround m (Or.inl ⟨by omega, by omega⟩), hround n (Or.inr rfl)]
        exact htimed.more (by omega) (m - spent) (by omega)

end Rounds

/-- What a search of an agenda comes to: if it finds models then by a draft with the fewest calls, and else there is
no draft to be found. -/
def Answers (w : Workshop) (c : Catalog) (depth : Nat) (a : Agenda) (r : Option (Store × List Handle)) (v' : Verifier) :
    Prop :=
  match r with
  | some found =>
    ∃ d u, (∃ e ∈ a.entries, Reaches c e.2 d) ∧ d.cost ≤ depth ∧ w.verify d none u = .ok (some found, v') ∧
      ∀ e ∈ a.entries, ∀ f, Reaches c e.2 f → Accepts w f → d.cost ≤ f.cost
  | none => ∀ e ∈ a.entries, ∀ f, Reaches c e.2 f → f.cost ≤ depth → ¬ Accepts w f

/-- More rounds than a search of the agenda can take, with the explorations of all probes. -/
def span (w : Workshop) (c : Catalog) (a : Agenda) : Nat := a.weight c * (w.allowance + 1)

section

variable (w : Workshop) {c : Catalog} {targets : Store} {roots : List Handle} {depth : Nat} (ha : targets.Acyclic)
  (hl : targets.PrimitiveLengths) (hr : Ready targets roots)

include ha hl hr

/-- An admissible draft, with its calls counted by `Draft.cost`. -/
theorem admissible_iff {d : Draft} : Admissible w c targets roots depth d ↔
    Reaches c { targets, roots } d ∧ d.cost ≤ depth ∧ Accepts w d := by
  have hcalls : Reaches c { targets, roots } d → d.calls = .ok d.cost :=
    fun h => ((Draft.sane_start c targets roots).of_reaches h).calls_eq ha hl hr
  constructor
  · rintro ⟨hreach, -, ⟨k, hk, hdk⟩, hacc⟩
    rw [hcalls hreach] at hdk
    cases hdk
    exact ⟨hreach, hk, hacc⟩
  · rintro ⟨hreach, hd, hacc⟩
    exact ⟨hreach, hacc.complete, ⟨_, hd, hcalls hreach⟩, hacc⟩

/-- A draft that is not accepted can be taken out: what its refinements and the other drafts lead to is the answer. -/
theorem Answers.of_next {a b : Agenda} (hsound : a.Sound c targets roots depth) {k : Nat} {d : Draft}
    {es : List (Nat × Draft)} (hes : a.entries = (k, d) :: es) {ds : List Draft} (hds : d.refine c = .ok ds)
    (hperm : b.entries.Perm ((ds.filter fun d => d.cost ≤ depth).map (fun d => (d.cost, d)) ++ es))
    (hnot : ¬ Accepts w d) {r : Option (Store × List Handle)} {v : Verifier} (hans : Answers w c depth b r v) :
    Answers w c depth a r v := by
  have hcover : ∀ e ∈ a.entries, ∀ f, Reaches c e.2 f → f.cost ≤ depth → Accepts w f →
      ∃ g ∈ b.entries, Reaches c g.2 f := by
    intro e he f hf hcost hacc
    rcases hsound.reaches_next ha hl hr hes hds hperm he hf hcost with rfl | hg
    · exact absurd hacc hnot
    · exact hg
  cases r with
  | none =>
    intro e he f hf hcost hacc
    obtain ⟨g, hg, hgf⟩ := hcover e he f hf hcost hacc
    exact hans g hg f hgf hcost hacc
  | some found =>
    obtain ⟨x, u, ⟨g, hg, hgx⟩, hx, hu, hmin⟩ := hans
    refine ⟨x, u, Agenda.reaches_of_next hes hds hperm hg hgx, hx, hu, ?_⟩
    intro e he f hf hacc
    by_cases hcost : f.cost ≤ depth
    · obtain ⟨g', hg', hgf⟩ := hcover e he f hf hcost hacc
      exact hmin g' hg' f hgf hacc
    · omega

/-- By induction on the weight of the agenda. The time that is left after a round is enough for what is left of it. -/
theorem exists_search {a : Agenda} (hsound : a.Sound c targets roots depth) (v : Verifier) :
    ∃ r v', (∀ n, span w c a < n → search w c n a v = .ok (r, v')) ∧ v'.clock ≤ v.clock + span w c a ∧
      Answers w c depth a r v' := by
  induction hm : a.weight c using Nat.strongRecOn generalizing a v with
  | _ m ih =>
    cases hes : a.entries with
    | nil =>
      have hnext : a.next c = .ok none := by rw [Agenda.next, hes]
      refine ⟨none, v, fun n _ => search_of_empty hnext, Nat.le_add_right _ _, ?_⟩
      intro e he
      rw [hes] at he
      cases he
    | cons e es =>
      obtain ⟨k, d⟩ := e
      have hhead : (k, d) ∈ a.entries := by
        rw [hes]
        exact List.mem_cons_self
      obtain ⟨hsane, hk, hkd⟩ := hsound.sane (k, d) hhead
      have hmeasured := Goal.measured_of_primitiveLengths hl roots
      obtain ⟨ds, b, hds, hnext, hb, hperm, -⟩ := hsound.exists_next ha hl hr hes
      obtain ⟨r, spent, hverify, -⟩ := w.exists_verify hsane hr ha hmeasured none
      obtain ⟨v₁, hv₁, hspent⟩ := hverify v.tick
      have hspent' : v₁.clock = v.clock + 1 + spent := hspent
      have hspent_le : v₁.clock ≤ v.clock + 1 + w.allowance := w.clock_verify_le hsane hr hmeasured hv₁
      have hless := Agenda.Sound.weight_lt ha hl hr hb hsound hes hds hperm
      -- What is left of the agenda is lighter, so there is time for one more verification.
      have hspan : span w c b + (w.allowance + 1) ≤ span w c a := by
        have hmul := Nat.mul_le_mul_right (w.allowance + 1) hless
        rwa [Nat.add_one_mul] at hmul
      have hround (n : Nat) (hn : w.allowance ≤ n) :
          search w c (n + 1) a v = if r.isSome then .ok (r, v₁) else search w c (n - spent) b v₁ := by
        rw [search_succ hnext (hsane.isComplete_eq ha hl hr)
          ((w.verify_of_allowance hsane hr hmeasured hn v.tick).trans hv₁), hspent, Nat.add_sub_cancel_left]
      cases r with
      | some found =>
        refine ⟨some found, v₁, ?_, by omega, d, v.tick, ⟨(k, d), hhead, .refl⟩, hk ▸ hkd, hv₁, ?_⟩
        · intro n hn
          obtain ⟨n, rfl⟩ := Nat.exists_eq_add_one_of_ne_zero (by omega : n ≠ 0)
          exact hround n (by omega)
        · intro f hf g hg _
          exact hsound.head_le ha hl hr hes hf hg
      | none =>
        obtain ⟨r', v₂, hrun, hclock, hans⟩ := ih _ (hm ▸ hless) hb v₁ rfl
        -- The answer on a draft does not depend on what the verifier has seen before.
        have hnot : ¬ Accepts w d := by
          rintro ⟨u, found, u', hu⟩
          obtain ⟨u'', hu'', -⟩ := hverify u
          rw [hu] at hu''
          cases hu''
        refine ⟨r', v₂, ?_, by omega, hans.of_next w ha hl hr hsound hes hds hperm hnot⟩
        intro n hn
        obtain ⟨n, rfl⟩ := Nat.exists_eq_add_one_of_ne_zero (by omega : n ≠ 0)
        exact (hround n (by omega)).trans (hrun (n - spent) (by omega))

omit hr in
theorem not_admissible_of_calls {e : Fault} (hcalls : Draft.calls { targets, roots } = .error e) (d : Draft) :
    ¬ Admissible w c targets roots depth d := by
  intro hd
  have hstart := Draft.sane_start c targets roots
  obtain ⟨k, -, hk⟩ := hd.bounded
  have hready := (hstart.of_reaches hd.reached).ready_of_calls ha hl hk
  rw [hstart.calls_eq ha hl hready] at hcalls
  cases hcalls

end

/-- The search ends with an answer that more rounds do not change. It is a fault only if the calls of the first draft
cannot be counted. It finds models exactly if there is an admissible draft, and those it finds are of an admissible
draft with the fewest calls. -/
theorem search_finds_fewest (w : Workshop) (c : Catalog) (targets : Store) (roots : List Handle) (depth : Nat)
    (v : Verifier) (hl : targets.PrimitiveLengths) (ha : targets.Acyclic) :
    ∃ enough answer, (∀ n, enough ≤ n → (do search w c n (← Agenda.start { targets, roots } depth) v) = answer) ∧
      ((∃ k, Draft.calls { targets, roots } = .ok k) → ∃ found v', answer = .ok (found, v')) ∧
      ((∃ found v', answer = .ok (some found, v')) ↔ ∃ d, Admissible w c targets roots depth d) ∧
      ∀ found v', answer = .ok (some found, v') →
        ∃ d u k, Admissible w c targets roots depth d ∧ w.verify d none u = .ok (some found, v') ∧
          d.calls = .ok k ∧ ∀ e j, Admissible w c targets roots depth e → e.calls = .ok j → k ≤ j := by
  cases hcalls : Draft.calls { targets, roots } with
  | error e =>
    refine ⟨0, .error e, ?_, ?_, ?_, ?_⟩
    · intro n _
      rw [Agenda.start, Agenda.push, hcalls]
      rfl
    · rintro ⟨k, hk⟩
      cases hk
    · constructor
      · rintro ⟨found, v', h⟩
        cases h
      · rintro ⟨d, hd⟩
        exact absurd hd (not_admissible_of_calls w ha hl hcalls d)
    · intro found v' h
      cases h
  | ok k =>
    have hstart := Draft.sane_start c targets roots
    have hr := hstart.ready_of_calls ha hl hcalls
    obtain ⟨a, hbegin, hsound, hreaches⟩ := Agenda.exists_start ha hl hr
    obtain ⟨r, v', hrun, -, hans⟩ := exists_search w ha hl hr hsound v
    have hends : ∀ n, span w c a + 1 ≤ n →
        (do search w c n (← Agenda.start { targets, roots } depth) v) = .ok (r, v') := by
      intro n hn
      rw [hbegin]
      exact hrun n (by omega)
    refine ⟨span w c a + 1, .ok (r, v'), hends, fun _ => ⟨r, v', rfl⟩, ?_⟩
    cases r with
    | none =>
      refine ⟨⟨?_, ?_⟩, ?_⟩
      · rintro ⟨found, v'', h⟩
        cases h
      · rintro ⟨d, hd⟩
        obtain ⟨hreach, hdd, hacc⟩ := (admissible_iff w ha hl hr).mp hd
        obtain ⟨e, he, hed⟩ := (hreaches d hdd).mpr hreach
        exact absurd hacc (hans e he d hed hdd)
      · intro found v'' h
        cases h
    | some found =>
      obtain ⟨d, u, hfrom, hdd, hu, hmin⟩ := hans
      have hreach := (hreaches d hdd).mp hfrom
      have hd : Admissible w c targets roots depth d :=
        (admissible_iff w ha hl hr).mpr ⟨hreach, hdd, u, found, v', hu⟩
      refine ⟨⟨fun _ => ⟨d, hd⟩, fun _ => ⟨found, v', rfl⟩⟩, ?_⟩
      intro found' v'' h
      cases h
      refine ⟨d, u, d.cost, hd, hu, (hstart.of_reaches hreach).calls_eq ha hl hr, ?_⟩
      intro f j hf hj
      obtain ⟨hreach', hfd, hacc⟩ := (admissible_iff w ha hl hr).mp hf
      rw [(hstart.of_reaches hreach').calls_eq ha hl hr] at hj
      cases hj
      obtain ⟨g, hg, hgf⟩ := (hreaches f hfd).mpr hreach'
      exact hmin g hg f hgf hacc

/-- A list with an object in it. -/
def shelf : Store :=
  .ofSlots
    [some (.container .list ⟨.param "shelf" (.object "List"), ⟨1⟩, [(⟨2⟩, ⟨3⟩)], .empty⟩),
     some (.primitive (.param "n" .int) (.int 1) .empty),
     some (.primitive (.param "i" .int) (.int 0) .empty),
     some (Demo.target "foo" 3)]

theorem container_shelf {h : Handle} {k : ContainerKind} {b : Container}
    (hg : shelf.get? h = some (.container k b)) : h = ⟨0⟩ ∧ b.length = ⟨1⟩ ∧ b.entries = [(⟨2⟩, ⟨3⟩)] := by
  obtain ⟨i⟩ := h
  match i with
  | 0 =>
    cases hg
    exact ⟨rfl, rfl, rfl⟩
  | 1 => cases hg
  | 2 => cases hg
  | 3 => cases hg
  | i + 4 => cases hg

theorem primitiveLengths_shelf : shelf.PrimitiveLengths := by
  intro h k b hg
  obtain ⟨-, hlen, -⟩ := container_shelf hg
  rw [hlen]
  exact ⟨.param "n" .int, .int 1, .empty, rfl, rfl⟩

theorem acyclic_shelf : shelf.Acyclic := by
  apply Store.acyclic_of_index_lt
  rintro h k ⟨kind, b, hg, hk⟩
  obtain ⟨rfl, hlen, hes⟩ := container_shelf hg
  rw [Model.children, hlen, hes] at hk
  simp only [List.flatMap_cons, List.flatMap_nil, List.append_nil, List.mem_cons, List.not_mem_nil, or_false] at hk
  rcases hk with rfl | rfl | rfl <;> decide

/-- The workshop of the demonstration. -/
def bench : Workshop := { machine := Demo.machine }

/-- The object on the shelf is a root as well, so its two calls count twice. -/
theorem search_finds_fewest_shelf :
    shelf.PrimitiveLengths ∧ shelf.Acyclic ∧
      ∃ enough answer,
        (∀ n, enough ≤ n →
          (do search bench Demo.machine.catalog n (← Agenda.start ⟨shelf, [⟨0⟩, ⟨3⟩], {}⟩ 4) {}) = answer) ∧
        ((∃ k, Draft.calls ⟨shelf, [⟨0⟩, ⟨3⟩], {}⟩ = .ok k) → ∃ found v', answer = .ok (found, v')) ∧
        ((∃ found v', answer = .ok (some found, v')) ↔
          ∃ d, Admissible bench Demo.machine.catalog shelf [⟨0⟩, ⟨3⟩] 4 d) ∧
        ∀ found v', answer = .ok (some found, v') →
          ∃ d u k, Admissible bench Demo.machine.catalog shelf [⟨0⟩, ⟨3⟩] 4 d ∧
            bench.verify d none u = .ok (some found, v') ∧ d.calls = .ok k ∧
            ∀ e j, Admissible bench Demo.machine.catalog shelf [⟨0⟩, ⟨3⟩] 4 e → e.calls = .ok j → k ≤ j :=
  ⟨primitiveLengths_shelf, acyclic_shelf,
    search_finds_fewest bench Demo.machine.catalog shelf [⟨0⟩, ⟨3⟩] 4 {} primitiveLengths_shelf acyclic_shelf⟩

end Synthesizer

end Symex
