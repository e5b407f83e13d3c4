import Symex.Proofs.Goal.Meaning
import Symex.Proofs.Synthesis.Replayed
import Symex.Proofs.Synthesis.Search

/-!
# Searches without end

The calls that make the length of a container are not counted, and a length is decided on before anything else. So if
the length is to be an object, and there is a call for it with an open hole, the depth does not keep a search from going
on with ever longer drafts. Main statement: such a search uses up all the time that it is given, if it finds nothing.
-/

namespace Symex

open Draft (Sane Ready)

/-- Every plan for the type with an open hole can be refined to one that has one again. -/
def Catalog.Grows (c : Catalog) (t : Ty) : Prop :=
  ∀ {p : Plan}, p.Fits c t → p.holes ≠ 0 → ∃ q ∈ p.refine c, q.holes ≠ 0

section Endless

variable {c : Catalog} {targets : Store} {root : Handle} {kind : ContainerKind} {b : Container} {t : Ty}
  (hroot : targets.get? root = some (.container kind b)) (hempty : b.entries = [])
  (hlen : Draft.suggested { targets, roots := [root] } b.length = .ok (.hole t))

/-! ### Drafts of an empty container -/

namespace Draft

variable {d : Draft} (hs : Sane c targets [root] d)

include hs hroot hempty in
theorem Sane.calls_of_empty : d.calls = .ok 0 := by
  have hplan := hs.plan_container hroot
  rw [hempty] at hplan
  unfold calls
  rw [hs.roots_eq, List.mapM_cons, callsWithin, hplan]
  rfl

include hs hlen in
theorem Sane.exists_plan_length : ∃ p, d.plan b.length = .ok p ∧ p.Fits c t := by
  have hsuggested : d.suggested b.length = .ok (.hole t) := hs.suggested_eq ▸ hlen
  unfold plan
  split
  next p hp =>
    obtain ⟨u, hu, -, hfits⟩ := hs.decided hp
    cases hsuggested.symm.trans hu
    exact ⟨p, rfl, hfits⟩
  next => exact ⟨_, hsuggested, .hole t⟩

include hs hroot hempty in
/-- Only the length of an empty container is refined. -/
theorem Sane.refine_of_empty {p : Plan} (hp : d.plan b.length = .ok p) (hfits : p.Fits c t) :
    d.refine c = .ok ((p.refine c).map (d.decide b.length)) := by
  have hplan := hs.plan_container hroot
  rw [hempty] at hplan
  have hgive (n : Nat) : d.refineWithin c (n + 1) b.length = .ok ((p.refine c).map (d.decide b.length)) := by
    rw [refineWithin, hp]
    cases hfits <;> rfl
  have hfirst {give : Handle → Except Fault (List Draft)} {h : Handle} {ds : List Draft} (hg : give h = .ok ds) :
      firstSome give [h] = .ok ds := by
    rw [firstSome, hg]
    cases ds <;> rfl
  rw [refine, hs.roots_eq]
  refine hfirst ?_
  rw [refineWithin, hplan]
  exact hfirst (hgive _)

end Draft

include hroot hlen in
theorem Goal.measured_of_length : Goal.Measured targets [root] := by
  intro h hh k e he
  cases List.mem_singleton.mp hh
  obtain ⟨m, hm, -⟩ := bind_eq_ok.mp hlen
  have hget := Store.get_eq_ok.mpr hroot
  have hderef : targets.derefModel root = .ok (.container kind b) := by
    rw [Store.derefModel, Store.deref, Store.derefWithin, hget]
    exact hget
  cases hderef.symm.trans he
  exact ⟨m, hm⟩

/-! ### The agenda does not run dry -/

namespace Agenda

theorem exists_pushAll_of_free (a : Agenda) {ds : List Draft} (hds : ∀ d ∈ ds, d.calls = .ok 0) :
    ∃ b, a.pushAll ds = .ok b ∧ ∀ d, d ∈ b.entries.map (·.2) ↔ d ∈ a.entries.map (·.2) ∨ d ∈ ds := by
  induction ds generalizing a with
  | nil => exact ⟨a, rfl, fun d => by simp⟩
  | cons d ds ih =>
    obtain ⟨b, hall, hmem⟩ :=
      ih { a with entries := insert 0 d a.entries } fun e he => hds e (List.mem_cons_of_mem _ he)
    refine ⟨b, ?_, ?_⟩
    · have hpush : a.push d = .ok (true, { a with entries := insert 0 d a.entries }) := by
        rw [push, hds d List.mem_cons_self]
        rfl
      rw [pushAll, List.foldlM_cons]
      exact bind_eq_ok.mpr ⟨_, bind_eq_ok.mpr ⟨_, hpush, rfl⟩, hall⟩
    · intro e
      rw [hmem, ((insert_perm 0 d a.entries).map (·.2)).mem_iff, List.map_cons, List.mem_cons, List.mem_cons]
      tauto

/-- Drafts for a root, of which one has an open hole in the plan for a length. -/
structure Growing (c : Catalog) (targets : Store) (root length : Handle) (a : Agenda) : Prop where
  sane : ∀ d ∈ a.entries.map (·.2), Sane c targets [root] d
  grows : ∃ d ∈ a.entries.map (·.2), ∃ p, d.plan length = .ok p ∧ p.holes ≠ 0

include hroot hempty hlen in
theorem Growing.exists_next (hgrows : c.Grows t) {a : Agenda} (h : a.Growing c targets root b.length) :
    ∃ d a', a.next c = .ok (some (d, a')) ∧ Sane c targets [root] d ∧ a'.Growing c targets root b.length := by
  obtain ⟨x, hx, p, hp, hholes⟩ := h.grows
  cases hes : a.entries with
  | nil =>
    rw [hes] at hx
    cases hx
  | cons e es =>
    obtain ⟨k, d⟩ := e
    have hsane := h.sane
    rw [hes] at hx hsane
    obtain ⟨hd, hrest⟩ := List.forall_mem_cons.mp hsane
    obtain ⟨q, hq, hfits⟩ := hd.exists_plan_length hlen
    have hrefine := hd.refine_of_empty hroot hempty hq hfits
    have hrefined : ∀ f ∈ (q.refine c).map (d.decide b.length), Sane c targets [root] f :=
      fun f hf => hd.of_reaches (.step .refl hrefine hf)
    obtain ⟨a', hall, hmem⟩ := exists_pushAll_of_free { a with entries := es } fun f hf =>
      (hrefined f hf).calls_of_empty hroot hempty
    refine ⟨d, a', ?_, hd, ?_, ?_⟩
    · rw [next, hes]
      exact bind_eq_ok.mpr ⟨_, hrefine, bind_eq_ok.mpr ⟨a', hall, rfl⟩⟩
    · intro f hf
      rcases (hmem f).mp hf with hf | hf
      · exact hrest f hf
      · exact hrefined f hf
    · rcases List.mem_cons.mp hx with rfl | hx
      · cases hq.symm.trans hp
        obtain ⟨r, hr, hopen⟩ := hgrows hfits hholes
        refine ⟨x.decide b.length r, (hmem _).mpr (Or.inr (List.mem_map_of_mem hr)), r, ?_, hopen⟩
        rw [Draft.plan_decide, if_pos rfl]
      · exact ⟨x, (hmem x).mpr (Or.inl hx), p, hp, hholes⟩

end Agenda

/-! ### The search -/

namespace Synthesizer

variable (w : Workshop) (ha : targets.Acyclic) (hr : Ready targets [root])

include hroot hempty hlen ha hr in
/-- However much time there is, all of it is used up. -/
theorem exists_search_of_growing (hgrows : c.Grows t)
    (hnot : ∀ {d time v r v'}, Sane c targets [root] d → w.verify d time v = .ok (r, v') → r = none)
    {a : Agenda} (h : a.Growing c targets root b.length) (n : Nat) (v : Verifier) :
    ∃ v', search w c n a v = .ok (none, v') ∧ v'.clock = v.clock + n := by
  have hm := Goal.measured_of_length hroot hlen
  induction n using Nat.strongRecOn generalizing a v with
  | _ n ih =>
    cases n with
    | zero => exact ⟨v, by rw [search], rfl⟩
    | succ n =>
      obtain ⟨d, a', hnext, hd, ha'⟩ := h.exists_next hroot hempty hlen hgrows
      obtain ⟨q, hq⟩ := hd.exists_isComplete ha hr
      obtain ⟨r, used, hverify, -⟩ := w.exists_verify hd hr ha hm (some n)
      obtain ⟨v₁, hv₁, hclock⟩ := hverify v.tick
      cases hnot hd hv₁
      obtain ⟨used', hclock', htimed⟩ := Workshop.verify_timed hv₁
      have hle := htimed.le
      have htick : v.tick.clock = v.clock + 1 := rfl
      obtain ⟨v₂, hsearch, hclock₂⟩ := ih (n - (v₁.clock - v.tick.clock)) (by omega) ha' v₁
      refine ⟨v₂, ?_, by omega⟩
      rw [search_succ hnext hq hv₁]
      exact hsearch

end Synthesizer

end Endless

namespace Synthesizer

/-- A doll, with another doll inside. -/
def doll : Method := .constructor "Doll" [.object "Doll"]

def dolls : Catalog := { methods := [doll] }

/-- An array whose length is to be a doll, and of which something untrue is said. -/
def row : Store :=
  .ofSlots
    [some (.container .array ⟨.param "row" (.array .int), ⟨1⟩, [], .ofList [.eq (.int 1) (.int 2)]⟩),
     some (.primitive (.param "n" (.object "Doll")) (.int 1) .empty)]

theorem container_row {h : Handle} {k : ContainerKind} {b : Container} (hg : row.get? h = some (.container k b)) :
    h = ⟨0⟩ ∧ b.length = ⟨1⟩ ∧ b.entries = [] := by
  obtain ⟨i⟩ := h
  match i with
  | 0 =>
    cases hg
    exact ⟨rfl, rfl, rfl⟩
  | 1 => cases hg
  | i + 2 => cases hg

theorem acyclic_row : row.Acyclic := by
  apply Store.acyclic_of_index_lt
  rintro h k ⟨kind, b, hg, hk⟩
  obtain ⟨rfl, hlen, hes⟩ := container_row hg
  rw [Model.children, hlen, hes] at hk
  cases List.mem_singleton.mp hk
  decide

theorem ready_row : Ready row [⟨0⟩] := by
  intro h hh
  have hleaves : [(⟨0⟩ : Handle)].flatMap row.leaves = [⟨1⟩] := by decide
  rw [hleaves] at hh
  cases List.mem_singleton.mp hh
  exact ⟨_, rfl⟩

/-- There is always room for one more doll. -/
theorem grows_dolls : dolls.Grows (.object "Doll") := by
  intro p hfits hopen
  generalize ht : Ty.object "Doll" = t at hfits
  induction hfits with
  | null => exact absurd rfl hopen
  | hole t =>
    subst ht
    exact ⟨Catalog.opened doll, List.mem_cons_of_mem _ List.mem_cons_self, by decide⟩
  | @call m ps hm _ hlen _ ih =>
    cases List.mem_singleton.mp hm
    obtain ⟨p, rfl⟩ := List.length_eq_one_iff.mp hlen.symm
    obtain ⟨q, hq, hholes⟩ := ih (.object "Doll", p) List.mem_cons_self hopen rfl
    refine ⟨.call doll [q], List.mem_map_of_mem ?_, hholes⟩
    rw [Plan.refineFirst]
    split
    next hnil => exact absurd (hnil ▸ hq) List.not_mem_nil
    next => exact List.mem_map_of_mem hq

theorem verify_row {w : Workshop} {d : Draft} {time : Option Nat} {v v' : Verifier} {r : Option (Store × List Handle)}
    (hs : Sane dolls row [⟨0⟩] d) (hv : w.verify d time v = .ok (r, v')) : r = none := by
  cases r with
  | none => rfl
  | some found =>
    obtain ⟨name, p, s, atoms, t, -, -, hpaired, hw, -⟩ :=
      Workshop.verify_some hs ready_row (Goal.measured_of_length rfl rfl) hv
    obtain ⟨models, values, hmodels, hvalues, hatoms⟩ := Goal.atoms_eq_some hw.goal
    cases hmodels
    obtain ⟨x, rfl⟩ := List.length_eq_one_iff.mp (hvalues.trans hpaired.symm)
    obtain ⟨as, has, hmem⟩ := hatoms _ List.mem_cons_self
    cases has
    have hholds := hw.holds (Or.inr (hmem (.eq (.int 1) (.int 2)) (List.mem_cons_of_mem _ List.mem_cons_self)))
    cases hholds

/-- The length of the array is a primitive, but of the type of dolls. The search for it has no answer that more time
would not change. -/
theorem search_row_endless :
    (∀ {h : Handle} {k : ContainerKind} {b : Container}, row.get? h = some (.container k b) →
      ∃ t x as, row.get? b.length = some (.primitive t x as)) ∧ row.Acyclic ∧
    (∃ k, Draft.calls { targets := row, roots := [⟨0⟩] } = .ok k) ∧
    ∀ (w : Workshop) (depth : Nat) (v : Verifier), ¬ ∃ enough answer, ∀ n, enough ≤ n →
      (do search w dolls n (← Agenda.start { targets := row, roots := [⟨0⟩] } depth) v) = answer := by
  refine ⟨?_, acyclic_row, ⟨0, rfl⟩, ?_⟩
  · intro h k b hg
    obtain ⟨-, hlen, -⟩ := container_row hg
    rw [hlen]
    exact ⟨_, _, _, rfl⟩
  · rintro w depth v ⟨enough, answer, hsame⟩
    have hstart : Agenda.start { targets := row, roots := [⟨0⟩] } depth =
        .ok { depth, entries := [(0, { targets := row, roots := [⟨0⟩] })] } := rfl
    have hgrowing : Agenda.Growing dolls row ⟨0⟩ ⟨1⟩
        { depth, entries := [(0, { targets := row, roots := [⟨0⟩] })] } := by
      refine ⟨?_, _, List.mem_cons_self, _, rfl, by decide⟩
      exact List.forall_mem_singleton.mpr (Draft.sane_start dolls row [⟨0⟩])
    have hends (n : Nat) := exists_search_of_growing rfl rfl rfl w acyclic_row ready_row grows_dolls verify_row
      hgrowing n v
    obtain ⟨v₁, hv₁, hclock₁⟩ := hends enough
    obtain ⟨v₂, hv₂, hclock₂⟩ := hends (enough + 1)
    have h₁ := hsame enough (Nat.le_refl _)
    have h₂ := hsame (enough + 1) (Nat.le_succ _)
    rw [hstart] at h₁ h₂
    cases (hv₁.symm.trans (h₁.trans h₂.symm)).trans hv₂
    omega

end Synthesizer

end Symex
