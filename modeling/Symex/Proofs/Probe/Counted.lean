import Symex.Proofs.Plan.Typed
import Symex.Proofs.Probe.Rooted
import Symex.Proofs.Probe.Steps

/-!
# The calls of a probe

The number of calls of a draft and its probe come about in different ways: the one is added up over the roots and
through the containers, the other is what lowering leaves in the body, root after root. They agree where no modifier is
without receiver and the length of a container is made without calls, and refinement sees to both.
-/

namespace Symex

namespace Lowering

/-- The statements so far that call a method. -/
def calls (w : Lowering) : Nat := w.body.countP Stmt.isCall

/-- A step that adds so many calls, if it succeeds. -/
def Adds (k : Nat) (make : Making) : Prop :=
  ∀ ⦃w w' : Lowering⦄ ⦃x : String⦄ ⦃r : Recipe⦄, make w = .ok ((x, r), w') → w'.calls = w.calls + k

theorem calls_emit (w : Lowering) (s : Stmt) : (w.emit s).calls = w.calls + if s.isCall then 1 else 0 := by
  rw [calls, emit, List.countP_append, List.countP_singleton]
  rfl

theorem calls_null (w : Lowering) (t : Ty) : (w.null t).2.calls = w.calls := calls_emit _ _

theorem calls_create (w : Lowering) (m : Method) (ys : List String) (ss : List Recipe) :
    (w.create m ys ss).2.calls = w.calls + 1 := by
  refine (calls_emit _ _).trans ?_
  split <;> rfl

theorem calls_allocate (w : Lowering) (self : Option Nat) (k : ContainerKind) (t : Ty) (x : String) :
    (w.allocate self k t x).2.calls = w.calls := by
  cases self <;> exact calls_emit _ _

end Lowering

open Lowering (Adds)

/-! ### Plans -/

/-- No modifier in the plan is without receiver, and the lengths of the containers in it are made without calls. -/
structure Plan.Countable (inside : Handle → Except Fault Lowering.Making) (p : Plan) : Prop where
  received : p.Received
  lengths : ∀ {k : ContainerKind} {t : Ty} {n : Handle} {es : List (Handle × Handle)} {make : Lowering.Making},
    Part (container k t n es) p → inside n = .ok make → Adds 0 make

theorem Plan.Countable.operand {inside : Handle → Except Fault Lowering.Making} {m : Method} {ps : List Plan} {p : Plan}
    (h : (call m ps).Countable inside) (hp : p ∈ ps) : p.Countable inside :=
  ⟨fun m' hm => h.received m' (.operand hp hm), fun hpart hmake => h.lengths (.operand hp hpart) hmake⟩

/-- A model adds the calls that are counted for it. -/
def Agree (inside : Handle → Except Fault Lowering.Making) (counted : Handle → Except Fault Nat) : Prop :=
  ∀ ⦃h : Handle⦄ ⦃make : Lowering.Making⦄ ⦃k : Nat⦄, inside h = .ok make → counted h = .ok k → Adds k make

section Plans

variable {inside : Handle → Except Fault Lowering.Making} {counted : Handle → Except Fault Nat}

theorem Lowering.calls_entries (hin : Agree inside counted) {x : String} {es : List (Handle × Handle)} {ks : List Nat}
    (hks : (es.flatMap fun e => [e.1, e.2]).mapM counted = .ok ks) {w w' : Lowering} {rs : List (Recipe × Recipe)}
    (h : w.entries inside x es = .ok (rs, w')) : w'.calls = w.calls + ks.sum := by
  induction es generalizing ks w rs with
  | nil =>
    cases h
    cases hks
    rfl
  | cons e es ih =>
    obtain ⟨makeKey, makeValue, key, kr, u, value, vr, v, ss, hk, hv, hu, hv', hrest, -⟩ := entries_cons_cases h
    obtain ⟨a, as, ha, has, rfl⟩ := List.forall₂_cons_left_iff.mp (mapM_eq_ok.mp hks)
    obtain ⟨b, bs, hb, hbs, rfl⟩ := List.forall₂_cons_left_iff.mp has
    have hend := ih (mapM_eq_ok.mpr hbs) hrest
    have hstored : (v.emit (.store x key value)).calls = v.calls := calls_emit _ _
    rw [hend, hstored, hin hv hb hv', hin hk ha hu, List.sum_cons, List.sum_cons]
    omega

namespace Plan

mutual

/-- A plan adds the calls that are counted for it. -/
theorem adds_lowerVia (hin : Agree inside counted) :
    ∀ (p : Plan) {k : Nat}, p.Countable inside → p.callsVia counted = .ok k → ∀ self, Adds k (p.lowerVia inside self)
  | null t, k, _, hk, self => by
    intro w w' x r h
    cases hk
    cases h
    exact Lowering.calls_null w t
  | hole t, k, _, hk, self => by
    intro w w' x r h
    cases hk
    cases h
    rfl
  | root t i, k, _, hk, self => by
    intro w w' x r h
    cases hk
    rw [lowerVia, lowerOr, Lowering.root] at h
    split at h
    · cases h
    · cases h
      exact Lowering.calls_null w t
    · cases h
      exact Lowering.calls_emit _ _
  | call m ps, k, hp, hk, self => by
    intro w w' x r h
    rw [callsVia] at hk
    obtain ⟨j, hj, hk⟩ := bind_eq_ok.mp hk
    have hall := fun {w w' xs rs} => adds_lowerAllVia hin ps (fun q hq => hp.operand hq) hj w w' xs rs
    rw [← pure_eq_ok.mp hk]
    rcases lowerVia_call_cases h with ⟨hm, rfl, -⟩ | ⟨s, ys, ss, u, hm, hops, -, rfl⟩ | ⟨ys, ss, u, hm, hops, hmade⟩
    · exact absurd hm (hp.received m .self)
    · rw [Lowering.calls_emit, hall hops, Nat.add_assoc, Nat.add_comm j]
      rfl
    · have hcreated := Lowering.calls_create u m ys ss
      rw [hmade, hall hops] at hcreated
      rw [hcreated, Nat.add_assoc, Nat.add_comm j]
  | container kind t n es, k, hp, hk, self => by
    intro w w' x r h
    rw [callsVia] at hk
    obtain ⟨ks, hks, hk⟩ := bind_eq_ok.mp hk
    obtain ⟨make, length, lr, u, rs, hmake, hu, -, hentries, -⟩ := lowerVia_container_cases h
    rw [← pure_eq_ok.mp hk, Lowering.calls_entries hin hks hentries, Lowering.calls_allocate,
      hp.lengths .self hmake hu, Nat.add_zero, List.sum_eq_foldr]

theorem adds_lowerAllVia (hin : Agree inside counted) :
    ∀ (ps : List Plan) {k : Nat}, (∀ p ∈ ps, p.Countable inside) → callsAllVia counted ps = .ok k →
    ∀ (w w' : Lowering) (xs : List String) (rs : List Recipe), lowerAllVia inside ps w = .ok ((xs, rs), w') →
    w'.calls = w.calls + k
  | [], k, _, hk, w, w', xs, rs, h => by
    cases hk
    cases h
    rfl
  | p :: ps, k, hps, hk, w, w', xs, rs, h => by
    rw [callsAllVia] at hk
    obtain ⟨i, hi, hk⟩ := bind_eq_ok.mp hk
    obtain ⟨j, hj, hk⟩ := bind_eq_ok.mp hk
    obtain ⟨x, r, u, ys, ss, hp, hrest, -, -⟩ := lowerAllVia_cons_cases h
    have hfirst := adds_lowerVia hin p (hps p List.mem_cons_self) hi none hp
    have hthen := adds_lowerAllVia hin ps (fun q hq => hps q (List.mem_cons_of_mem _ hq)) hj u w' ys ss hrest
    rw [hthen, hfirst, ← pure_eq_ok.mp hk, Nat.add_assoc]

end

end Plan

end Plans

/-! ### Drafts -/

namespace Draft

variable {d : Draft}

/-- No modifier is without receiver in a plan of the draft, and the length of a container is a hole. -/
structure Countable (d : Draft) : Prop where
  received : ∀ {h : Handle} {p : Plan}, d.plan h = .ok p → p.Received
  lengths : ∀ {h : Handle} {p : Plan} {k : ContainerKind} {t : Ty} {n : Handle} {es : List (Handle × Handle)},
    d.plan h = .ok p → Plan.Part (.container k t n es) p → ∃ u, d.plan n = .ok (.hole u)

theorem Countable.plan (hd : d.Countable) {h : Handle} {p : Plan} (hp : d.plan h = .ok p) (n : Nat) :
    p.Countable (d.lowerWithin n) := by
  refine ⟨hd.received hp, ?_⟩
  intro k t l es make hpart hmake w w' x r hw
  obtain ⟨u, hu⟩ := hd.lengths hp hpart
  obtain ⟨_, q, -, hq, rfl⟩ := lowerWithin_eq_ok hmake
  rw [hu] at hq
  cases hq
  cases hw
  rfl

theorem Countable.agree (hd : d.Countable) (m n : Nat) : Agree (d.lowerWithin m) (d.callsWithin n) := by
  induction m generalizing n with
  | zero => exact fun h make k hmake => by cases hmake
  | succ m ih =>
    intro h make k hmake hk
    obtain ⟨_, p, heq, hp, rfl⟩ := lowerWithin_eq_ok hmake
    cases heq
    cases n with
    | zero => cases hk
    | succ n =>
      rw [callsWithin, hp] at hk
      exact Plan.adds_lowerVia (ih n) p (hd.plan hp m) hk none

/-- Roots add the calls that are counted for them. -/
theorem Countable.calls_lowerRoots (hd : d.Countable) {n : Nat} {ps : List (Nat × Plan)} {ks : List Nat}
    (hps : ∀ e ∈ ps, ∃ h, d.plan h = .ok e.2)
    (hks : List.Forall₂ (fun e k => e.2.callsVia (d.callsWithin n) = .ok k) ps ks) {w w' : Lowering}
    {rs : Table Nat Recipe} (h : d.lowerRoots ps w = .ok (rs, w')) : w'.calls = w.calls + ks.sum := by
  induction hks generalizing w rs with
  | nil =>
    cases h
    rfl
  | @cons e k ps ks hk hks ih =>
    obtain ⟨x, r, u, ss, hu, hrest, -⟩ := lowerRoots_cons_cases h
    obtain ⟨a, ha⟩ := hps e List.mem_cons_self
    have hfirst := Plan.adds_lowerVia (hd.agree _ n) e.2 (hd.plan ha _) hk (some e.1) hu
    have hthen := ih (fun f hf => hps f (List.mem_cons_of_mem _ hf)) hrest
    rw [hthen, List.sum_cons, ← Nat.add_assoc, ← hfirst]
    rfl

theorem callsVia_of_callsWithin {n : Nat} {hs : List Handle} {ps : List Plan} {ks : List Nat}
    (hps : List.Forall₂ (fun h p => d.plan h = .ok p) hs ps)
    (hks : List.Forall₂ (fun h k => d.callsWithin (n + 1) h = .ok k) hs ks) :
    List.Forall₂ (fun p k => Plan.callsVia (d.callsWithin n) p = .ok k) ps ks := by
  induction hps generalizing ks with
  | nil =>
    cases hks
    exact .nil
  | cons hp _ ih =>
    obtain ⟨k, ks, hk, hrest, rfl⟩ := List.forall₂_cons_left_iff.mp hks
    rw [callsWithin, hp] at hk
    exact .cons hk (ih hrest)

/-- The calls that are counted for a draft are those of its probe. -/
theorem Countable.calls_eq (hd : d.Countable) {name : String} {p : Probe} {k : Nat} (hp : d.probe name = .ok p)
    (hk : d.calls = .ok k) : p.calls = k := by
  obtain ⟨plans, rs, w, hplans, hlow, rfl⟩ := probe_eq_ok hp
  rw [calls] at hk
  obtain ⟨ks, hks, hk⟩ := bind_eq_ok.mp hk
  have hcounted := callsVia_of_callsWithin (mapM_eq_ok.mp hplans) (mapM_eq_ok.mp hks)
  -- The roots are made in another order than they are counted in.
  obtain ⟨ks', hks', hperm⟩ := List.perm_comp_forall₂ (map_snd_order_perm plans) hcounted
  have hmade : ∀ e ∈ order plans, ∃ h, d.plan h = .ok e.2 := by
    intro e he
    obtain ⟨h, -, hh⟩ := mem_of_mapM hplans (List.mem_of_getElem? (mem_order.mp he))
    exact ⟨h, hh⟩
  have hend := hd.calls_lowerRoots hmade (List.forall₂_map_left_iff.mp hks') hlow
  rw [hperm.sum_eq, List.sum_eq_foldr, pure_eq_ok.mp hk] at hend
  exact hend.trans (Nat.zero_add k)

theorem Sane.countable {c : Catalog} {targets : Store} {roots : List Handle} (hs : Sane c targets roots d)
    (hl : targets.PrimitiveLengths) : d.Countable := by
  refine ⟨fun hp => hs.received hp, ?_⟩
  intro h p k t n es hp hpart
  obtain ⟨b, hb, rfl, -⟩ := hs.part_container hp hpart
  obtain ⟨v, _, _, hv, hprim⟩ := hl hb
  obtain ⟨hsuggested, hplan⟩ := hs.planAt_primitive hv hprim
  exact ⟨v.ty, hplan ▸ plan_of_suggested hsuggested⟩

/-- The number of calls in the probe of a draft that refinement has completed is the number that was counted. -/
theorem probe_calls_eq {c : Catalog} {targets : Store} {roots : List Handle} (hl : targets.PrimitiveLengths)
    (ha : targets.Acyclic) (hd : Reaches c { targets, roots } d) (hcomplete : d.isComplete = .ok true) (name : String) :
    ∃ p, d.probe name = .ok p ∧ d.calls = .ok p.calls := by
  have hs := (sane_start c targets roots).of_reaches hd
  have hr := hs.ready_of_isComplete ha hcomplete
  obtain ⟨ps, bs, ls, rs, hprobe, -⟩ := hs.exists_probe ha hr
  have hcalls := hs.calls_eq ha hl hr
  refine ⟨_, hprobe name, ?_⟩
  rw [(hs.countable hl).calls_eq (hprobe name) hcalls]
  exact hcalls

/-- The box is made and filled by two calls, and is not made again for the crate. -/
theorem probe_calls_eq_crate :
    crate.PrimitiveLengths ∧ crate.Acyclic ∧
      ∃ d p, Reaches boxes { targets := crate, roots := [⟨0⟩, ⟨1⟩] } d ∧ d.isComplete = .ok true ∧
        d.plan ⟨4⟩ = .ok (.root (.object "Box") 0) ∧ d.calls = .ok 2 ∧ d.probe "crate" = .ok p ∧ p.calls = 2 := by
  have hreach := Reaches.step (c := boxes) (.step (.step (.refl (d := { targets := crate, roots := [⟨0⟩, ⟨1⟩] })) rfl
    (List.mem_of_getElem? (i := 2) rfl)) rfl (List.mem_of_getElem? (i := 1) rfl)) rfl
    (List.mem_of_getElem? (i := 0) rfl)
  obtain ⟨p, hp, hcalls⟩ := probe_calls_eq primitiveLengths_crate acyclic_crate hreach rfl "crate"
  exact ⟨primitiveLengths_crate, acyclic_crate, _, p, hreach, rfl, rfl, rfl, hp, (Except.ok.inj hcalls).symm⟩

end Draft

end Symex
