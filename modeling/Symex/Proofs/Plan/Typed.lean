import Symex.Proofs.Plan.Enumeration
import Symex.Proofs.Probe.Lowered

/-!
# Types of plans

Refinement keeps plans typed: the plan for a model has the type of the model, and every call in it has an operand of
each declared type, after one of the class for the receiver of a modifier. So no modifier is without receiver, and it
does not matter what a probe would do for one.
-/

namespace Symex

/-- The plans are operands of the types that a method declares, after a receiver of its class if it is a modifier. -/
def Method.Takes (m : Method) (ps : List Plan) : Prop :=
  match m.kind with
  | .modifier => ∃ receiver args, ps = receiver :: args ∧ receiver.ty = .object m.owner ∧ args.map Plan.ty = m.params
  | .constructor | .factory => ps.map Plan.ty = m.params

namespace Plan

/-- A plan that occurs in another: that itself, or one that occurs in an operand of a call. -/
inductive Part (q : Plan) : Plan → Prop
  | self : Part q q
  | operand {m : Method} {ps : List Plan} {p : Plan} (hp : p ∈ ps) (h : Part q p) : Part q (call m ps)

/-! ### What refinement makes of a hole -/

section Typed

variable {c : Catalog} {t : Ty} {p q : Plan}

theorem Fits.ty_eq (h : Fits c t p) : p.ty = t := by
  cases h <;> rfl

theorem Fits.operands {m : Method} {ps : List Plan} (h : Fits c t (.call m ps)) :
    List.Forall₂ (Fits c) m.operands ps := by
  cases h with
  | call _ _ hlen hps => exact List.forall₂_iff_zip.mpr ⟨hlen, fun hx => hps _ hx⟩

theorem Fits.of_part (h : Fits c t p) (hq : Part q p) : ∃ u, Fits c u q := by
  induction hq generalizing t with
  | self => exact ⟨t, h⟩
  | operand hp _ ih =>
    have hall := h.operands
    obtain ⟨i, hi, rfl⟩ := List.mem_iff_getElem.mp hp
    exact ih (hall.get (hall.length_eq ▸ hi) hi)

/-- A call that refinement made has operands of the types that the method declares. -/
theorem Fits.takes {m : Method} {ps : List Plan} (h : Fits c t (.call m ps)) : m.Takes ps := by
  have htypes : m.operands = ps.map ty := by
    rw [← List.forall₂_eq_eq_eq, List.forall₂_map_right_iff]
    exact h.operands.imp fun u p hp => hp.ty_eq.symm
  unfold Method.operands at htypes
  unfold Method.Takes
  cases hk : m.kind with
  | constructor => simpa [hk] using htypes.symm
  | factory => simpa [hk] using htypes.symm
  | modifier =>
    rw [if_pos hk] at htypes
    obtain ⟨r, args, rfl, hr, hargs⟩ := List.map_eq_cons_iff.mp htypes.symm
    refine ⟨r, args, rfl, ?_, hargs⟩
    rw [hr, Method.produced, hk]

end Typed

/-! ### Modifiers without receiver -/

/-- No modifier in the plan is without receiver. -/
def Received (p : Plan) : Prop := ∀ m, Part (call m []) p → m.kind ≠ .modifier

section

variable (orphan orphan' : Method → Lowering.Making) (inside : Handle → Except Fault Lowering.Making)

mutual

theorem lowerOr_of_received : ∀ p : Plan, p.Received → ∀ self,
    p.lowerOr orphan inside self = p.lowerOr orphan' inside self
  | null _, _, _ => rfl
  | hole _, _, _ => rfl
  | root .., _, _ => rfl
  | container .., _, _ => rfl
  | call m [], h, self => by
    funext w
    have hm : m.kind ≠ .modifier := h m .self
    rw [lowerOr, lowerOr, if_neg hm, if_neg hm]
    rfl
  | call m (p :: ps), h, self => by
    funext w
    have hp := lowerOr_of_received p (fun m' hm' => h m' (.operand List.mem_cons_self hm')) none
    have hps := lowerAllOr_of_received ps fun q hq m' hm' => h m' (.operand (List.mem_cons_of_mem _ hq) hm')
    rw [lowerOr, lowerOr, lowerAllOr, lowerAllOr, hp, hps]

theorem lowerAllOr_of_received : ∀ ps : List Plan, (∀ p ∈ ps, p.Received) →
    lowerAllOr orphan inside ps = lowerAllOr orphan' inside ps
  | [], _ => rfl
  | p :: ps, h => by
    funext w
    have hp := lowerOr_of_received p (h p List.mem_cons_self) none
    have hps := lowerAllOr_of_received ps fun q hq => h q (List.mem_cons_of_mem _ hq)
    rw [lowerAllOr, lowerAllOr, hp, hps]

end

end

end Plan

namespace Draft

variable {c : Catalog} {d : Draft}

section

variable (hd : ∀ {h : Handle} {p : Plan}, d.plan h = .ok p → p.Received) (orphan orphan' : Method → Lowering.Making)

include hd

theorem lowerWithinOr_of_received (n : Nat) : d.lowerWithinOr orphan n = d.lowerWithinOr orphan' n := by
  induction n with
  | zero => rfl
  | succ n ih =>
    funext h
    rw [lowerWithinOr, lowerWithinOr, ih]
    exact bind_congr_ok fun p hp => congrArg pure (Plan.lowerOr_of_received _ _ _ p (hd hp) none)

theorem lowerRootsOr_of_received {ps : List (Nat × Plan)} (hps : ∀ e ∈ ps, e.2.Received) (w : Lowering) :
    d.lowerRootsOr orphan ps w = d.lowerRootsOr orphan' ps w := by
  induction ps generalizing w with
  | nil => rfl
  | cons e ps ih =>
    have hrest := ih fun f hf => hps f (List.mem_cons_of_mem _ hf)
    rw [lowerRootsOr, lowerRootsOr, lowerWithinOr_of_received hd orphan orphan',
      Plan.lowerOr_of_received orphan orphan' _ e.2 (hps e List.mem_cons_self)]
    simp only [hrest]

/-- What a modifier without receiver would give does not matter if there are none. -/
theorem probeOr_of_received (name : String) : d.probeOr orphan name = d.probeOr orphan' name := by
  refine bind_congr_ok fun ps hps => ?_
  have hall : ∀ e ∈ order ps, e.2.Received := by
    intro e he
    obtain ⟨h, -, hp⟩ := mem_of_mapM hps (List.mem_of_getElem? (mem_order.mp he))
    exact hd hp
  rw [lowerRootsOr_of_received hd orphan orphan' hall]

end

/-! ### Drafts that refinement reaches -/

theorem suggested_ty {h : Handle} {p : Plan} (hp : d.suggested h = .ok p) :
    ∃ m, d.targets.get? h = some m ∧ p.ty = m.term.ty := by
  unfold suggested at hp
  obtain ⟨m, hm, hp⟩ := bind_eq_ok.mp hp
  refine ⟨m, Store.get_eq_ok.mp hm, ?_⟩
  cases m with
  | sameAs t k =>
    obtain ⟨j, -, hp⟩ := bind_eq_ok.mp hp
    split at hp <;> exact pure_eq_ok.mp hp ▸ rfl
  | _ => exact pure_eq_ok.mp hp ▸ rfl

theorem not_part_suggested {h : Handle} {p : Plan} (hp : d.suggested h = .ok p) {m : Method} {ps : List Plan} :
    ¬ Plan.Part (.call m ps) p := by
  intro hpart
  rcases suggested_cases hp with ⟨t, rfl⟩ | ⟨t, rfl⟩ | ⟨t, i, -, rfl⟩ | ⟨k, b, -, rfl⟩ <;> cases hpart

section

variable {targets : Store} {roots : List Handle} (hs : Sane c targets roots d) {h : Handle} {p : Plan}
  (hp : d.plan h = .ok p)

include hs hp

/-- The plan for a model is what it suggests, or what refinement made of that. -/
theorem Sane.plan_cases : d.suggested h = .ok p ∨ ∃ t, d.suggested h = .ok (.hole t) ∧ p.Fits c t := by
  unfold plan at hp
  split at hp
  next q hq =>
    obtain ⟨t, hsuggested, -, hfits⟩ := hs.decided hq
    cases hp
    exact Or.inr ⟨t, hsuggested, hfits⟩
  next => exact Or.inl hp

theorem Sane.ty_eq : ∃ m, targets.get? h = some m ∧ p.ty = m.term.ty := by
  rw [← hs.targets_eq]
  rcases hs.plan_cases hp with hp | ⟨t, hsuggested, hfits⟩
  · exact suggested_ty hp
  · rw [hfits.ty_eq]
    exact suggested_ty hsuggested

theorem Sane.takes {m : Method} {ps : List Plan} (hpart : Plan.Part (.call m ps) p) : m.Takes ps := by
  rcases hs.plan_cases hp with hp | ⟨t, -, hfits⟩
  · exact absurd hpart (not_part_suggested hp)
  · obtain ⟨u, hu⟩ := hfits.of_part hpart
    exact hu.takes

/-- A container in a plan is the one that the model is. -/
theorem Sane.part_container {k : ContainerKind} {t : Ty} {n : Handle} {es : List (Handle × Handle)}
    (hpart : Plan.Part (.container k t n es) p) :
    ∃ b, targets.get? h = some (.container k b) ∧ n = b.length ∧ es = b.entries := by
  rw [← hs.targets_eq]
  rcases hs.plan_cases hp with hp | ⟨u, -, hfits⟩
  · rcases suggested_cases hp with ⟨u, rfl⟩ | ⟨u, rfl⟩ | ⟨u, i, -, rfl⟩ | ⟨k', b, hb, rfl⟩
    · cases hpart
    · cases hpart
    · cases hpart
    · cases hpart
      exact ⟨b, hb, rfl, rfl⟩
  · obtain ⟨v, hv⟩ := hfits.of_part hpart
    cases hv

theorem Sane.part_root {t : Ty} {i : Nat} (hpart : Plan.Part (.root t i) p) : i < roots.length := by
  rw [← hs.roots_eq]
  rcases hs.plan_cases hp with hp | ⟨u, -, hfits⟩
  · rcases suggested_cases hp with ⟨u, rfl⟩ | ⟨u, rfl⟩ | ⟨u, j, hj, rfl⟩ | ⟨k, b, -, rfl⟩
    · cases hpart
    · cases hpart
    · cases hpart
      exact hj
    · cases hpart
  · obtain ⟨v, hv⟩ := hfits.of_part hpart
    cases hv

theorem Sane.received : p.Received := by
  intro m hpart hm
  have htakes := hs.takes hp hpart
  rw [Method.Takes, hm] at htakes
  obtain ⟨r, args, hnil, -⟩ := htakes
  cases hnil

end

/-- In a draft that refinement reaches, the plan for a model has the type of the model, and the calls in it take
operands of the types that are declared. All models have plans, except for aliases that lead nowhere. The probe is the
same whatever a modifier without receiver would give. -/
theorem reaches_typed {targets : Store} {roots : List Handle} (hd : Reaches c { targets, roots } d) :
    (∀ h p, d.plan h = .ok p → (∃ m, targets.get? h = some m ∧ p.ty = m.term.ty) ∧
      ∀ m ps, Plan.Part (.call m ps) p → m.Takes ps) ∧
    (∀ h, (∃ p, d.plan h = .ok p) ↔
      ∃ m, targets.get? h = some m ∧ ∀ t k, m = .sameAs t k → ∃ j, targets.deref k = .ok j) ∧
    ∀ orphan name, d.probeOr orphan name = d.probe name := by
  have hs := (sane_start c targets roots).of_reaches hd
  refine ⟨fun h p hp => ⟨hs.ty_eq hp, fun m ps => hs.takes hp⟩, fun h => ?_, ?_⟩
  · rw [← exists_suggested_iff, ← hs.suggested_eq]
    constructor
    · rintro ⟨p, hp⟩
      rcases hs.plan_cases hp with hp | ⟨t, hsuggested, -⟩
      · exact ⟨p, hp⟩
      · exact ⟨_, hsuggested⟩
    · rintro ⟨p, hp⟩
      exact ⟨_, plan_of_suggested hp⟩
  · exact fun orphan => probeOr_of_received (fun hp => hs.received hp) orphan _

/-- The box in the crate is made with some number and filled with another one. -/
theorem reaches_typed_crate :
    let box : Plan := .call (.constructor "Box" [.int]) [.hole .int]
    let fill : Method := .modifier "Box" "fill" [.object "Box"] .void
    ∃ d, Reaches boxes { targets := crate, roots := [⟨1⟩] } d ∧ d.plan ⟨4⟩ = .ok (.call fill [box, box]) ∧
      fill.Takes [box, box] ∧ (Method.constructor "Box" [.int]).Takes [.hole .int] ∧
      d.probeOr (fun _ _ => .error (.endless ⟨4⟩)) "crate" = d.probe "crate" := by
  intro box fill
  have hreach := Reaches.step (c := boxes) (.step (.step (.refl (d := { targets := crate, roots := [⟨1⟩] })) rfl
    (List.mem_of_getElem? (i := 2) rfl)) rfl (List.mem_of_getElem? (i := 1) rfl)) rfl
    (List.mem_of_getElem? (i := 1) rfl)
  obtain ⟨htyped, -, hprobe⟩ := reaches_typed hreach
  obtain ⟨-, htakes⟩ := htyped ⟨4⟩ (.call fill [box, box]) rfl
  exact ⟨_, hreach, rfl, htakes _ _ .self, htakes _ _ (.operand List.mem_cons_self .self), hprobe _ _⟩

end Draft

end Symex
