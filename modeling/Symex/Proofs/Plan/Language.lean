import Mathlib.Data.List.Forall2
import Mathlib.Logic.Relation
import Symex.Proofs.Plan.Shape

/-!
# The plans that refinement makes of a hole

A closed plan for a type is null, a call of a method that is listed for the type with closed plans for all operands,
or the hole itself if the type is primitive. Refinement always works at the first open hole, so it makes the operands
of a call from left to right. It makes all closed plans of the type of a hole, and ends nowhere else.
-/

namespace Symex

namespace Plan

/-- Plans of a type that leave nothing open, where null stands for values of the nullable types. -/
inductive Closed (nullable : Ty → Prop) (c : Catalog) : Ty → Plan → Prop
  | hole {t : Ty} (ht : t.isPrimitive = true) : Closed nullable c t (hole t)
  | null {t : Ty} (ht : nullable t) : Closed nullable c t (null t)
  | call {t : Ty} {m : Method} {ps : List Plan} (hm : c.Lists t m) (hlen : m.operands.length = ps.length)
      (hps : ∀ x ∈ m.operands.zip ps, Closed nullable c x.1 x.2) : Closed nullable c t (call m ps)

/-- Null is no value of a primitive type. -/
def Nullable (t : Ty) : Prop := t.isPrimitive = false

/-- Refinement of a plan, step after step. -/
def Derives (c : Catalog) : Plan → Plan → Prop := Relation.ReflTransGen fun p q => q ∈ p.refine c

def DerivesAll (c : Catalog) : List Plan → List Plan → Prop :=
  Relation.ReflTransGen fun ps qs => qs ∈ refineFirst c ps

variable {c : Catalog} {t : Ty} {m : Method} {p q : Plan} {ps qs : List Plan}

/-! ### From the hole to closed plans -/

theorem mem_refine_call (h : qs ∈ refineFirst c ps) : call m qs ∈ (call m ps).refine c := by
  rw [refine]
  exact List.mem_map_of_mem h

theorem mem_refineFirst_head (h : q ∈ p.refine c) : q :: ps ∈ refineFirst c (p :: ps) := by
  rw [refineFirst]
  split
  next hnil =>
    rw [hnil] at h
    cases h
  next => exact List.mem_map.mpr ⟨q, h, rfl⟩

theorem mem_refineFirst_tail (hp : p.refine c = []) (h : qs ∈ refineFirst c ps) :
    p :: qs ∈ refineFirst c (p :: ps) := by
  rw [refineFirst, hp]
  exact List.mem_map_of_mem h

theorem Derives.call (h : DerivesAll c ps qs) : Derives c (call m ps) (call m qs) :=
  h.lift (Plan.call m) fun _ _ => mem_refine_call

/-- The plans of a list are refined one after the other, each to its end. -/
theorem DerivesAll.of_forall₂ (h : List.Forall₂ (fun p q => Derives c p q ∧ q.refine c = []) ps qs) :
    DerivesAll c ps qs := by
  induction h with
  | nil => exact .refl
  | @cons p q ps qs hpq _ ih =>
    have hhead : DerivesAll c (p :: ps) (q :: ps) := hpq.1.lift (· :: ps) fun _ _ => mem_refineFirst_head
    have htail : DerivesAll c (q :: ps) (q :: qs) := ih.lift (q :: ·) fun _ _ => mem_refineFirst_tail hpq.2
    exact hhead.trans htail

theorem refineFirst_eq_nil (h : ∀ p ∈ ps, p.refine c = []) : refineFirst c ps = [] := by
  induction ps with
  | nil => rfl
  | cons p ps ih =>
    rw [refineFirst, h p List.mem_cons_self, ih fun q hq => h q (List.mem_cons_of_mem _ hq)]
    rfl

theorem Closed.derives (h : Closed Nullable c t p) : Derives c (Plan.hole t) p ∧ p.refine c = [] := by
  induction h with
  | hole ht => exact ⟨.refl, by simp [refine, ht]⟩
  | null ht =>
    have ht : _ = false := ht
    refine ⟨.single ?_, rfl⟩
    simp [refine, ht]
  | @call t m ps hm hlen _ ih =>
    have hall : List.Forall₂ (fun p q => Derives c p q ∧ q.refine c = []) (m.operands.map Plan.hole) ps := by
      rw [List.forall₂_map_left_iff]
      exact List.forall₂_iff_zip.mpr ⟨hlen, fun hx => ih _ hx⟩
    have hopen : Plan.call m (m.operands.map Plan.hole) ∈ (Plan.hole t).refine c := by
      rw [refine, hm.not_primitive]
      exact List.mem_cons_of_mem _ (Catalog.mem_calls_iff.mpr ⟨m, hm, rfl⟩)
    refine ⟨.head hopen (Derives.call (.of_forall₂ hall)), ?_⟩
    rw [refine, refineFirst_eq_nil, List.map_nil]
    intro p hp
    obtain ⟨i, hi, rfl⟩ := List.mem_iff_getElem.mp hp
    exact (hall.get (by simpa [hlen] using hi) hi).2

/-! ### What a hole ends at -/

/-- What is made of a call is a call of the same method. -/
theorem exists_of_derives_call (h : Derives c (call m ps) p) : ∃ qs, p = call m qs ∧ DerivesAll c ps qs := by
  induction h with
  | refl => exact ⟨ps, rfl, .refl⟩
  | tail _ hstep ih =>
    obtain ⟨qs, rfl, hqs⟩ := ih
    rw [refine, List.mem_map] at hstep
    obtain ⟨rs, hrs, rfl⟩ := hstep
    exact ⟨rs, rfl, hqs.tail hrs⟩

theorem forall₂_refineFirst {rs : List Plan} (h : List.Forall₂ (Derives c) ps qs) (hrs : rs ∈ refineFirst c qs) :
    List.Forall₂ (Derives c) ps rs := by
  induction h generalizing rs with
  | nil => cases hrs
  | cons hpq hall ih =>
    rw [refineFirst] at hrs
    split at hrs
    · obtain ⟨us, hus, rfl⟩ := List.mem_map.mp hrs
      exact .cons hpq (ih hus)
    · obtain ⟨u, hu, rfl⟩ := List.mem_map.mp hrs
      exact .cons (hpq.tail hu) hall

theorem DerivesAll.forall₂ (h : DerivesAll c ps qs) : List.Forall₂ (Derives c) ps qs := by
  induction h with
  | refl => exact List.forall₂_same.mpr fun _ _ => .refl
  | tail _ hstep ih => exact forall₂_refineFirst ih hstep

/-- What a hole can become: it stays, or becomes null, or becomes a call whose operands come from holes. -/
theorem derives_hole_cases (h : Derives c (hole t) p) :
    p = hole t ∨ t.isPrimitive = false ∧
      (p = null t ∨ ∃ m qs, c.Lists t m ∧ p = call m qs ∧ List.Forall₂ (Derives c) (m.operands.map hole) qs) := by
  rcases h.cases_head with rfl | ⟨q, hq, hqp⟩
  · exact Or.inl rfl
  rw [refine] at hq
  split at hq
  · cases hq
  next ht =>
    refine Or.inr ⟨Bool.eq_false_iff.mpr ht, ?_⟩
    rcases List.mem_cons.mp hq with rfl | hq
    · rcases hqp.cases_head with rfl | ⟨r, hr, -⟩
      · exact Or.inl rfl
      · cases hr
    · obtain ⟨m, hm, rfl⟩ := Catalog.mem_calls_iff.mp hq
      obtain ⟨qs, rfl, hqs⟩ := exists_of_derives_call hqp
      exact Or.inr ⟨m, qs, hm, rfl, hqs.forall₂⟩

mutual

theorem closed_of_derives : ∀ {p : Plan} {t : Ty}, Derives c (hole t) p → p.holes = 0 → Closed Nullable c t p
  | p, t, h, hp => by
    rcases derives_hole_cases h with rfl | ⟨ht, rfl | ⟨m, qs, hm, rfl, hqs⟩⟩
    · rw [holes] at hp
      exact .hole (by simpa using hp)
    · exact .null ht
    · have hall := closedAll_of_derives (List.forall₂_map_left_iff.mp hqs) hp
      obtain ⟨hlen, hzip⟩ := List.forall₂_iff_zip.mp hall
      exact .call hm hlen fun x hx => hzip hx

theorem closedAll_of_derives : ∀ {ts : List Ty} {qs : List Plan},
    List.Forall₂ (fun t q => Derives c (hole t) q) ts qs → holesAll qs = 0 → List.Forall₂ (Closed Nullable c) ts qs
  | [], [], _, _ => .nil
  | t :: ts, q :: qs, h, hq => by
    obtain ⟨hhead, htail⟩ := List.forall₂_cons.mp h
    rw [holesAll, Nat.add_eq_zero_iff] at hq
    exact .cons (closed_of_derives hhead hq.1) (closedAll_of_derives htail hq.2)

end

/-- Refinement of a hole ends exactly at the closed plans of its type. -/
theorem closed_iff_derives : Closed Nullable c t p ↔ Derives c (hole t) p ∧ p.holes = 0 := by
  constructor
  · intro h
    exact ⟨h.derives.1, (refine_eq_nil_iff c p).mp h.derives.2⟩
  · rintro ⟨h, hp⟩
    exact closed_of_derives h hp

end Plan

end Symex
