import Mathlib.Algebra.Order.BigOperators.Group.List
import Mathlib.Algebra.Order.Ring.Nat
import Symex.Plan.Draft
import Symex.Proofs.Data.Outcome

/-!
# The shape of plans

What refinement makes of a hole: calls of methods of the catalog whose operands are plans of the types that the
method takes. Each refinement closes a hole or trades it for a call, and a plan without open holes is not refined.
-/

namespace Symex

/-- The types of the operands of a call, the receiver first if there is one. -/
def Method.operands (m : Method) : List Ty := if m.kind = .modifier then m.produced :: m.params else m.params

/-- At least as many as the operands of any method. -/
def Catalog.width (c : Catalog) : Nat := (c.methods.map fun m => m.operands.length).sum

theorem Catalog.length_operands_le {c : Catalog} {m : Method} (hm : m ∈ c.methods) :
    m.operands.length ≤ c.width :=
  List.le_sum_of_mem (List.mem_map_of_mem hm)

/-- The methods that give a value of a type: constructors and modifiers of its class, and factories of the type. -/
def Catalog.Lists (c : Catalog) (t : Ty) (m : Method) : Prop :=
  m ∈ c.methods ∧ ∃ name, t = .object name ∧
    match m.kind with
    | .constructor => m.owner = name
    | .factory => m.result = t
    | .modifier => m.owner = name

theorem Catalog.mem_calls_iff {c : Catalog} {t : Ty} {q : Plan} :
    q ∈ c.calls t ↔ ∃ m, c.Lists t m ∧ q = .call m (m.operands.map .hole) := by
  constructor
  · intro hq
    unfold Catalog.calls at hq
    cases t with
    | object name =>
      simp only [Ty.class?, List.mem_append, List.mem_map, List.mem_filter, decide_eq_true_eq] at hq
      rcases hq with (⟨m, ⟨hm, hk, ho⟩, rfl⟩ | ⟨m, ⟨hm, hk, ho⟩, rfl⟩) | ⟨m, ⟨hm, hk, ho⟩, rfl⟩
      · exact ⟨m, ⟨hm, name, rfl, by simp [hk, ho]⟩, by simp [Catalog.opened, Method.operands, hk]⟩
      · exact ⟨m, ⟨hm, name, rfl, by simp [hk, ho]⟩, by simp [Catalog.opened, Method.operands, hk]⟩
      · exact ⟨m, ⟨hm, name, rfl, by simp [hk, ho]⟩,
          by simp [Catalog.openedOn, Method.operands, Method.produced, hk, ho]⟩
    | _ => simp [Ty.class?] at hq
  · rintro ⟨m, ⟨hm, name, rfl, hlist⟩, rfl⟩
    simp only [Catalog.calls, Ty.class?, List.mem_append, List.mem_map, List.mem_filter, decide_eq_true_eq]
    cases hk : m.kind with
    | constructor =>
      rw [hk] at hlist
      exact Or.inl (Or.inl ⟨m, ⟨hm, hk, hlist⟩, by simp [Catalog.opened, Method.operands, hk]⟩)
    | factory =>
      rw [hk] at hlist
      exact Or.inl (Or.inr ⟨m, ⟨hm, hk, hlist⟩, by simp [Catalog.opened, Method.operands, hk]⟩)
    | modifier =>
      rw [hk] at hlist
      have hlist : m.owner = name := hlist
      exact Or.inr ⟨m, ⟨hm, hk, hlist⟩, by simp [Catalog.openedOn, Method.operands, Method.produced, hk, hlist]⟩

theorem Catalog.Lists.produced_eq {c : Catalog} {t : Ty} {m : Method} (h : c.Lists t m) : m.produced = t := by
  obtain ⟨-, name, rfl, hlist⟩ := h
  unfold Method.produced
  cases hk : m.kind <;> simp_all

theorem Catalog.Lists.not_primitive {c : Catalog} {t : Ty} {m : Method} (h : c.Lists t m) : t.isPrimitive = false := by
  obtain ⟨-, name, rfl, -⟩ := h
  rfl

theorem Catalog.mem_calls {c : Catalog} {t : Ty} {q : Plan} (hq : q ∈ c.calls t) :
    ∃ m ∈ c.methods, m.produced = t ∧ t.isPrimitive = false ∧ q = .call m (m.operands.map .hole) := by
  obtain ⟨m, hm, rfl⟩ := Catalog.mem_calls_iff.mp hq
  exact ⟨m, hm.1, hm.produced_eq, hm.not_primitive, rfl⟩

/-- At least as many as the ways to fill a hole. -/
def Catalog.breadth (c : Catalog) : Nat := 3 * c.methods.length + 1

theorem Catalog.length_calls_le (c : Catalog) (t : Ty) : (c.calls t).length + 1 ≤ c.breadth := by
  unfold Catalog.calls Catalog.breadth
  split
  · simp
  next name _ =>
    simp only [List.length_append, List.length_map]
    have h₁ := List.length_filter_le (fun m : Method => decide (m.kind = .constructor ∧ m.owner = name)) c.methods
    have h₂ := List.length_filter_le (fun m : Method => decide (m.kind = .factory ∧ m.result = t)) c.methods
    have h₃ := List.length_filter_le (fun m : Method => decide (m.kind = .modifier ∧ m.owner = name)) c.methods
    omega

namespace Plan

mutual

/-- The number of calls in a plan. -/
def count : Plan → Nat
  | call _ ps => 1 + countAll ps
  | null _ => 0
  | hole _ => 0
  | container .. => 0
  | root .. => 0

def countAll : List Plan → Nat
  | [] => 0
  | p :: ps => p.count + countAll ps

end

mutual

/-- The number of open holes in a plan. -/
def holes : Plan → Nat
  | hole t => if t.isPrimitive then 0 else 1
  | call _ ps => holesAll ps
  | null _ => 0
  | container .. => 0
  | root .. => 0

def holesAll : List Plan → Nat
  | [] => 0
  | p :: ps => p.holes + holesAll ps

end

mutual

/-- Whether there is no container in a plan. -/
def isFlat : Plan → Bool
  | container .. => false
  | call _ ps => areFlat ps
  | null _ => true
  | hole _ => true
  | root .. => true

def areFlat : List Plan → Bool
  | [] => true
  | p :: ps => p.isFlat && areFlat ps

end

/-! ### Flat plans -/

mutual

theorem callsVia_of_flat (inside : Handle → Except Fault Nat) :
    ∀ p : Plan, p.isFlat = true → p.callsVia inside = .ok p.count
  | null _, _ => rfl
  | hole _, _ => rfl
  | root .., _ => rfl
  | container .., h => by cases h
  | call _ ps, h => by
    rw [callsVia, callsAllVia_of_flat inside ps h]
    rfl

theorem callsAllVia_of_flat (inside : Handle → Except Fault Nat) :
    ∀ ps : List Plan, areFlat ps = true → callsAllVia inside ps = .ok (countAll ps)
  | [], _ => rfl
  | p :: ps, h => by
    have hp := Bool.and_eq_true_iff.mp h
    rw [callsAllVia, callsVia_of_flat inside p hp.1, callsAllVia_of_flat inside ps hp.2]
    rfl

end

mutual

theorem isDefinedVia_of_flat (inside : Handle → Except Fault Bool) :
    ∀ p : Plan, p.isFlat = true → p.isDefinedVia inside = .ok (p.holes == 0)
  | null _, _ => rfl
  | hole t, _ => by cases h : t.isPrimitive <;> simp [isDefinedVia, holes, h]
  | root .., _ => rfl
  | container .., h => by cases h
  | call _ ps, h => by rw [isDefinedVia, areDefinedVia_of_flat inside ps h, holes]

theorem areDefinedVia_of_flat (inside : Handle → Except Fault Bool) :
    ∀ ps : List Plan, areFlat ps = true → areDefinedVia inside ps = .ok (holesAll ps == 0)
  | [], _ => rfl
  | p :: ps, h => by
    have hp := Bool.and_eq_true_iff.mp h
    rw [areDefinedVia, isDefinedVia_of_flat inside p hp.1, areDefinedVia_of_flat inside ps hp.2, holesAll]
    cases p.holes with
    | zero => simp [bind, Except.bind]
    | succ n => simp [bind, Except.bind, pure, Except.pure]

end

/-! ### Holes -/

mutual

theorem refine_eq_nil_iff (c : Catalog) : ∀ p : Plan, p.refine c = [] ↔ p.holes = 0
  | null _ => by simp [refine, holes]
  | hole t => by cases h : t.isPrimitive <;> simp [refine, holes, h]
  | root .. => by simp [refine, holes]
  | container .. => by simp [refine, holes]
  | call _ ps => by rw [refine, holes, List.map_eq_nil_iff, refineFirst_eq_nil_iff c ps]

theorem refineFirst_eq_nil_iff (c : Catalog) : ∀ ps : List Plan, refineFirst c ps = [] ↔ holesAll ps = 0
  | [] => by simp [refineFirst, holesAll]
  | p :: ps => by
    have hp := refine_eq_nil_iff c p
    have hps := refineFirst_eq_nil_iff c ps
    rw [refineFirst, holesAll, Nat.add_eq_zero_iff, ← hp, ← hps]
    split
    next h => simp [h]
    next h =>
      have hne : p.refine c ≠ [] := h
      simp [hne]

end

mutual

theorem length_refine_le (c : Catalog) : ∀ p : Plan, (p.refine c).length ≤ c.breadth
  | null _ => by simp [refine]
  | hole t => by
    rw [refine]
    split
    · simp
    · exact c.length_calls_le t
  | root .. => by simp [refine]
  | container .. => by simp [refine]
  | call _ ps => by
    rw [refine, List.length_map]
    exact length_refineFirst_le c ps

theorem length_refineFirst_le (c : Catalog) : ∀ ps : List Plan, (refineFirst c ps).length ≤ c.breadth
  | [] => by simp [refineFirst]
  | p :: ps => by
    rw [refineFirst]
    split
    · rw [List.length_map]
      exact length_refineFirst_le c ps
    · rw [List.length_map]
      exact length_refine_le c p

end

/-! ### What refinement makes of a hole -/

/-- Plans of a type, made by refining a hole of it. -/
inductive Fits (c : Catalog) : Ty → Plan → Prop
  | null {t : Ty} (ht : t.isPrimitive = false) : Fits c t (null t)
  | hole (t : Ty) : Fits c t (hole t)
  | call {m : Method} {ps : List Plan} (hm : m ∈ c.methods) (ht : m.produced.isPrimitive = false)
      (hlen : m.operands.length = ps.length) (hps : ∀ x ∈ m.operands.zip ps, Fits c x.1 x.2) :
      Fits c m.produced (call m ps)

theorem Fits.mono {c c' : Catalog} (h : ∀ m ∈ c.methods, m ∈ c'.methods) {t : Ty} {p : Plan} (hp : Fits c t p) :
    Fits c' t p := by
  induction hp with
  | null ht => exact .null ht
  | hole t => exact .hole t
  | call hm ht hlen _ ih => exact .call (h _ hm) ht hlen ih

theorem fits_opened {c : Catalog} {m : Method} (hm : m ∈ c.methods) (ht : m.produced.isPrimitive = false) :
    Fits c m.produced (call m (m.operands.map hole)) := by
  refine .call hm ht (by simp) ?_
  intro x hx
  obtain ⟨u, hu⟩ : ∃ u, x = (u, hole u) := by
    rw [List.zip_map_right, List.mem_map] at hx
    obtain ⟨⟨a, b⟩, hab, rfl⟩ := hx
    have : a = b := by
      obtain ⟨i, _, hi⟩ := List.mem_iff_getElem.mp hab
      simp only [List.getElem_zip, Prod.mk.injEq] at hi
      exact hi.1.symm.trans hi.2
    exact ⟨a, by rw [← this]; rfl⟩
  rw [hu]
  exact .hole u

theorem holesAll_map_hole_le (ts : List Ty) : holesAll (ts.map hole) ≤ ts.length := by
  induction ts with
  | nil => exact Nat.le_refl _
  | cons t ts ih =>
    have ht : (hole t).holes ≤ 1 := by
      rw [holes]
      split <;> omega
    simp only [List.map_cons, holesAll, List.length_cons]
    omega

theorem countAll_map_hole (ts : List Ty) : countAll (ts.map hole) = 0 := by
  induction ts with
  | nil => rfl
  | cons t ts ih => simp [countAll, count, ih]

/-- A refinement closes a hole, or makes a call out of it. -/
def Refines (c : Catalog) (calls calls' holes holes' : Nat) : Prop :=
  (calls' = calls ∧ holes' + 1 = holes) ∨ (calls' = calls + 1 ∧ holes' + 1 ≤ holes + c.width)

theorem Refines.add {c : Catalog} {k k' o o' : Nat} (h : Refines c k k' o o') (a b : Nat) :
    Refines c (a + k) (a + k') (b + o) (b + o') := by
  rcases h with h | h
  · exact Or.inl ⟨by omega, by omega⟩
  · exact Or.inr ⟨by omega, by omega⟩

mutual

theorem refines_of_mem (c : Catalog) :
    ∀ p : Plan, ∀ q ∈ p.refine c, Refines c p.count q.count p.holes q.holes
  | null _, q, hq => by simp [refine] at hq
  | root .., q, hq => by simp [refine] at hq
  | container .., q, hq => by simp [refine] at hq
  | hole t, q, hq => by
    rw [refine] at hq
    split at hq
    · cases hq
    next ht =>
      have hopen : (hole t).holes = 1 := by
        rw [holes, if_neg ht]
      rcases List.mem_cons.mp hq with rfl | hq
      · exact Or.inl ⟨rfl, by rw [hopen]; rfl⟩
      · obtain ⟨m, hm, -, -, rfl⟩ := Catalog.mem_calls hq
        have hle := holesAll_map_hole_le m.operands
        have hw := Catalog.length_operands_le hm
        refine Or.inr ⟨?_, ?_⟩
        · simp only [count, countAll_map_hole]
        · rw [hopen]
          simp only [holes]
          omega
  | call m ps, q, hq => by
    rw [refine, List.mem_map] at hq
    obtain ⟨qs, hqs, rfl⟩ := hq
    have h := refinesAll_of_mem c ps qs hqs
    simpa [count, holes] using h.add 1 0

theorem refinesAll_of_mem (c : Catalog) :
    ∀ ps : List Plan, ∀ qs ∈ refineFirst c ps,
      Refines c (countAll ps) (countAll qs) (holesAll ps) (holesAll qs)
  | [], qs, hq => by simp [refineFirst] at hq
  | p :: ps, qs, hq => by
    rw [refineFirst] at hq
    split at hq
    · obtain ⟨rs, hrs, rfl⟩ := List.mem_map.mp hq
      exact (refinesAll_of_mem c ps rs hrs).add p.count p.holes
    · obtain ⟨r, hr, rfl⟩ := List.mem_map.mp hq
      have h := (refines_of_mem c p r hr).add (countAll ps) (holesAll ps)
      simp only [countAll, holesAll]
      rw [Nat.add_comm p.count, Nat.add_comm r.count, Nat.add_comm p.holes, Nat.add_comm r.holes]
      exact h

end

/-- What a refinement of a list of plans does: one of them is refined. -/
theorem mem_refineFirst {c : Catalog} {ps qs : List Plan} (h : qs ∈ refineFirst c ps) :
    ∃ as p q bs, ps = as ++ p :: bs ∧ qs = as ++ q :: bs ∧ q ∈ p.refine c := by
  induction ps generalizing qs with
  | nil => simp [refineFirst] at h
  | cons p ps ih =>
    rw [refineFirst] at h
    split at h
    · obtain ⟨rs, hrs, rfl⟩ := List.mem_map.mp h
      obtain ⟨as, x, y, bs, rfl, rfl, hy⟩ := ih hrs
      exact ⟨p :: as, x, y, bs, rfl, rfl, hy⟩
    · obtain ⟨q, hq, rfl⟩ := List.mem_map.mp h
      exact ⟨[], p, q, ps, rfl, rfl, hq⟩

theorem Fits.refine {c : Catalog} {t : Ty} {p q : Plan} (hp : Fits c t p) (hq : q ∈ p.refine c) : Fits c t q := by
  induction hp generalizing q with
  | null _ => simp [Plan.refine] at hq
  | hole t =>
    rw [Plan.refine] at hq
    split at hq
    · cases hq
    next ht =>
      rcases List.mem_cons.mp hq with rfl | hq
      · exact .null (Bool.eq_false_iff.mpr ht)
      · obtain ⟨m, hm, rfl, hprim, rfl⟩ := Catalog.mem_calls hq
        exact fits_opened hm hprim
  | @call m ps hm ht hlen hps ih =>
    rw [Plan.refine, List.mem_map] at hq
    obtain ⟨qs, hqs, rfl⟩ := hq
    obtain ⟨as, x, y, bs, rfl, rfl, hy⟩ := mem_refineFirst hqs
    refine .call hm ht (by simpa using hlen) ?_
    -- Only the operand at the place of `x` has changed.
    have hlen' : m.operands.length = as.length + (bs.length + 1) := by simpa using hlen
    obtain ⟨us, u, vs, hop, hus⟩ : ∃ us u vs, m.operands = us ++ u :: vs ∧ us.length = as.length := by
      have hlt : as.length < m.operands.length := by omega
      exact ⟨m.operands.take as.length, m.operands[as.length], m.operands.drop (as.length + 1),
        by rw [List.getElem_cons_drop, List.take_append_drop], by simp; omega⟩
    rw [hop, List.zip_append hus, List.zip_cons_cons] at hps ih ⊢
    intro z hz
    rcases List.mem_append.mp hz with hz | hz
    · exact hps z (List.mem_append_left _ hz)
    · rcases List.mem_cons.mp hz with rfl | hz
      · exact ih (u, x) (List.mem_append_right _ List.mem_cons_self) hy
      · exact hps z (List.mem_append_right _ (List.mem_cons_of_mem _ hz))

theorem areFlat_of_forall {ps : List Plan} (h : ∀ p ∈ ps, p.isFlat = true) : areFlat ps = true := by
  induction ps with
  | nil => rfl
  | cons p ps ih =>
    rw [areFlat, h p List.mem_cons_self, ih fun q hq => h q (List.mem_cons_of_mem _ hq)]
    rfl

theorem Fits.isFlat {c : Catalog} {t : Ty} {p : Plan} (hp : Fits c t p) : p.isFlat = true := by
  induction hp with
  | null _ => rfl
  | hole _ => rfl
  | @call m ps _ _ hlen _ ih =>
    apply areFlat_of_forall
    intro p hpm
    obtain ⟨i, hi, rfl⟩ := List.mem_iff_getElem.mp hpm
    refine ih (m.operands[i], ps[i]) ?_
    exact List.mem_iff_getElem.mpr ⟨i, by simp; omega, by simp⟩

end Plan

end Symex
