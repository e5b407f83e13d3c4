import Symex.Proofs.Term.Parts
import Symex.State.Memory

/-!
# Interpretations

Values for all variables and a heap before the call, and the heap that the writes of a memory make of it. The terms
of a write are read before the call.
-/

namespace Symex

/-- A place in a heap, by the values that lead to it. -/
inductive Spot where
  | field (base : Value) (field : Field)
  | element (array index : Value)
  | length (array : Value)
  deriving DecidableEq

/-- Values of parameters, locals and static fields, and a heap before the call. -/
structure Interpretation where
  env : Term → Value
  heap : Spot → Value

namespace Term

/-- The value of a term over a heap. -/
def valueIn (env : Term → Value) (heap : Spot → Value) : Term → Value
  | const v => v
  | field b f => heap (.field (b.valueIn env heap) f)
  | element a i _ => heap (.element (a.valueIn env heap) (i.valueIn env heap))
  | length a => heap (.length (a.valueIn env heap))
  | t => env t

/-- The place that a read looks at, given the values of its parts. -/
def spot (val : Term → Value) : Term → Option Spot
  | field b f => some (.field (val b) f)
  | element a i _ => some (.element (val a) (val i))
  | length a => some (.length (val a))
  | _ => none

theorem valueIn_of_isVariable {t : Term} (ht : t.isVariable = true) (env : Term → Value) (heap : Spot → Value) :
    t.valueIn env heap = env t := by
  cases t with
  | const | field | element | length => cases ht
  | _ => rfl

theorem valueIn_of_spot {env : Term → Value} {heap : Spot → Value} {t : Term} {q : Spot}
    (h : t.spot (valueIn env heap) = some q) : t.valueIn env heap = heap q := by
  cases t with
  | field | element | length =>
    rw [← Option.some.inj h]
    rfl
  | _ => cases h

theorem spot_congr {val val' : Term → Value} {t : Term} (h : ∀ u ∈ t.parts, val u = val' u) :
    t.spot val = t.spot val' := by
  cases t with
  | field b f => rw [spot, spot, h b List.mem_cons_self]
  | element a i e => rw [spot, spot, h a List.mem_cons_self, h i (List.mem_cons_of_mem _ List.mem_cons_self)]
  | length a => rw [spot, spot, h a List.mem_cons_self]
  | _ => rfl

/-- A term that looks at no place has the same value over every heap. -/
theorem valueIn_of_no_spot {env : Term → Value} {val : Term → Value} {t : Term} (h : t.spot val = none)
    (heap heap' : Spot → Value) : t.valueIn env heap = t.valueIn env heap' := by
  cases t with
  | field | element | length => cases h
  | _ => rfl

/-- A replacement by terms with the same value keeps the value. -/
theorem valueIn_substitute {env : Term → Value} {heap : Spot → Value} {r : Renaming} {t : Term}
    (hr : ∀ k ∈ t.subterms, ∀ u, r.find? k = some u → u.valueIn env heap = k.valueIn env heap) :
    (t.substitute r).valueIn env heap = t.valueIn env heap := by
  -- Either the whole term is replaced, or its parts are.
  have hhead : ∀ k u : Term, (∀ w, r.find? k = some w → w.valueIn env heap = k.valueIn env heap) →
      u.valueIn env heap = k.valueIn env heap → ((r.find? k).getD u).valueIn env heap = k.valueIn env heap := by
    intro k u hk hu
    cases hf : r.find? k with
    | none => exact hu
    | some w => exact hk w hf
  induction t with
  | field b f ih =>
    have hb := ih fun k hk => hr k (List.mem_cons_of_mem _ hk)
    apply hhead _ _ (hr _ List.mem_cons_self)
    rw [valueIn, valueIn, hb]
  | element a i e iha ihi =>
    have ha := iha fun k hk => hr k (List.mem_cons_of_mem _ (List.mem_append_left _ hk))
    have hi := ihi fun k hk => hr k (List.mem_cons_of_mem _ (List.mem_append_right _ hk))
    apply hhead _ _ (hr _ List.mem_cons_self)
    rw [valueIn, valueIn, ha, hi]
  | length a ih =>
    have ha := ih fun k hk => hr k (List.mem_cons_of_mem _ hk)
    apply hhead _ _ (hr _ List.mem_cons_self)
    rw [valueIn, valueIn, ha]
  | _ => exact hhead _ _ (hr _ List.mem_cons_self) rfl

end Term

/-- An atom is true over a heap. -/
def Atom.TrueIn (env : Term → Value) (heap : Spot → Value) (a : Atom) : Prop :=
  a.relation.holds (a.lhs.valueIn env heap) (a.rhs.valueIn env heap) = true

instance (env : Term → Value) (heap : Spot → Value) (a : Atom) : Decidable (a.TrueIn env heap) :=
  inferInstanceAs (Decidable (_ = true))

theorem Atom.trueIn_substitute {env : Term → Value} {heap : Spot → Value} {r : Term.Renaming} {a : Atom}
    (hr : ∀ k ∈ a.terms, ∀ u, r.find? k = some u → u.valueIn env heap = k.valueIn env heap) :
    (a.substitute r).TrueIn env heap ↔ a.TrueIn env heap := by
  have hl := Term.valueIn_substitute fun k hk => hr k (List.mem_append_left _ hk)
  have hrhs := Term.valueIn_substitute fun k hk => hr k (List.mem_append_right _ hk)
  rw [TrueIn, TrueIn, ← hl, ← hrhs]
  rfl

namespace Interpretation

variable (I : Interpretation)

/-- The value of a term over the heap before the call. -/
def eval (t : Term) : Value := t.valueIn I.env I.heap

/-- The place that a write changes. -/
def spot : Write → Spot
  | .field b f _ => .field (I.eval b) f
  | .element a i _ => .element (I.eval a) (I.eval i)

/-- One write. -/
def perform (heap : Spot → Value) (w : Write) : Spot → Value :=
  fun q => if q = I.spot w then I.eval w.value else heap q

/-- The heap after the call. -/
def heapAfter (m : Memory) : Spot → Value := m.writes.foldl I.perform I.heap

/-- The value of a term over the heap after the call. -/
def after (m : Memory) (t : Term) : Value := t.valueIn I.env (I.heapAfter m)

theorem spot_location (w : Write) : w.location.spot I.eval = some (I.spot w) := by
  cases w with
  | field b f v => rfl
  | element a i v => rfl

/-- The last of the writes that `select` picks decides, if it picks the writes to the place. -/
theorem heapAfter_of_select {m : Memory} {select : Write → Option Term} {q : Spot}
    (hs : ∀ w ∈ m.writes, select w = if q = I.spot w then some w.value else none) :
    I.heapAfter m q = ((m.writes.reverse.findSome? select).map I.eval).getD (I.heap q) := by
  -- The latest write is looked at first, so the induction is on the writes in reverse.
  rw [heapAfter, ← List.foldr_reverse]
  have hr : ∀ w ∈ m.writes.reverse, select w = if q = I.spot w then some w.value else none := by
    intro w hw
    exact hs w (List.mem_reverse.mp hw)
  generalize m.writes.reverse = rs at hr ⊢
  induction rs with
  | nil => rfl
  | cons w rs ih =>
    rw [List.foldr_cons, List.findSome?_cons, hr w List.mem_cons_self, perform]
    by_cases hq : q = I.spot w
    · rw [if_pos hq, if_pos hq]
      rfl
    · rw [if_neg hq, if_neg hq]
      exact ih fun w hw => hr w (List.mem_cons_of_mem _ hw)

theorem heapAfter_of_forall_ne {m : Memory} {q : Spot} (h : ∀ w ∈ m.writes, I.spot w ≠ q) :
    I.heapAfter m q = I.heap q := by
  have hlast : I.heapAfter m q = ((m.writes.reverse.findSome? fun _ => none).map I.eval).getD (I.heap q) := by
    refine I.heapAfter_of_select ?_
    intro w hw
    rw [if_neg (Ne.symm (h w hw))]
  rw [hlast, List.findSome?_eq_none_iff.mpr fun _ _ => rfl]
  rfl

/-- A term keeps its value if its parts do and its place is not written. -/
theorem after_eq_eval {m : Memory} {t : Term} (hparts : ∀ u ∈ t.parts, I.after m u = I.eval u)
    (hfree : ∀ w ∈ m.writes, t.spot I.eval ≠ some (I.spot w)) : I.after m t = I.eval t := by
  have hspot : t.spot (I.after m) = t.spot I.eval := Term.spot_congr hparts
  cases hq : t.spot I.eval with
  | none => exact Term.valueIn_of_no_spot hq _ _
  | some q =>
    rw [hq] at hspot
    calc
      I.after m t = I.heapAfter m q := Term.valueIn_of_spot hspot
      _ = I.heap q := I.heapAfter_of_forall_ne fun w hw he => hfree w hw (he ▸ hq)
      _ = I.eval t := (Term.valueIn_of_spot hq).symm

end Interpretation

end Symex
