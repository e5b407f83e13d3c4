/-!
# Taking one element out of a list

Each of these functions takes one element out of a list and returns it with the others, which keep their order.
What is taken and what is left are together a permutation of the list.
-/

namespace Symex

variable {α : Type}

/-- Takes the element at a position. -/
def takeAt : Nat → List α → Option (α × List α)
  | _, [] => none
  | 0, a :: as => some (a, as)
  | i + 1, a :: as => (takeAt i as).map fun r => (r.1, a :: r.2)

/-- Takes the first element with a property. -/
def takeFirst (p : α → Bool) : List α → Option (α × List α)
  | [] => none
  | a :: as => if p a then some (a, as) else (takeFirst p as).map fun r => (r.1, a :: r.2)

/-- Takes the earliest of the elements that none is below. -/
def takeLeast (below : α → α → Bool) : List α → Option (α × List α)
  | [] => none
  | a :: as =>
    match takeLeast below as with
    | none => some (a, as)
    | some (b, rest) => if below b a then some (b, a :: rest) else some (a, as)

theorem takeAt_perm {i : Nat} {as rest : List α} {a : α} (h : takeAt i as = some (a, rest)) :
    (a :: rest).Perm as := by
  induction as generalizing i rest with
  | nil => simp [takeAt] at h
  | cons b bs ih =>
    cases i with
    | zero =>
      simp only [takeAt, Option.some.injEq, Prod.mk.injEq] at h
      rw [h.1, h.2]
    | succ i =>
      simp only [takeAt, Option.map_eq_some_iff, Prod.mk.injEq, Prod.exists] at h
      obtain ⟨c, r, hc, rfl, rfl⟩ := h
      exact (List.Perm.swap b c r).trans ((ih hc).cons b)

theorem takeAt_isSome {i : Nat} {as : List α} : (takeAt i as).isSome ↔ i < as.length := by
  induction as generalizing i with
  | nil => simp [takeAt]
  | cons a as ih =>
    cases i with
    | zero => simp [takeAt]
    | succ i => simp [takeAt, ih]

theorem takeFirst_perm {p : α → Bool} {as rest : List α} {a : α} (h : takeFirst p as = some (a, rest)) :
    (a :: rest).Perm as := by
  induction as generalizing rest with
  | nil => simp [takeFirst] at h
  | cons b bs ih =>
    by_cases hb : p b
    · simp only [takeFirst, hb, if_true, Option.some.injEq, Prod.mk.injEq] at h
      rw [h.1, h.2]
    · rw [takeFirst, if_neg hb] at h
      simp only [Option.map_eq_some_iff, Prod.mk.injEq, Prod.exists] at h
      obtain ⟨c, r, hc, rfl, rfl⟩ := h
      exact (List.Perm.swap b c r).trans ((ih hc).cons b)

theorem takeFirst_isSome {p : α → Bool} {as : List α} : (takeFirst p as).isSome = as.any p := by
  induction as with
  | nil => rfl
  | cons a as ih =>
    by_cases ha : p a
    · simp [takeFirst, ha]
    · simp [takeFirst, ha, ih]

theorem takeLeast_isSome {below : α → α → Bool} {as : List α} : (takeLeast below as).isSome ↔ as ≠ [] := by
  cases as with
  | nil => simp [takeLeast]
  | cons a as =>
    simp only [takeLeast]
    split
    · simp
    · split <;> simp

theorem takeLeast_perm {below : α → α → Bool} {as rest : List α} {a : α}
    (h : takeLeast below as = some (a, rest)) : (a :: rest).Perm as := by
  induction as generalizing a rest with
  | nil => simp [takeLeast] at h
  | cons b bs ih =>
    simp only [takeLeast] at h
    split at h
    · simp only [Option.some.injEq, Prod.mk.injEq] at h
      rw [h.1, h.2]
    · rename_i c r hc
      split at h
      · simp only [Option.some.injEq, Prod.mk.injEq] at h
        obtain ⟨rfl, rfl⟩ := h
        exact (List.Perm.swap b c r).trans ((ih hc).cons b)
      · simp only [Option.some.injEq, Prod.mk.injEq] at h
        rw [h.1, h.2]

end Symex
