import Symex.Term.Atom

/-!
# Variables and reads

A term is a variable, a constant, or a read that looks through other terms.
-/

namespace Symex

namespace Term

/-- A parameter, a local or a static field. -/
def isVariable : Term → Bool
  | .param _ _ => true
  | .localVar _ _ => true
  | .static _ => true
  | _ => false

/-- The terms that a read looks through. -/
def parts : Term → List Term
  | field b _ => [b]
  | element a i _ => [a, i]
  | length a => [a]
  | _ => []

theorem isReference_of_isArray {t : Term} (h : t.isArray = true) : t.isReference = true := by
  unfold isArray at h
  unfold isReference
  cases hty : t.ty with
  | array e => rfl
  | _ =>
    rw [hty] at h
    cases h

theorem induction_on_parts {motive : Term → Prop} (step : ∀ t, (∀ u ∈ t.parts, motive u) → motive t) (t : Term) :
    motive t := by
  induction t with
  | field b f ih =>
    apply step
    intro u hu
    rw [List.mem_singleton.mp hu]
    exact ih
  | element a i e iha ihi =>
    apply step
    intro u hu
    rcases List.mem_cons.mp hu with rfl | hu
    · exact iha
    · rw [List.mem_singleton.mp hu]
      exact ihi
  | length a ih =>
    apply step
    intro u hu
    rw [List.mem_singleton.mp hu]
    exact ih
  | _ =>
    apply step
    intro u hu
    cases hu

theorem mem_tail_of_part {t u w : Term} (hu : u ∈ t.parts) (hw : w ∈ u.subterms) : w ∈ t.subterms.tail := by
  cases t with
  | field b f =>
    rw [List.mem_singleton.mp hu] at hw
    exact hw
  | element a i e =>
    rcases List.mem_cons.mp hu with rfl | hu
    · exact List.mem_append_left _ hw
    · rw [List.mem_singleton.mp hu] at hw
      exact List.mem_append_right _ hw
  | length a =>
    rw [List.mem_singleton.mp hu] at hw
    exact hw
  | _ => cases hu

theorem mem_subterms_iff {t k : Term} : k ∈ t.subterms ↔ k = t ∨ ∃ u ∈ t.parts, k ∈ u.subterms := by
  cases t with
  | field b f => simp [subterms, parts]
  | element a i e => simp [subterms, parts]
  | length a => simp [subterms, parts]
  | _ => simp [subterms, parts]

/-- Whatever lies below a subterm lies below the whole term. -/
theorem mem_tail_of_subterm {t k u w : Term} (hk : k ∈ t.subterms) (hu : u ∈ k.parts) (hw : w ∈ u.subterms) :
    w ∈ t.subterms.tail := by
  have hwk := mem_tail_of_part hu hw
  rcases mem_subterms_iff.mp hk with rfl | ⟨c, hc, hkc⟩
  · exact hwk
  · exact mem_tail_of_part hc (subterms_trans (List.mem_of_mem_tail hwk) hkc)

theorem substitute_of_find? {r : Renaming} {t u : Term} (h : r.find? t = some u) : t.substitute r = u := by
  cases t with
  | field b f | element a i e | length a =>
    rw [substitute, h]
    rfl
  | _ =>
    show (r.find? _).getD _ = u
    rw [h]
    rfl

theorem substitute_empty (t : Term) : t.substitute {} = t := by
  induction t with
  | field b f ih => exact congrArg (field · f) ih
  | element a i e iha ihi =>
    have hparts : (element a i e).substitute {} = element (a.substitute {}) (i.substitute {}) e := rfl
    rw [hparts, iha, ihi]
  | length a ih => exact congrArg length ih
  | _ => rfl

end Term

namespace Atom

theorem substitute_empty (a : Atom) : a.substitute {} = a := by
  rw [substitute, map, Term.substitute_empty, Term.substitute_empty]

theorem mem_terms_of_subterm {a : Atom} {t u : Term} (ht : t ∈ a.terms) (hu : u ∈ t.subterms) : u ∈ a.terms := by
  rcases List.mem_append.mp ht with ht | ht
  · exact List.mem_append_left _ (Term.subterms_trans hu ht)
  · exact List.mem_append_right _ (Term.subterms_trans hu ht)

end Atom

end Symex
