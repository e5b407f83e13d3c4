import Symex.Proofs.Term.Parts

/-!
# Terms under one name

Several terms may name one thing. A term is renamed from the outside in: where a name stands, the new name takes its
place, and all else is kept. Replacing terms by a table of names renames, if the table has the names that occur.
-/

namespace Symex

namespace Term

/-- The second term is the first one with every outermost term that is `named` replaced by `x`. -/
inductive Renamed (named : Term → Prop) (x : Term) : Term → Term → Prop
  | name {t : Term} (ht : named t) : Renamed named x t x
  | leaf {t : Term} (ht : ¬ named t) (hp : t.parts = []) : Renamed named x t t
  | field {b b' : Term} {f : Symex.Field} (ht : ¬ named (.field b f)) (hb : Renamed named x b b') :
    Renamed named x (.field b f) (.field b' f)
  | element {a a' i i' : Term} {e : Ty} (ht : ¬ named (.element a i e)) (ha : Renamed named x a a')
    (hi : Renamed named x i i') : Renamed named x (.element a i e) (.element a' i' e)
  | length {a a' : Term} (ht : ¬ named (.length a)) (ha : Renamed named x a a') :
    Renamed named x (.length a) (.length a')

theorem Renamed.unique {named : Term → Prop} {x t u w : Term} (hu : Renamed named x t u) (hw : Renamed named x t w) :
    u = w := by
  induction hu generalizing w with
  | name ht =>
    cases hw with
    | name => rfl
    | _ => contradiction
  | leaf ht hp =>
    cases hw with
    | name => contradiction
    | leaf => rfl
    | _ => cases hp
  | field ht _ ih =>
    cases hw with
    | name => contradiction
    | leaf _ hp => cases hp
    | field _ hb => rw [ih hb]
  | element ht _ _ iha ihi =>
    cases hw with
    | name => contradiction
    | leaf _ hp => cases hp
    | element _ ha hi => rw [iha ha, ihi hi]
  | length ht _ ih =>
    cases hw with
    | name => contradiction
    | leaf _ hp => cases hp
    | length _ ha => rw [ih ha]

theorem exists_renamed (named : Term → Prop) (x t : Term) : ∃ u, Renamed named x t u := by
  have hcases : ∀ {t : Term}, (¬ named t → ∃ u, Renamed named x t u) → ∃ u, Renamed named x t u := by
    intro t h
    by_cases ht : named t
    · exact ⟨x, .name ht⟩
    · exact h ht
  induction t with
  | field b f ih =>
    obtain ⟨b', hb⟩ := ih
    exact hcases fun ht => ⟨_, .field ht hb⟩
  | element a i e iha ihi =>
    obtain ⟨a', ha⟩ := iha
    obtain ⟨i', hi⟩ := ihi
    exact hcases fun ht => ⟨_, .element ht ha hi⟩
  | length a ih =>
    obtain ⟨a', ha⟩ := ih
    exact hcases fun ht => ⟨_, .length ht ha⟩
  | _ => exact hcases fun ht => ⟨_, .leaf ht rfl⟩

variable {r : Renaming} {x t u : Term}

theorem substitute_leaf (h : r.find? t = none) (hp : t.parts = []) : t.substitute r = t := by
  cases t with
  | field | element | length => cases hp
  | _ => simp [substitute, h]

theorem renamed_substitute {named : Term → Prop}
    (h : ∀ k ∈ t.subterms, named k ∧ k.substitute r = x ∨ ¬ named k ∧ r.find? k = none) :
    Renamed named x t (t.substitute r) := by
  induction t with
  | field b f ih =>
    rcases h _ (self_mem_subterms _) with ⟨ht, he⟩ | ⟨ht, hnone⟩
    · exact he ▸ .name ht
    · rw [substitute, hnone]
      exact .field ht (ih fun k hk => h k (List.mem_cons_of_mem _ hk))
  | element a i e iha ihi =>
    rcases h _ (self_mem_subterms _) with ⟨ht, he⟩ | ⟨ht, hnone⟩
    · exact he ▸ .name ht
    · rw [substitute, hnone]
      exact .element ht (iha fun k hk => h k (List.mem_cons_of_mem _ (List.mem_append_left _ hk)))
        (ihi fun k hk => h k (List.mem_cons_of_mem _ (List.mem_append_right _ hk)))
  | length a ih =>
    rcases h _ (self_mem_subterms _) with ⟨ht, he⟩ | ⟨ht, hnone⟩
    · exact he ▸ .name ht
    · rw [substitute, hnone]
      exact .length ht (ih fun k hk => h k (List.mem_cons_of_mem _ hk))
  | _ =>
    rcases h _ (self_mem_subterms _) with ⟨ht, he⟩ | ⟨ht, hnone⟩
    · exact he ▸ .name ht
    · rw [substitute_leaf hnone rfl]
      exact .leaf ht rfl

/-! ### What a replacement leaves behind -/

theorem subterms_of_leaf (hp : t.parts = []) : t.subterms = [t] := by
  cases t with
  | field | element | length => cases hp
  | _ => rfl

/-- The parts of a term without an image are replaced. -/
theorem parts_substitute (h : r.find? t = none) : (t.substitute r).parts = t.parts.map (substitute r) := by
  cases t <;> simp [substitute, h, parts]

/-- If all images are one term without parts, then every subterm of the result is that image, or is what became of a
subterm that has no image itself. -/
theorem mem_subterms_substitute (hx : x.parts = []) (hr : ∀ k y, r.find? k = some y → y = x)
    (hu : u ∈ (t.substitute r).subterms) : u = x ∨ ∃ k ∈ t.subterms, r.find? k = none ∧ k.substitute r = u := by
  induction t using induction_on_parts with
  | step t ih =>
    cases hf : r.find? t with
    | some y =>
      rw [substitute_of_find? hf, hr t y hf, subterms_of_leaf hx] at hu
      exact Or.inl (List.mem_singleton.mp hu)
    | none =>
      rcases mem_subterms_iff.mp hu with rfl | ⟨k, hk, huk⟩
      · exact Or.inr ⟨t, t.self_mem_subterms, hf, rfl⟩
      · rw [parts_substitute hf] at hk
        obtain ⟨c, hc, rfl⟩ := List.mem_map.mp hk
        rcases ih c hc huk with rfl | ⟨d, hd, hrest⟩
        · exact Or.inl rfl
        · exact Or.inr ⟨d, mem_subterms_iff.mpr (Or.inr ⟨c, hc, hd⟩), hrest⟩

/-- A term without an image stays a term of its kind. -/
theorem kind_substitute (h : r.find? t = none) :
    (t.substitute r).ty = t.ty ∧ (t.substitute r).isConst = t.isConst := by
  cases t <;> simp [substitute, h, ty, isConst]

end Term

namespace Atom

/-- The second atom is the first one with both sides renamed. -/
structure Renamed (named : Term → Prop) (x : Term) (a b : Atom) : Prop where
  relation : b.relation = a.relation
  lhs : Term.Renamed named x a.lhs b.lhs
  rhs : Term.Renamed named x a.rhs b.rhs

theorem Renamed.unique {named : Term → Prop} {x : Term} {a b c : Atom} (hb : Renamed named x a b)
    (hc : Renamed named x a c) : b = c := by
  obtain ⟨rel, l, r⟩ := b
  obtain ⟨rel', l', r'⟩ := c
  cases hb.relation.trans hc.relation.symm
  cases hb.lhs.unique hc.lhs
  cases hb.rhs.unique hc.rhs
  rfl

theorem exists_renamed (named : Term → Prop) (x : Term) (a : Atom) : ∃ b, Renamed named x a b := by
  obtain ⟨l, hl⟩ := Term.exists_renamed named x a.lhs
  obtain ⟨r, hr⟩ := Term.exists_renamed named x a.rhs
  exact ⟨⟨a.relation, l, r⟩, rfl, hl, hr⟩

theorem renamed_substitute {r : Term.Renaming} {named : Term → Prop} {x : Term} {a : Atom}
    (h : ∀ k ∈ a.terms, named k ∧ k.substitute r = x ∨ ¬ named k ∧ r.find? k = none) :
    Renamed named x a (a.substitute r) :=
  ⟨rfl, Term.renamed_substitute fun k hk => h k (List.mem_append_left _ hk),
    Term.renamed_substitute fun k hk => h k (List.mem_append_right _ hk)⟩

end Atom

end Symex
