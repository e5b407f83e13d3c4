import Symex.Proofs.Resolve.Actions

/-!
# Budgets that make no difference

A pass resolves references with a budget of nested models. Every reference inside a model is asked for with a term and
work that leave enough of the budget, so what is found does not depend on it: more of it gives the same answer. This is
shown along the functions of the pass, for any two ways to resolve the references inside that agree where they are used.
-/

namespace Symex

namespace Resolve

variable {p : Pass} {w : Work} {ads : Finset Address} {n : Nat} {inner inner' : Inner}

/-- Two ways to resolve references give the same wherever the budget is enough. -/
def InnerAgrees (p : Pass) (ads : Finset Address) (n : Nat) (inner inner' : Inner) : Prop :=
  ∀ t w, Ready p ads n w t → inner' t w = inner t w

section Inner

variable (hi : InnerOk p True ads n inner) (h : InnerAgrees p ads n inner inner')

include h

theorem resolveEntry_congr {t : Term} (elem : Ty) (raw : List Atom) (j : Nat) {group : Nat × List (Term × Term)}
    (hg : ∀ r ∈ group.2, r.1 ∈ p.atoms.flatMap Atom.terms) (hb : Ready p ads n w t) :
    resolveEntry p inner' t elem raw j group w = resolveEntry p inner t elem raw j group w := by
  have hcall : ∀ {v : Work}, Step p True w v → ∀ x y as,
      inner' (.element t (.localVar (indexName t.render j) .int) elem) (v.alloc (.primitive x y as)).2 =
        inner (.element t (.localVar (indexName t.render j) .int) elem) (v.alloc (.primitive x y as)).2 :=
    fun hv x y as => h _ _ ((hb.step (hv.trans (.put rfl))).element _ elem)
  obtain ⟨i, reads⟩ := group
  cases reads with
  | nil =>
    have hcall := hcall (.refl w)
    unfold indexName at hcall
    simp only [resolveEntry, hcall]
  | cons r reads =>
    have hcall := hcall (Step.standIn True w t.render j (hg r List.mem_cons_self))
    unfold indexName at hcall
    simp only [resolveEntry, hcall]

include hi

theorem resolveEntries_congr {t : Term} (elem : Ty) (raw : List Atom) {gs : List (Nat × List (Term × Term))}
    (hgs : ∀ g ∈ gs, ∀ r ∈ g.2, r.1 ∈ p.atoms.flatMap Atom.terms) (j : Nat) (hb : Ready p ads n w t) :
    resolveEntries p inner' t elem raw j gs w = resolveEntries p inner t elem raw j gs w := by
  induction gs generalizing j w with
  | nil => rfl
  | cons g gs ih =>
    have hg := hgs g List.mem_cons_self
    have hstep := (resolveEntry_ok hi t elem raw j hg fun _ => hb).1
    have hrest := ih (fun g' hg' => hgs g' (List.mem_cons_of_mem _ hg')) (j + 1) (hb.step hstep)
    simp only [resolveEntries, resolveEntry_congr h elem raw j hg hb, hrest]

theorem resolveArray_congr {t : Term} (aliases : List Term) {raw : List Atom} (hraw : ∀ a ∈ raw, a ∈ p.atoms)
    (atoms : OrderedSet Atom) (hb : Ready p ads n w t) :
    resolveArray p inner' t aliases raw atoms w = resolveArray p inner t aliases raw atoms w := by
  have hindex : ∀ {r : Term × Term}, r ∈ elementReads raw aliases → r.1 ∈ p.atoms.flatMap Atom.terms := by
    intro r hr
    obtain ⟨a, ha, hra⟩ := List.mem_flatMap.mp (index_mem_terms hr)
    exact List.mem_flatMap.mpr ⟨a, hraw a ha, hra⟩
  unfold resolveArray
  dsimp only
  generalize hl : w.alloc _ = l
  have hstep : Step p True w l.2 := by
    rw [← hl]
    exact .put rfl
  rw [resolveEntries_congr hi h _ raw (fun g hg r hr => hindex (mem_of_mem_groupReads hg hr)) 0 (hb.step hstep)]

omit hi in
theorem resolveStorage_congr (as : List Atom) {holder : Term} (name : String) (hb : Ready p ads n w holder) :
    resolveStorage p inner' as holder name w = resolveStorage p inner as holder name w := by
  unfold resolveStorage
  split
  · rfl
  next storage hst => rw [h storage w { hb with confined := confined_observedField hb.confined hst }]

omit hi in
theorem resolveSequence_congr {t : Term} (asSet : Bool) (raw : List Atom) (atoms : OrderedSet Atom)
    (hb : Ready p ads n w t) :
    resolveSequence p inner' t asSet raw atoms w = resolveSequence p inner t asSet raw atoms w := by
  unfold resolveSequence
  split
  · rfl
  next holder hh => rw [resolveStorage_congr h raw _ { hb with confined := confined_observedField hb.confined hh }]

theorem resolveMap_congr {t : Term} (raw : List Atom) (atoms : OrderedSet Atom) (hb : Ready p ads n w t) :
    resolveMap p inner' t raw atoms w = resolveMap p inner t raw atoms w := by
  unfold resolveMap
  dsimp only
  split
  · rfl
  next holder hh =>
    have hholder : Ready p ads n w holder := { hb with confined := confined_observedField hb.confined hh }
    have hstep := (resolveStorage_ok hi raw p.settings.layout.storage fun _ => hholder).1
    rw [resolveStorage_congr h raw _ hholder]
    split
    · rfl
    next keys v hkeys =>
      rw [hkeys] at hstep
      rw [resolveStorage_congr h raw _ (hholder.step hstep)]

theorem resolveNew_congr {t : Term} (wrapper : Option Wrapper) (a : Address) (hb : Ready p ads n w t) :
    resolveNew p inner' t wrapper a w = resolveNew p inner t wrapper a w := by
  have hraw : ∀ x ∈ p.about (t :: p.aliases a), x ∈ p.atoms := fun x hx => (List.mem_filter.mp hx).1
  unfold resolveNew
  dsimp only
  split
  · rw [resolveArray_congr hi h _ hraw _ hb]
  · split
    · exact resolveSequence_congr h false _ _ hb
    · exact resolveSequence_congr h true _ _ hb
    · exact resolveMap_congr hi h _ _ hb
    · rfl

end Inner

/-- More budget than is enough gives the same answer. -/
theorem resolveReference_add (hp : p.Confined ads) (n extra : Nat) (wrapper : Option Wrapper) {t : Term}
    (hb : Ready p ads n w t) : resolveReference p (n + extra) wrapper t w = resolveReference p n wrapper t w := by
  induction n generalizing wrapper t w with
  | zero => exact absurd hb.unmet (Nat.not_lt_zero _)
  | succ n ih =>
    rw [Nat.add_right_comm, resolveReference, resolveReference]
    split
    · rfl
    next a ha =>
      split
      · rfl
      · split
        · rfl
        next hk =>
          -- The slot that is set aside for `a` leaves one address less, which is what the references inside need.
          have hi : InnerOk p True ads n (resolveReference p n none) :=
            fun u v h => resolveReference_ok ads (fun _ => hp) n none u h
          have hagree : InnerAgrees p ads n (resolveReference p n none) (resolveReference p (n + extra) none) :=
            fun u v h => ih none h
          dsimp only
          rw [resolveNew_congr hi hagree wrapper a (hb.reserve hp ha hk)]

/-- The budget that a pass gives to a requested reference is enough. -/
theorem resolveReference_unbounded (hp : p.Ample) (hw : w.StandsIn p) (wrapper : Option Wrapper) (t : Term)
    (extra : Nat) : resolveReference p (p.bound + t.subterms.length + extra) wrapper t w =
      resolveReference p (p.bound + t.subterms.length) wrapper t w := by
  obtain ⟨ads, hc, hready⟩ := hp.ready hw t
  exact resolveReference_add hc _ extra wrapper hready

end Resolve

end Symex
