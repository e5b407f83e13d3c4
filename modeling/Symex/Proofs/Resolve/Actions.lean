import Mathlib.Logic.Relation
import Symex.Proofs.Model.WellFormed
import Symex.Proofs.Resolve.Budget

/-!
# What a pass does

All that a pass does to its work is a sequence of actions of a few kinds. Each kind is described with what the pass
has made sure of before. What holds of the work at the end follows from what every action keeps, and the functions
of the pass need not be looked at again.

The actions are found by one induction along the recursion of the pass. The budget comes in there: an action of a
pass that is given an ample budget is never the one that gives up.
-/

namespace Symex

/-! ### What new containers may hold -/

namespace Store

/-- A model that is built, or one that a container holds already. -/
def Offers (s : Store) (k : Handle) : Prop := (s.get? k).isSome ∨ ∃ h, s.Contains h k

/-- A primitive, or the length of a container. -/
def OffersLength (s : Store) (k : Handle) : Prop :=
  (∃ t v as, s.get? k = some (.primitive t v as)) ∨ ∃ h kind c, s.get? h = some (.container kind c) ∧ c.length = k

theorem Offers.mono {s t : Store} {k : Handle} (h : s.Offers k) (e : s.Extends t) : t.Offers k := by
  rcases h with h | ⟨x, kind, c, hc, hk⟩
  · obtain ⟨m, hm⟩ := Option.isSome_iff_exists.mp h
    exact Or.inl (Option.isSome_iff_exists.mpr ⟨m, e.get?_some hm⟩)
  · exact Or.inr ⟨x, kind, c, e.get?_some hc, hk⟩

theorem OffersLength.mono {s t : Store} {k : Handle} (h : s.OffersLength k) (e : s.Extends t) : t.OffersLength k := by
  rcases h with ⟨u, v, as, h⟩ | ⟨x, kind, c, hc, hk⟩
  · exact Or.inl ⟨u, v, as, e.get?_some h⟩
  · exact Or.inr ⟨x, kind, c, e.get?_some hc, hk⟩

end Store

/-- What a container needs of the store that it is put into. -/
structure Container.Fits (s : Store) (c : Container) : Prop where
  length : s.OffersLength c.length
  entries : ∀ e ∈ c.entries, s.Offers e.1 ∧ s.Offers e.2

theorem Container.Fits.mono {s t : Store} {c : Container} (h : c.Fits s) (e : s.Extends t) : c.Fits t :=
  ⟨h.length.mono e, fun x hx => ⟨(h.entries x hx).1.mono e, (h.entries x hx).2.mono e⟩⟩

/-- What is in the store may be put into another container. -/
theorem Container.fits_of_get? {s : Store} {h : Handle} {kind : ContainerKind} {c : Container}
    (hc : s.get? h = some (.container kind c)) : c.Fits s := by
  refine ⟨Or.inr ⟨h, kind, c, hc, rfl⟩, ?_⟩
  intro e he
  have hmem : ∀ k ∈ [e.1, e.2], k ∈ (Model.container kind c).children :=
    fun k hk => List.mem_cons_of_mem _ (List.mem_flatMap.mpr ⟨e, he, hk⟩)
  exact ⟨Or.inr ⟨h, kind, c, hc, hmem _ List.mem_cons_self⟩,
    Or.inr ⟨h, kind, c, hc, hmem _ (List.mem_cons_of_mem _ List.mem_cons_self)⟩⟩

namespace Model

/-- A model of an address that fits the store. -/
def Fits (s : Store) : Model → Prop
  | .object _ _ => True
  | .container _ c => c.Fits s
  | _ => False

/-- Whether a model is null or a primitive. -/
def isPlain : Model → Bool
  | .null _ => true
  | .primitive .. => true
  | _ => false

end Model

namespace Resolve

/-! ### Actions and steps -/

/-- The name that is made up for the index of an entry of an array. -/
def indexName (array : String) (n : Nat) : String := array ++ "_index" ++ toString n

/-- Made up indices stand for terms of the atoms. -/
def Work.StandsIn (p : Pass) (w : Work) : Prop :=
  ∀ k x, w.standIns.find? k = some x →
    (∃ array n, k = .localVar (indexName array n) .int) ∧ x ∈ p.atoms.flatMap Atom.terms

/-- The work that a model was resolved with, from where a slot was set aside for it. -/
def Made (p : Pass) (ample : Prop) (w : Work) (h : Handle) (m : Model) : Prop :=
  ∃ n t wrapper a u, (ample → u.StandsIn p) ∧ p.address? u t = some a ∧ h = (u.reserve a).1 ∧
    resolveNew p (resolveReference p n none) t wrapper a (u.reserve a).2 = (m, w)

/-- One thing that a pass does to its work, where `ample` says that its budget is never used up. -/
inductive Action (p : Pass) (ample : Prop) : Work → Work → Prop
  /-- An index is made up for a term of the atoms. -/
  | standIn {w : Work} (array : String) (n : Nat) {x : Term} (hx : x ∈ p.atoms.flatMap Atom.terms) :
    Action p ample w { w with standIns := w.standIns.insert (.localVar (indexName array n) .int) x }
  | put {w : Work} {m : Model} (hm : m.isPlain = true) : Action p ample w (w.alloc m).2
  | giveUp {w : Work} (t : Term) (h : ¬ ample) : Action p ample w (w.alloc (.object t {})).2
  | unplaced {w : Work} {t : Term} (as : OrderedSet Atom) (ha : p.address? w t = none) :
    Action p ample w (w.answer none (.object t as)).2
  | null {w : Work} {t : Term} {a : Address} (ha : p.address? w t = some a) (hn : a.isNull = true) :
    Action p ample w (w.answer (some a) (.null t)).2
  | again {w : Work} {t : Term} {a : Address} {k : Handle} (ha : p.address? w t = some a) (hn : a.isNull = false)
    (hk : w.known.find? a = some k) : Action p ample w (w.answer (some a) (.sameAs t k)).2
  | reserve {w : Work} {t : Term} {a : Address} (ha : p.address? w t = some a) (hn : a.isNull = false)
    (hk : w.known.find? a = none) : Action p ample w (w.reserve a).2
  | fill {w : Work} {h : Handle} {m : Model} (hlt : h.index < w.store.size) (hn : w.store.get? h = none)
    (hm : m.Fits w.store) (hmade : Made p ample w h m) : Action p ample w (w.fill h m)

/-- Work from where to where nothing that was begun is left open. -/
structure Step (p : Pass) (ample : Prop) (w w' : Work) : Prop where
  extended : w.store.Extends w'.store
  built : ∀ {h : Handle}, w.store.size ≤ h.index → h.index < w'.store.size → (w'.store.get? h).isSome
  actions : Relation.ReflTransGen (Action p ample) w w'

/-- The handle of a model that is there. -/
def Work.Has (w : Work) (h : Handle) : Prop := (w.store.get? h).isSome

theorem Work.standsIn_empty (p : Pass) : ({} : Work).StandsIn p := by
  intro k x hx
  cases hx

variable {p : Pass} {ample : Prop} {w w' : Work}

theorem Action.known (h : Action p ample w w') {a : Address} {k : Handle} (hk : w.known.find? a = some k) :
    w'.known.find? a = some k := by
  cases h with
  | @reserve t b ha hn hb =>
    have hne : a ≠ b := by
      rintro rfl
      rw [hb] at hk
      cases hk
    exact (Table.find?_insert_ne _ _ _ _ hne).trans hk
  | _ => exact hk

theorem Action.standsIn (h : Action p ample w w') (hs : w.StandsIn p) : w'.StandsIn p := by
  cases h with
  | @standIn array n x hx =>
    intro k y hy
    have hy' : (w.standIns.insert (.localVar (indexName array n) .int) x).find? k = some y := hy
    rw [Table.find?_insert] at hy'
    split at hy'
    next hk => exact ⟨⟨array, n, hk⟩, Option.some.inj hy' ▸ hx⟩
    next => exact hs k y hy'
  | _ => exact hs

/-- What every action keeps is kept at every point of a run. -/
theorem keep_of_actions {P : Work → Prop} (hP : ∀ {u v : Work}, Action p ample u v → P u → P v) (hw : P w)
    (h : Relation.ReflTransGen (Action p ample) w w') : P w' := by
  induction h with
  | refl => exact hw
  | tail _ ha ih => exact hP ha ih

namespace Step

theorem refl (w : Work) : Step p ample w w := ⟨.refl _, fun h h' => absurd h' (by omega), .refl⟩

theorem trans {u v w : Work} (h : Step p ample u v) (k : Step p ample v w) : Step p ample u w := by
  refine ⟨h.extended.trans k.extended, ?_, h.actions.trans k.actions⟩
  intro x hx hlt
  rcases Nat.lt_or_ge x.index v.store.size with hv | hv
  · rw [k.extended.get?_eq hv]
    exact h.built hx hv
  · exact k.built hv hlt

theorem keep {P : Work → Prop} (h : Step p ample w w') (hP : ∀ {u v : Work}, Action p ample u v → P u → P v)
    (hw : P w) : P w' :=
  keep_of_actions hP hw h.actions

theorem known (h : Step p ample w w') {a : Address} {k : Handle} (hk : w.known.find? a = some k) :
    w'.known.find? a = some k :=
  h.keep (fun ha => ha.known) hk

theorem standsIn (h : Step p ample w w') (hs : w.StandsIn p) : w'.StandsIn p := h.keep (fun ha => ha.standsIn) hs

theorem has (h : Step p ample w w') {k : Handle} (hk : w.Has k) : w'.Has k := by
  obtain ⟨m, hm⟩ := Option.isSome_iff_exists.mp hk
  exact Option.isSome_iff_exists.mpr ⟨m, h.extended.get?_some hm⟩

theorem of_alloc {m : Model} (hstore : w'.store = (w.store.alloc m).2) (h : Action p ample w w') :
    Step p ample w w' := by
  refine ⟨hstore ▸ Store.extends_alloc w.store m, ?_, .single h⟩
  intro k hk hlt
  rw [hstore, Store.size_alloc] at hlt
  rw [hstore, Store.get?_alloc, if_pos (by omega)]
  rfl

theorem put {m : Model} (hm : m.isPlain = true) : Step p ample w (w.alloc m).2 := of_alloc rfl (.put hm)

theorem standIn (ample : Prop) (w : Work) (array : String) (n : Nat) {x : Term}
    (hx : x ∈ p.atoms.flatMap Atom.terms) :
    Step p ample w { w with standIns := w.standIns.insert (.localVar (indexName array n) .int) x } :=
  ⟨.refl _, fun h h' => absurd h' (Nat.not_lt_of_le h), .single (.standIn array n hx)⟩

/-- A slot that is set aside is filled when its model is there. -/
theorem fill {t : Term} {a : Address} {m : Model} (ha : p.address? w t = some a) (hn : a.isNull = false)
    (hk : w.known.find? a = none) (h : Step p ample (w.reserve a).2 w') (hm : m.Fits w'.store)
    (hmade : Made p ample w' (w.reserve a).1 m) : Step p ample w (w'.fill (w.reserve a).1 m) := by
  have hsize : (w.reserve a).2.store.size = w.store.size + 1 := Store.size_reserve w.store
  have hslot : (w.reserve a).1.index = w.store.size := rfl
  have hlt : (w.reserve a).1.index < w'.store.size := h.extended.lt (by omega)
  have hempty : w'.store.get? (w.reserve a).1 = none := by
    rw [h.extended.get?_eq (by omega)]
    exact (Store.get?_reserve w.store _).trans (Store.get?_eq_none_of_le (Nat.le_refl _))
  refine ⟨((Store.extends_reserve w.store).trans h.extended).fill (Nat.le_refl _) m, ?_, ?_⟩
  · intro x hx hxlt
    have hxlt' : x.index < w'.store.size := Nat.lt_of_lt_of_eq hxlt (Store.size_fill _ _ _)
    have hg : w'.store.Gains (w'.fill (w.reserve a).1 m).store (w.reserve a).1 m := Store.gains_fill hlt hempty m
    by_cases he : x = (w.reserve a).1
    · rw [he, hg.present]
      rfl
    · have hne : x.index ≠ w.store.size := fun e => he (by cases x; exact congrArg Handle.mk e)
      exact hg.isSome (h.built (by omega) hxlt')
  · exact (Relation.ReflTransGen.single (.reserve ha hn hk)).trans (h.actions.tail (.fill hlt hempty hm hmade))

end Step

theorem has_alloc (w : Work) (m : Model) : (w.alloc m).2.Has (w.alloc m).1 :=
  Option.isSome_iff_exists.mpr ⟨m, Store.get?_alloc_self w.store m⟩

theorem get?_alloc_fst (w : Work) (m : Model) : (w.alloc m).2.store.get? (w.alloc m).1 = some m :=
  Store.get?_alloc_self w.store m

theorem get?_answer_fst (w : Work) (a : Option Address) (m : Model) :
    (w.answer a m).2.store.get? (w.answer a m).1 = some m :=
  Store.get?_alloc_self w.store m

theorem has_answer (w : Work) (a : Option Address) (m : Model) : (w.answer a m).2.Has (w.answer a m).1 :=
  has_alloc w m

/-! ### Entries and arrays -/

/-- The budget for a term: its addresses and those of the pass are among the given ones, and there are models left
for those that are not met yet. -/
structure Ready (p : Pass) (ads : Finset Address) (n : Nat) (w : Work) (t : Term) : Prop where
  confined : t.Confined ads
  standsIn : w.StandsIn p
  unmet : unmet ads w < n

theorem Ready.step {ads : Finset Address} {n : Nat} {t : Term} (h : Ready p ads n w t) (hs : Step p ample w w') :
    Ready p ads n w' t :=
  ⟨h.confined, hs.standsIn h.standsIn, Nat.lt_of_le_of_lt (unmet_le hs.known) h.unmet⟩

theorem Ready.element {ads : Finset Address} {n : Nat} {t : Term} (h : Ready p ads n w t) (name : String) (elem : Ty) :
    Ready p ads n w (.element t (.localVar name .int) elem) :=
  ⟨h.confined.element (Term.confined_localVar _ _) elem, h.standsIn, h.unmet⟩

/-- A new address takes one model from the budget. -/
theorem Ready.reserve {ads : Finset Address} {n : Nat} {t : Term} (h : Ready p ads (n + 1) w t) (hp : p.Confined ads)
    {a : Address} (ha : p.address? w t = some a) (hk : w.known.find? a = none) : Ready p ads n (w.reserve a).2 t := by
  have hmem : a ∈ ads := hp.address? (fun k x hx => hp.atoms (h.standsIn k x hx).2) h.confined ha
  have hlt := unmet_reserve_lt hmem hk
  have hunmet := h.unmet
  exact ⟨h.confined, h.standsIn, by omega⟩

/-- What is asked of the function that resolves the references inside a model. -/
def InnerOk (p : Pass) (ample : Prop) (ads : Finset Address) (n : Nat) (inner : Inner) : Prop :=
  ∀ t w, (ample → Ready p ads n w t) → Step p ample w (inner t w).2 ∧ (inner t w).2.Has (inner t w).1

theorem primitive_ok (p : Pass) (ample : Prop) (w : Work) (t : Term) (scope : List Atom) :
    Step p ample w (p.primitive w t scope).2 ∧ (p.primitive w t scope).2.Has (p.primitive w t scope).1 :=
  ⟨.put rfl, has_alloc _ _⟩

theorem mem_of_mem_groupReads {index? : Term → Option Nat} {length : Nat} {reads : List (Term × Term)}
    {g : Nat × List (Term × Term)} (hg : g ∈ groupReads index? length reads) {r : Term × Term} (hr : r ∈ g.2) :
    r ∈ reads := by
  have hfold : ∀ (rs : List (Term × Term)) (t : OrderedTable Nat (List (Term × Term))), (∀ r ∈ rs, r ∈ reads) →
      (∀ e ∈ t.toList, ∀ r ∈ e.2, r ∈ reads) →
      ∀ e ∈ (rs.foldl (addRead index? length) t).toList, ∀ r ∈ e.2, r ∈ reads := by
    intro rs
    induction rs with
    | nil => exact fun t _ ht => ht
    | cons x rs ih =>
      intro t hrs ht
      refine ih _ (fun r hr => hrs r (List.mem_cons_of_mem _ hr)) ?_
      unfold addRead
      split
      next i _ =>
        split
        · intro e he y hy
          rcases OrderedTable.mem_of_mem_insertInto he with rfl | he
          · rcases List.mem_append.mp hy with hy | hy
            · cases hf : t.find? i with
              | none =>
                rw [hf] at hy
                cases hy
              | some l =>
                rw [hf] at hy
                exact ht _ (mem_of_lookup hf) y hy
            · rw [List.mem_singleton.mp hy]
              exact hrs x List.mem_cons_self
          · exact ht e he y hy
        · exact ht
      next => exact ht
  exact hfold reads {} (fun r hr => hr) (fun e he => by cases he) g hg r hr

/-- The indices of element reads are terms of the atoms. -/
theorem index_mem_terms {as : List Atom} {arrays : List Term} {r : Term × Term} (hr : r ∈ elementReads as arrays) :
    r.1 ∈ as.flatMap Atom.terms := by
  obtain ⟨t, ht, hrt⟩ := List.mem_filterMap.mp hr
  have ht' : t ∈ as.flatMap Atom.terms := List.mem_eraseDups.mp ht
  split at hrt
  next a i e =>
    split at hrt
    · cases hrt
      refine subterm_mem_terms ht' ?_
      simp [Term.subterms, Term.self_mem_subterms]
    · cases hrt
  next => cases hrt

section Inner

variable {ads : Finset Address} {n : Nat} {inner : Inner}

/-- A plain key, and then a value that is a reference or a primitive. -/
theorem entry_ok {u : Work} (hu : Step p ample u w) (hi : InnerOk p ample ads n inner) {key : Model}
    (hk : key.isPlain = true) (t : Term) (hb : ample → Ready p ads n w t) (isRef : Bool) (scope : List Atom) :
    let k := w.alloc key
    let v := if isRef then inner t k.2 else p.primitive k.2 t scope
    Step p ample u v.2 ∧ v.2.Has k.1 ∧ v.2.Has v.1 := by
  have h₁ : Step p ample w (w.alloc key).2 := .put hk
  have hhas := has_alloc w key
  cases isRef with
  | true =>
    obtain ⟨h₂, hv⟩ := hi t (w.alloc key).2 fun h => (hb h).step h₁
    exact ⟨hu.trans (h₁.trans h₂), h₂.has hhas, hv⟩
  | false =>
    obtain ⟨h₂, hv⟩ := primitive_ok p ample (w.alloc key).2 t scope
    exact ⟨hu.trans (h₁.trans h₂), h₂.has hhas, hv⟩

theorem resolveEntry_ok (hi : InnerOk p ample ads n inner) (t : Term) (elem : Ty) (raw : List Atom) (j : Nat)
    {group : Nat × List (Term × Term)} (hg : ∀ r ∈ group.2, r.1 ∈ p.atoms.flatMap Atom.terms)
    (hb : ample → Ready p ads n w t) :
    let r := resolveEntry p inner t elem raw j group w
    Step p ample w r.2 ∧ r.2.Has r.1.1 ∧ r.2.Has r.1.2 := by
  obtain ⟨i, reads⟩ := group
  have hready : ∀ {v : Work}, Step p ample w v → ample →
      Ready p ads n v (.element t (.localVar (indexName t.render j) .int) elem) :=
    fun hv h => ((hb h).step hv).element _ elem
  cases reads with
  | nil => exact entry_ok (.refl w) hi rfl _ (hready (.refl w)) elem.isReference _
  | cons r reads =>
    have h₁ := Step.standIn ample w t.render j (hg r List.mem_cons_self)
    exact entry_ok h₁ hi rfl _ (hready h₁) elem.isReference _

theorem resolveEntries_ok (hi : InnerOk p ample ads n inner) (t : Term) (elem : Ty) (raw : List Atom)
    (gs : List (Nat × List (Term × Term))) (hgs : ∀ g ∈ gs, ∀ r ∈ g.2, r.1 ∈ p.atoms.flatMap Atom.terms) (j : Nat)
    (hb : ample → Ready p ads n w t) :
    let r := resolveEntries p inner t elem raw j gs w
    Step p ample w r.2 ∧ ∀ e ∈ r.1, r.2.Has e.1 ∧ r.2.Has e.2 := by
  induction gs generalizing j w with
  | nil => exact ⟨.refl w, fun e he => by cases he⟩
  | cons g gs ih =>
    obtain ⟨h₁, hk, hv⟩ := resolveEntry_ok hi t elem raw j (hgs g List.mem_cons_self) hb
    obtain ⟨h₂, hes⟩ := ih (fun g' hg' => hgs g' (List.mem_cons_of_mem _ hg')) (j + 1) fun h => (hb h).step h₁
    refine ⟨h₁.trans h₂, ?_⟩
    intro e he
    rcases List.mem_cons.mp he with rfl | he
    · exact ⟨h₂.has hk, h₂.has hv⟩
    · exact hes e he

theorem resolveArray_ok (hi : InnerOk p ample ads n inner) (t : Term) (aliases : List Term) (raw : List Atom)
    (hraw : ∀ a ∈ raw, a ∈ p.atoms) (atoms : OrderedSet Atom) (hb : ample → Ready p ads n w t) :
    let r := resolveArray p inner t aliases raw atoms w
    Step p ample w r.2 ∧ r.1.Fits r.2.store := by
  have hindex : ∀ {r : Term × Term}, r ∈ elementReads raw aliases → r.1 ∈ p.atoms.flatMap Atom.terms := by
    intro r hr
    obtain ⟨a, ha, hra⟩ := List.mem_flatMap.mp (index_mem_terms hr)
    exact List.mem_flatMap.mpr ⟨a, hraw a ha, hra⟩
  unfold resolveArray
  dsimp only
  generalize hl : w.alloc _ = l
  have h₁ : Step p ample w l.2 := by
    rw [← hl]
    exact .put rfl
  have hlen : ∃ u v as, l.2.store.get? l.1 = some (.primitive u v as) := by
    rw [← hl]
    exact ⟨_, _, _, get?_alloc_fst _ _⟩
  obtain ⟨h₂, hes⟩ := resolveEntries_ok hi t (t.ty.element?.getD t.ty) raw
    (groupReads (p.index? l.2) (arrayLength p w t aliases raw) (elementReads raw aliases))
    (fun g hg r hr => hindex (mem_of_mem_groupReads hg hr)) 0 fun h => (hb h).step h₁
  obtain ⟨u, v, as, hv⟩ := hlen
  refine ⟨h₁.trans h₂, Or.inl ⟨u, v, as, h₂.extended.get?_some hv⟩, ?_⟩
  intro e he
  exact ⟨Or.inl (hes e he).1, Or.inl (hes e he).2⟩

/-! ### Containers behind a wrapper -/

theorem confined_observedField {as : List Atom} {base t : Term} {name : String} (hb : base.Confined ads)
    (ht : observedField p w as base name = some t) : t.Confined ads := by
  obtain ⟨u, -, hu⟩ := List.exists_of_findSome?_eq_some ht
  split at hu
  next b f =>
    split at hu
    · cases hu
      exact hb.field f
    · cases hu
  next => cases hu

theorem resolveStorage_ok (hi : InnerOk p ample ads n inner) (as : List Atom) {holder : Term} (name : String)
    (hb : ample → Ready p ads n w holder) :
    let r := resolveStorage p inner as holder name w
    Step p ample w r.2 ∧ ∀ c, r.1 = some c → c.Fits r.2.store := by
  unfold resolveStorage
  split
  · exact ⟨.refl w, fun c hc => by cases hc⟩
  next storage hst =>
    obtain ⟨h₁, -⟩ := hi storage w fun h => { hb h with confined := confined_observedField (hb h).confined hst }
    dsimp only
    split
    next c hc =>
      refine ⟨h₁, ?_⟩
      intro d hd
      cases hd
      exact Container.fits_of_get? hc
    · exact ⟨h₁, fun c hc => by cases hc⟩

theorem nullEntry_ok (p : Pass) (ample : Prop) (array : Term) (elem : Ty) (i : Nat) (w : Work) :
    let r := nullEntry array elem i w
    Step p ample w r.2 ∧ r.2.Has r.1.1 ∧ r.2.Has r.1.2 := by
  unfold nullEntry
  dsimp only
  have h₁ : Step p ample w (w.alloc (.primitive (.const (Value.ofIndex i)) (Value.ofIndex i) {})).2 := .put rfl
  have h₂ : Step p ample _ ((w.alloc (.primitive (.const (Value.ofIndex i)) (Value.ofIndex i) {})).2.alloc
    (.null (.element array (.const (Value.ofIndex i)) elem))).2 := .put rfl
  exact ⟨h₁.trans h₂, h₂.has (has_alloc _ _), has_alloc _ _⟩

theorem denseEntries_ok (p : Pass) (ample : Prop) (storage : Container) (present : List (Nat × (Handle × Handle)))
    (elem : Ty) (is : List Nat) (hp : ∀ x ∈ present, w.store.Offers x.2.1 ∧ w.store.Offers x.2.2) :
    let r := denseEntries storage present elem is w
    Step p ample w r.2 ∧ ∀ e ∈ r.1, r.2.store.Offers e.1 ∧ r.2.store.Offers e.2 := by
  induction is generalizing w with
  | nil => exact ⟨.refl w, fun e he => by cases he⟩
  | cons i is ih =>
    rw [denseEntries]
    cases hl : present.lookup i with
    | some e =>
      obtain ⟨h, hes⟩ := ih hp
      refine ⟨h, ?_⟩
      intro x hx
      rcases List.mem_cons.mp hx with rfl | hx
      · obtain ⟨hk, hv⟩ := hp _ (mem_of_lookup hl)
        exact ⟨hk.mono h.extended, hv.mono h.extended⟩
      · exact hes x hx
    | none =>
      obtain ⟨h₁, hk, hv⟩ := nullEntry_ok p ample storage.term elem i w
      obtain ⟨h₂, hes⟩ := ih fun x hx => ⟨(hp x hx).1.mono h₁.extended, (hp x hx).2.mono h₁.extended⟩
      refine ⟨h₁.trans h₂, ?_⟩
      intro x hx
      rcases List.mem_cons.mp hx with rfl | hx
      · exact ⟨Or.inl (h₂.has hk), Or.inl (h₂.has hv)⟩
      · exact hes x hx

theorem mem_indexed {c : Container} {x : Nat × (Handle × Handle)} (h : x ∈ indexed w c) : x.2 ∈ c.entries := by
  obtain ⟨e, he, hx⟩ := List.mem_filterMap.mp h
  obtain ⟨i, _, rfl⟩ := Option.map_eq_some_iff.mp hx
  exact he

/-- The model of a new address is made in a step, and fits. -/
structure NewOk (p : Pass) (ample : Prop) (w w' : Work) (m : Model) : Prop where
  step : Step p ample w w'
  fits : m.Fits w'.store

theorem resolveSequence_ok (hi : InnerOk p ample ads n inner) (t : Term) (asSet : Bool) (raw : List Atom)
    (atoms : OrderedSet Atom) (hb : ample → Ready p ads n w t) :
    let r := resolveSequence p inner t asSet raw atoms w
    NewOk p ample w r.2 r.1 := by
  unfold resolveSequence
  split
  · exact ⟨.refl w, trivial⟩
  next holder hh =>
    have hst := resolveStorage_ok hi raw p.settings.layout.storage
      fun h => { hb h with confined := confined_observedField (hb h).confined hh }
    split
    next v hx =>
      rw [hx] at hst
      exact ⟨hst.1, trivial⟩
    next storage v hx =>
      rw [hx] at hst
      have hfit : storage.Fits v.store := hst.2 storage rfl
      split
      · exact ⟨hst.1, hfit.length, hfit.entries⟩
      · obtain ⟨h, hes⟩ := denseEntries_ok p ample storage (indexed v storage)
          (storage.term.ty.element?.getD (.object rootClass)) (List.range ((v.index? storage.length).getD 0))
          fun x hx => hfit.entries _ (mem_indexed hx)
        exact ⟨hst.1.trans h, hfit.length.mono h.extended, hes⟩

theorem mapValue_ok (p : Pass) (ample : Prop) {stored : List (Nat × Handle)} (values : Term) (ty : Ty) (i : Nat)
    (hst : ∀ x ∈ stored, w.store.Offers x.2) :
    let r := mapValue stored values ty i w
    Step p ample w r.2 ∧ r.2.store.Offers r.1 := by
  unfold mapValue
  split
  next h hl => exact ⟨.refl w, hst _ (mem_of_lookup hl)⟩
  next =>
    split
    · exact ⟨.put rfl, Or.inl (has_alloc _ _)⟩
    · obtain ⟨h, -, hv⟩ := nullEntry_ok p ample values ty i w
      exact ⟨h, Or.inl hv⟩

theorem mapEntries_ok (p : Pass) (ample : Prop) {stored : List (Nat × Handle)} (values : Term) (ty : Ty)
    {es : List (Nat × (Handle × Handle))} (hst : ∀ x ∈ stored, w.store.Offers x.2)
    (hes : ∀ x ∈ es, w.store.Offers x.2.1 ∧ w.store.Offers x.2.2) :
    let r := mapEntries stored values ty es w
    Step p ample w r.2 ∧ ∀ e ∈ r.1, r.2.store.Offers e.1 ∧ r.2.store.Offers e.2 := by
  induction es generalizing w with
  | nil => exact ⟨.refl w, fun e he => by cases he⟩
  | cons e es ih =>
    obtain ⟨i, slot, key⟩ := e
    obtain ⟨h₁, hv⟩ := mapValue_ok p ample values ty i hst
    obtain ⟨h₂, hrest⟩ := ih (fun x hx => (hst x hx).mono h₁.extended)
      fun x hx => ⟨(hes x (List.mem_cons_of_mem _ hx)).1.mono h₁.extended,
        (hes x (List.mem_cons_of_mem _ hx)).2.mono h₁.extended⟩
    refine ⟨h₁.trans h₂, ?_⟩
    intro x hx
    rcases List.mem_cons.mp hx with rfl | hx
    · exact ⟨(hes _ List.mem_cons_self).2.mono (h₁.trans h₂).extended, hv.mono h₂.extended⟩
    · exact hrest x hx

theorem resolveMap_ok (hi : InnerOk p ample ads n inner) (t : Term) (raw : List Atom) (atoms : OrderedSet Atom)
    (hb : ample → Ready p ads n w t) :
    let r := resolveMap p inner t raw atoms w
    NewOk p ample w r.2 r.1 := by
  unfold resolveMap
  dsimp only
  split
  · exact ⟨.refl w, trivial⟩
  next holder hh =>
    have hholder : ample → Ready p ads n w holder :=
      fun h => { hb h with confined := confined_observedField (hb h).confined hh }
    have hst := resolveStorage_ok hi raw p.settings.layout.storage hholder
    split
    next v hx =>
      rw [hx] at hst
      exact ⟨hst.1, trivial⟩
    next keys v hx =>
      rw [hx] at hst
      have hkeys : keys.Fits v.store := hst.2 keys rfl
      have hvs := resolveStorage_ok hi raw p.settings.layout.values fun h => (hholder h).step hst.1
      generalize resolveStorage p inner raw holder p.settings.layout.values v = vs at hvs ⊢
      obtain ⟨values, u⟩ := vs
      dsimp only at hvs ⊢
      -- The stored values are entries of the array that holds them.
      have hstored : ∀ x ∈ (values.map fun c => (indexed u c).map fun e => (e.1, e.2.2)).getD [],
          u.store.Offers x.2 := by
        intro x hxs
        cases values with
        | none => cases hxs
        | some c =>
          obtain ⟨e, he, rfl⟩ := List.mem_map.mp hxs
          exact ((hvs.2 c rfl).entries _ (mem_indexed he)).2
      have hk := hkeys.mono hvs.1.extended
      obtain ⟨h, hes⟩ := mapEntries_ok p ample
        (.field holder ⟨holder.ty.class?.getD rootClass, p.settings.layout.values,
          .array ((values.bind (·.term.ty.element?)).getD (.object rootClass))⟩)
        ((values.bind (·.term.ty.element?)).getD (.object rootClass)) hstored
        fun x (hx : x ∈ indexed u keys) => hk.entries _ (mem_indexed hx)
      exact ⟨hst.1.trans (hvs.1.trans h), hk.length.mono h.extended, hes⟩

/-! ### References -/

theorem resolveNew_ok (hi : InnerOk p ample ads n inner) (t : Term) (wrapper : Option Wrapper) (a : Address)
    (hb : ample → Ready p ads n w t) :
    let r := resolveNew p inner t wrapper a w
    NewOk p ample w r.2 r.1 := by
  unfold resolveNew
  dsimp only
  split
  · obtain ⟨h, hc⟩ := resolveArray_ok hi t (t :: p.aliases a) (p.about (t :: p.aliases a))
      (fun x hx => (List.mem_filter.mp hx).1) (canonical (p.about (t :: p.aliases a)) t (t :: p.aliases a)) hb
    exact ⟨h, hc⟩
  · split
    · exact resolveSequence_ok hi t false _ _ hb
    · exact resolveSequence_ok hi t true _ _ hb
    · exact resolveMap_ok hi t _ _ hb
    · exact ⟨.refl w, trivial⟩

/-- The budget is at least the number of addresses that are not met, and every model that is begun meets one. -/
theorem resolveReference_ok (ads : Finset Address) (hp : ample → p.Confined ads) (n : Nat) (wrapper : Option Wrapper)
    (t : Term) (hb : ample → Ready p ads n w t) :
    let r := resolveReference p n wrapper t w
    Step p ample w r.2 ∧ r.2.Has r.1 := by
  induction n generalizing wrapper t w with
  | zero => exact ⟨.of_alloc rfl (.giveUp t fun h => Nat.not_lt_zero _ (hb h).unmet), has_alloc _ _⟩
  | succ n ih =>
    rw [resolveReference]
    split
    next ha => exact ⟨.of_alloc rfl (.unplaced _ ha), has_answer _ _ _⟩
    next a ha =>
      split
      next hn => exact ⟨.of_alloc rfl (.null ha hn), has_answer _ _ _⟩
      next hn =>
        have hn' : a.isNull = false := Bool.eq_false_iff.mpr hn
        split
        next target hk => exact ⟨.of_alloc rfl (.again ha hn' hk), has_answer _ _ _⟩
        next hk =>
          have hi : InnerOk p ample ads n (resolveReference p n none) := fun u v h => ih none u h
          have hready : ample → Ready p ads n (w.reserve a).2 t := fun h => (hb h).reserve (hp h) ha hk
          obtain ⟨hstep, hfit⟩ := resolveNew_ok hi t wrapper a hready
          have hfill := hstep.fill ha hn' hk hfit ⟨n, t, wrapper, a, w, fun h => (hb h).standsIn, ha, rfl, rfl⟩
          refine ⟨hfill, hfill.built (Nat.le_refl _) ?_⟩
          exact Nat.lt_of_lt_of_eq (hstep.extended.lt (by
            have hsize : (w.reserve a).2.store.size = w.store.size + 1 := Store.size_reserve w.store
            exact hsize ▸ Nat.lt_succ_self _)) (Store.size_fill _ _ _).symm

theorem innerOk_reference (p : Pass) (n : Nat) : InnerOk p False ∅ n (resolveReference p n none) :=
  fun u _ h => resolveReference_ok ∅ (fun h => h.elim) n none u h

end Inner

/-! ### Values -/

/-- The addresses that a pass can come upon are fewer than its bound. -/
def Pass.Ample (p : Pass) : Prop := ∃ ads, p.Confined ads ∧ ads.card < p.bound

theorem ample_start (settings : Settings) (s : State) (m : Assignment) (snapshot : Snapshot) :
    (Pass.start settings s m snapshot).Ample :=
  ⟨_, confined_start settings s m snapshot, card_addressesOf_lt settings s m snapshot⟩

/-- The budget of a pass is enough for any term. The constants of the term that is asked for may be new. -/
theorem Pass.Ample.ready (hp : p.Ample) (hw : w.StandsIn p) (t : Term) :
    ∃ ads, p.Confined ads ∧ Ready p ads (p.bound + t.subterms.length) w t := by
  obtain ⟨ads, hc, hcard⟩ := hp
  refine ⟨ads ∪ Term.addressesIn t.subterms, hc.mono Finset.subset_union_left, ?_, hw, ?_⟩
  · intro a ha
    exact Finset.mem_union_right _ (Term.mem_addressesIn ha)
  · have h₁ := unmet_le_card (ads ∪ Term.addressesIn t.subterms) w
    have h₂ := Finset.card_union_le ads (Term.addressesIn t.subterms)
    have h₃ := Term.card_addressesIn_le t.subterms
    omega

theorem resolveValue_ok (hp : ample → p.Ample) (v : Sym) (hw : ample → w.StandsIn p) :
    let r := resolveValue p v w
    Step p ample w r.2 ∧ r.2.Has r.1 := by
  cases v with
  | prim t => exact primitive_ok p ample w t p.atoms
  | ref t wrapper =>
    by_cases h : ample
    · obtain ⟨ads, hc, hready⟩ := (hp h).ready (hw h) t
      exact resolveReference_ok ads (fun _ => hc) _ wrapper t fun _ => hready
    · exact resolveReference_ok ∅ (fun h' => absurd h' h) _ wrapper t fun h' => absurd h' h

theorem resolveValues_step (hp : ample → p.Ample) (vs : List Sym) (hw : ample → w.StandsIn p) :
    let r := resolveValues p vs w
    Step p ample w r.2 ∧ ∀ h ∈ r.1, r.2.Has h := by
  induction vs generalizing w with
  | nil => exact ⟨.refl w, fun h hh => by cases hh⟩
  | cons v vs ih =>
    obtain ⟨h₁, hv⟩ := resolveValue_ok hp v hw
    obtain ⟨h₂, hvs⟩ := ih fun h => h₁.standsIn (hw h)
    refine ⟨h₁.trans h₂, ?_⟩
    intro h hh
    rcases List.mem_cons.mp hh with rfl | hh
    · exact h₂.has hv
    · exact hvs h hh

theorem resolveValues_ok (p : Pass) (vs : List Sym) (w : Work) :
    let r := resolveValues p vs w
    Step p False w r.2 ∧ ∀ h ∈ r.1, r.2.Has h :=
  resolveValues_step (fun h => h.elim) vs fun h => h.elim

/-- The `i`-th value is resolved between steps over the values before it and after it. -/
theorem resolveValues_split (ample : Prop) (hp : ample → p.Ample) {vs : List Sym} {i : Nat} {v : Sym}
    (hv : vs[i]? = some v) (hw : ample → w.StandsIn p) :
    let before := (resolveValues p (vs.take i) w).2
    (resolveValues p vs w).1[i]? = some (resolveValue p v before).1 ∧ Step p ample w before ∧
      Step p ample (resolveValue p v before).2 (resolveValues p vs w).2 := by
  induction vs generalizing i w with
  | nil => cases hv
  | cons x vs ih =>
    have h₁ := (resolveValue_ok hp x hw).1
    have hw₁ : ample → (resolveValue p x w).2.StandsIn p := fun h => h₁.standsIn (hw h)
    cases i with
    | zero =>
      have hx : x = v := Option.some.inj hv
      subst hx
      exact ⟨rfl, .refl w, (resolveValues_step hp vs hw₁).1⟩
    | succ i =>
      obtain ⟨hget, h₂, h₃⟩ := ih hv hw₁
      exact ⟨hget, h₁.trans h₂, h₃⟩

theorem resolveValues_get (p : Pass) {vs : List Sym} {i : Nat} {v : Sym} (hv : vs[i]? = some v) (w : Work) :
    let before := (resolveValues p (vs.take i) w).2
    (resolveValues p vs w).1[i]? = some (resolveValue p v before).1 ∧
      (resolveValue p v before).2.store.Extends (resolveValues p vs w).2.store := by
  obtain ⟨hget, -, h⟩ := resolveValues_split (p := p) (w := w) False (fun h => h.elim) hv fun h => h.elim
  exact ⟨hget, h.extended⟩

end Resolve

end Symex
