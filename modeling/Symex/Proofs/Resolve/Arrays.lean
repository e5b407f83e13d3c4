import Mathlib.Algebra.Order.Ring.Int
import Symex.Proofs.Resolve.Aliased

/-!
# How arrays are laid out

The element reads of an array that have an index below the length are grouped by that index. Each group becomes one
entry: its index is made up, says which indices it stands for, and carries the number. So the numbers in an array are
increasing and below the number in its length. This is true of every array in the store, whatever term it was first
met as.
-/

namespace Symex

/-! ### Numbers as values -/

theorem Value.ofIndex_eq_bmod (n : Nat) : ofIndex n = int (Int.bmod n (2 ^ 64)) := rfl

theorem Value.ofIndex_of_lt {n : Nat} (h : n < 2 ^ 63) : ofIndex n = int n := by
  have hb : Int.bmod (n : Int) (2 ^ 64) = n := by
    apply Int.bmod_eq_of_le <;> omega
  rw [ofIndex_eq_bmod, hb]

theorem Value.index?_int {n : Int} (h₀ : 0 ≤ n) (h₁ : n < 2 ^ 64) : (int n).index? = some n.toNat := by
  simp only [index?, int?, Option.bind_some]
  have hsize : UInt64.size = 2 ^ 64 := rfl
  rw [if_pos ⟨h₀, by omega⟩]

theorem Value.index?_eq_some_iff {x : Value} {k : Nat} : x.index? = some k ↔ x = .int k ∧ k < 2 ^ 64 := by
  have hsize : UInt64.size = 2 ^ 64 := rfl
  constructor
  · intro h
    obtain ⟨i, hi, hk⟩ := Option.bind_eq_some_iff.mp h
    cases x with
    | int n =>
      cases hi
      split at hk
      next hn =>
        cases hk
        exact ⟨by rw [Int.toNat_of_nonneg hn.1], by omega⟩
      next => cases hk
    | _ => cases hi
  · rintro ⟨rfl, hk⟩
    rw [index?_int (Int.natCast_nonneg k) (by omega), Int.toNat_natCast]

namespace Resolve

variable {p : Pass} {ample : Prop} {w w' : Work}

/-! ### Groups of reads -/

section Groups

variable {index? : Term → Option Nat} {length : Nat} {reads : List (Term × Term)}

theorem find?_addRead (t : OrderedTable Nat (List (Term × Term))) (r : Term × Term) (j : Nat) :
    (addRead index? length t r).find? j =
      if index? r.1 = some j ∧ j < length then some ((t.find? j).getD [] ++ [r]) else t.find? j := by
  unfold addRead
  split
  next i hi =>
    split
    next hlt =>
      rw [OrderedTable.alter, OrderedTable.find?_insert]
      by_cases hj : j = i
      · simp [hj, hi, hlt]
      · have hne : ¬ i = j := fun e => hj e.symm
        simp [hj, hi, hne]
    next hge =>
      rw [if_neg]
      rintro ⟨hj, hlt⟩
      rw [hi] at hj
      cases hj
      exact hge hlt
  next hnone => simp [hnone]

theorem find?_groups (j : Nat) :
    (reads.foldl (addRead index? length) {}).find? j =
      if j < length ∧ (reads.filter fun r => index? r.1 = some j) ≠ [] then
        some (reads.filter fun r => index? r.1 = some j)
      else none := by
  induction reads using List.reverseRecOn with
  | nil => simp [OrderedTable.find?]
  | append_singleton reads r ih =>
    rw [List.foldl_append, List.foldl_cons, List.foldl_nil, find?_addRead, ih, List.filter_append]
    by_cases hr : index? r.1 = some j
    · by_cases hlt : j < length
      · by_cases hempty : (reads.filter fun r => index? r.1 = some j) = []
        · simp [hr, hlt, hempty]
        · simp [hr, hlt, hempty]
      · simp [hlt]
    · have hnone : [r].filter (fun r => index? r.1 = some j) = [] := by simp [hr]
      rw [hnone, List.append_nil, if_neg fun h => hr h.1]

theorem pairwise_groups : ((reads.foldl (addRead index? length) {}).toList.map (·.1)).Pairwise (· < ·) := by
  induction reads using List.reverseRecOn with
  | nil => exact .nil
  | append_singleton reads r ih =>
    rw [List.foldl_append, List.foldl_cons, List.foldl_nil, addRead]
    split
    · split
      · exact OrderedTable.pairwise_insertInto ih
      · exact ih
    · exact ih

/-- The groups are in increasing order, and the reads of an index are in one of them. -/
theorem mem_groupReads_iff {i : Nat} {rs : List (Term × Term)} :
    (i, rs) ∈ groupReads index? length reads ↔
      i < length ∧ rs ≠ [] ∧ rs = reads.filter fun r => index? r.1 = some i := by
  have hnodup : ((reads.foldl (addRead index? length) {}).toList.map (·.1)).Nodup :=
    pairwise_groups.imp fun h => Nat.ne_of_lt h
  rw [groupReads, ← lookup_eq_some_iff_mem hnodup]
  show (reads.foldl (addRead index? length) {}).find? i = some rs ↔ _
  rw [find?_groups]
  constructor
  · intro h
    split at h
    next hg =>
      cases h
      exact ⟨hg.1, hg.2, rfl⟩
    next => cases h
  · rintro ⟨hlt, hne, rfl⟩
    exact if_pos ⟨hlt, hne⟩

end Groups

/-! ### Entries -/

section Entries

variable {n : Nat} {inner : Inner}

/-- The same stand-ins, apart from those for the indices of `t`. -/
def SameBut (t : Term) (w w' : Work) : Prop :=
  ∀ k, (∀ i, k ≠ .localVar (indexName t.render i) .int) → w'.standIns.find? k = w.standIns.find? k

/-- What is put into the store for a group of reads of the array `t`, where `w` is the work that the array was begun
with. A primitive element is evaluated with the index standing for the index of the first read, and with no other
stand-ins than there were apart from those for `t` itself. -/
structure EntryFor (p : Pass) (w : Work) (t : Term) (elem : Ty) (s : Store) (j : Nat)
    (g : Nat × List (Term × Term)) (e : Handle × Handle) : Prop where
  index : s.get? e.1 = some (.primitive (.localVar (indexName t.render j) .int) (.ofIndex g.1)
    (.ofList (g.2.map (fun r => Atom.eq r.1 (.localVar (indexName t.render j) .int)) ++
      [Atom.ge (.localVar (indexName t.render j) .int) (.int 0),
        Atom.lt (.localVar (indexName t.render j) .int) (.length t)])))
  element : elem.isReference = false → ∃ u as, Step p False w u ∧ SameBut t w u ∧
    (∀ r rs, g.2 = r :: rs → u.standIns.find? (.localVar (indexName t.render j) .int) = some r.1) ∧
    s.get? e.2 = some (.primitive (.element t (.localVar (indexName t.render j) .int) elem)
      ((p.eval u (.element t (.localVar (indexName t.render j) .int) elem)).getD (.default elem)) as)

theorem EntryFor.mono {t : Term} {elem : Ty} {s s' : Store} {j : Nat} {g : Nat × List (Term × Term)}
    {e : Handle × Handle} (h : EntryFor p w t elem s j g e)
    (hs : ∀ (k : Handle) (m : Model), s.get? k = some m → s'.get? k = some m) : EntryFor p w t elem s' j g e := by
  refine ⟨hs _ _ h.index, fun helem => ?_⟩
  obtain ⟨u, as, hstep, hsame, hindex, hget⟩ := h.element helem
  exact ⟨u, as, hstep, hsame, hindex, hs _ _ hget⟩

variable (hi : InnerOk p False ∅ n inner)

include hi

/-- A key, and then a value that is a reference or a primitive. -/
theorem entry_get? (w : Work) (key : Model) (t : Term) (isRef : Bool) (scope : List Atom) :
    let k := w.alloc key
    let v := if isRef then inner t k.2 else p.primitive k.2 t scope
    v.2.store.get? k.1 = some key ∧
      (isRef = false → v.2.standIns = w.standIns ∧
        ∃ as, v.2.store.get? v.1 = some (.primitive t ((p.eval w t).getD (.default t.ty)) as)) := by
  cases isRef with
  | true => exact ⟨(hi t _ fun h => h.elim).1.extended.get?_some (get?_alloc_fst w key), nofun⟩
  | false =>
    have hstep := (primitive_ok p False (w.alloc key).2 t scope).1
    exact ⟨hstep.extended.get?_some (get?_alloc_fst w key), fun _ => ⟨rfl, _, get?_alloc_fst _ _⟩⟩

theorem entryFor_alloc {t : Term} {elem : Ty} {j : Nat} {g : Nat × List (Term × Term)} {w₀ : Work}
    (hw : Step p False w₀ w) (hsame : elem.isReference = false → SameBut t w₀ w)
    (hfirst : ∀ r rs, g.2 = r :: rs → w.standIns.find? (.localVar (indexName t.render j) .int) = some r.1)
    (scope : List Atom) :
    let index := Term.localVar (indexName t.render j) .int
    let k := w.alloc (.primitive index (.ofIndex g.1) (.ofList (g.2.map (fun r => Atom.eq r.1 index) ++
      [Atom.ge index (.int 0), Atom.lt index (.length t)])))
    let element := Term.element t index elem
    let v := if elem.isReference then inner element k.2 else p.primitive k.2 element scope
    EntryFor p w₀ t elem v.2.store j g (k.1, v.1) ∧ (elem.isReference = false → SameBut t w₀ v.2) := by
  intro index k element v
  obtain ⟨hkey, hvalue⟩ := entry_get? hi w (.primitive index (.ofIndex g.1) (.ofList
    (g.2.map (fun r => Atom.eq r.1 index) ++ [Atom.ge index (.int 0), Atom.lt index (.length t)]))) element
    elem.isReference scope
  refine ⟨⟨hkey, fun helem => ?_⟩, fun helem k hk => ?_⟩
  · obtain ⟨-, as, hget⟩ := hvalue helem
    exact ⟨w, as, hw, hsame helem, hfirst, hget⟩
  · obtain ⟨hstandIns, -⟩ := hvalue helem
    exact (congrArg (·.find? k) hstandIns).trans (hsame helem k hk)

theorem resolveEntry_spec {t : Term} {elem : Ty} (raw : List Atom) (j : Nat) {g : Nat × List (Term × Term)}
    (hg : ∀ r ∈ g.2, r.1 ∈ p.atoms.flatMap Atom.terms) {w₀ : Work} (hw : Step p False w₀ w)
    (hsame : elem.isReference = false → SameBut t w₀ w) :
    let r := resolveEntry p inner t elem raw j g w
    EntryFor p w₀ t elem r.2.store j g r.1 ∧ (elem.isReference = false → SameBut t w₀ r.2) := by
  obtain ⟨i, reads⟩ := g
  cases reads with
  | nil => exact entryFor_alloc hi hw hsame (fun _ _ h => by cases h) _
  | cons r reads =>
    have hstand := hw.trans (Step.standIn False w t.render j (hg r List.mem_cons_self))
    refine entryFor_alloc hi hstand (fun helem k hk => ?_) ?_ _
    · exact (Table.find?_insert_ne _ _ _ _ (hk j)).trans (hsame helem k hk)
    · rintro _ _ ⟨⟩
      exact Table.find?_insert_self _ _ _

theorem resolveEntries_spec {t : Term} (elem : Ty) (raw : List Atom) {gs : List (Nat × List (Term × Term))}
    (hgs : ∀ g ∈ gs, ∀ r ∈ g.2, r.1 ∈ p.atoms.flatMap Atom.terms) (j : Nat) {w₀ : Work} (hw : Step p False w₀ w)
    (hsame : elem.isReference = false → SameBut t w₀ w) :
    let r := resolveEntries p inner t elem raw j gs w
    r.1.length = gs.length ∧
      ∀ i g e, gs[i]? = some g → r.1[i]? = some e → EntryFor p w₀ t elem r.2.store (j + i) g e := by
  induction gs generalizing j w with
  | nil => exact ⟨rfl, nofun⟩
  | cons g gs ih =>
    have hg := hgs g List.mem_cons_self
    have hrest := fun g' hg' => hgs g' (List.mem_cons_of_mem _ hg')
    obtain ⟨hstep, -⟩ := resolveEntry_ok (w := w) hi t elem raw j hg fun h => h.elim
    obtain ⟨hentry, hsame'⟩ := resolveEntry_spec hi raw j hg hw hsame
    have hlater := (resolveEntries_ok (w := (resolveEntry p inner t elem raw j g w).2) hi t elem raw gs hrest (j + 1)
      fun h => h.elim).1
    obtain ⟨hlength, hentries⟩ := ih hrest (j + 1) (hw.trans hstep) hsame'
    refine ⟨congrArg (· + 1) hlength, ?_⟩
    intro i g' e hg' he
    cases i with
    | zero =>
      cases hg'
      cases he
      exact hentry.mono fun k m hk => hlater.extended.get?_some hk
    | succ i =>
      rw [← Nat.add_assoc, Nat.add_right_comm]
      exact hentries i g' e hg' he

end Entries

/-! ### Arrays -/

/-- The length that is found for the array `t` at an address. -/
def lengthAt (p : Pass) (w : Work) (a : Address) (t : Term) : Nat :=
  arrayLength p w t (t :: p.aliases a) (p.about (t :: p.aliases a))

theorem lengthAt_lt (hp : p.settings.defaultLength < 2 ^ 64) (w : Work) (a : Address) (t : Term) :
    lengthAt p w a t < 2 ^ 64 := by
  unfold lengthAt arrayLength
  dsimp only
  split
  next x _ =>
    split
    · cases hk : x.index? with
      | none => exact Nat.two_pow_pos 64
      | some k => exact (Value.index?_eq_some_iff.mp hk).2
    · exact hp
  next => exact hp

/-- The reads that become entries of the array `t` at an address. -/
def groupsAt (p : Pass) (w : Work) (a : Address) (t : Term) : List (Nat × List (Term × Term)) :=
  groupReads (p.index? w) (lengthAt p w a t) (elementReads (p.about (t :: p.aliases a)) (t :: p.aliases a))

/-- An array in the store that was begun with the work `w`. -/
structure LaidOut (p : Pass) (w : Work) (a : Address) (s : Store) (c : Container) : Prop where
  length : ∃ as, s.get? c.length = some (.primitive (.length c.term) (.ofIndex (lengthAt p w a c.term)) as)
  count : c.entries.length = (groupsAt p w a c.term).length
  entries : ∀ i g e, (groupsAt p w a c.term)[i]? = some g → c.entries[i]? = some e →
    EntryFor p w c.term (c.term.ty.element?.getD c.term.ty) s i g e

theorem LaidOut.mono {a : Address} {s s' : Store} {c : Container} (h : LaidOut p w a s c)
    (hs : ∀ (k : Handle) (m : Model), s.get? k = some m → s'.get? k = some m) : LaidOut p w a s' c := by
  obtain ⟨as, hlength⟩ := h.length
  exact ⟨⟨as, hs _ _ hlength⟩, h.count, fun i g e hg he => (h.entries i g e hg he).mono hs⟩

theorem laidOut_resolveArray {n : Nat} {inner : Inner} (hi : InnerOk p False ∅ n inner) (w : Work) (a : Address)
    (t : Term) (atoms : OrderedSet Atom) :
    let r := resolveArray p inner t (t :: p.aliases a) (p.about (t :: p.aliases a)) atoms w
    r.1.term = t ∧ LaidOut p w a r.2.store r.1 := by
  have hterms : ∀ g ∈ groupsAt p w a t, ∀ r ∈ g.2, r.1 ∈ p.atoms.flatMap Atom.terms := by
    intro g hg r hr
    obtain ⟨x, hx, hrx⟩ := List.mem_flatMap.mp (index_mem_terms (mem_of_mem_groupReads hg hr))
    exact List.mem_flatMap.mpr ⟨x, (List.mem_filter.mp hx).1, hrx⟩
  unfold resolveArray
  dsimp only
  generalize hl : w.alloc _ = l
  have hstep : Step p False w l.2 := by
    rw [← hl]
    exact .put rfl
  have hlength : ∃ as, l.2.store.get? l.1 = some (.primitive (.length t) (.ofIndex (lengthAt p w a t)) as) := by
    rw [← hl]
    exact ⟨_, get?_alloc_fst _ _⟩
  have hgroups : groupReads (p.index? l.2) (arrayLength p w t (t :: p.aliases a) (p.about (t :: p.aliases a)))
      (elementReads (p.about (t :: p.aliases a)) (t :: p.aliases a)) = groupsAt p w a t := by
    rw [← hl]
    rfl
  have hsame : SameBut t w l.2 := by
    rw [← hl]
    exact fun _ _ => rfl
  rw [hgroups]
  obtain ⟨hlater, -⟩ := resolveEntries_ok (w := l.2) hi t (t.ty.element?.getD t.ty) (p.about (t :: p.aliases a))
    (groupsAt p w a t) hterms 0 fun h => h.elim
  obtain ⟨hcount, hentries⟩ := resolveEntries_spec hi (t.ty.element?.getD t.ty) (p.about (t :: p.aliases a)) hterms 0
    hstep fun _ => hsame
  obtain ⟨as, hlength⟩ := hlength
  refine ⟨rfl, ⟨as, hlater.extended.get?_some hlength⟩, hcount, ?_⟩
  intro i g e hg he
  have hentry := hentries i g e hg he
  rwa [Nat.zero_add] at hentry

/-! ### What a model was made from -/

theorem container_of_kindName {m : Option Model} {kind : ContainerKind} (h : m.map Model.kindName = some kind.name) :
    ∃ c, m = some (.container kind c) := by
  obtain ⟨m, rfl, hm⟩ := Option.map_eq_some_iff.mp h
  cases m with
  | container k c =>
    have hk : k = kind := by
      cases k <;> cases kind <;> first | rfl | simp [Model.kindName, ContainerKind.name] at hm
    exact ⟨c, hk ▸ rfl⟩
  | _ => cases kind <;> simp [Model.kindName, ContainerKind.name] at hm

/-- A container behind a wrapper was made from the array that was found in its storage. -/
theorem resolveSequence_cases {inner : Inner} {t : Term} {asSet : Bool} {raw : List Atom} {atoms : OrderedSet Atom}
    {kind : ContainerKind} {c : Container}
    (h : resolveSequence p inner t asSet raw atoms w = (.container kind c, w')) :
    ∃ holder storage v, observedField p w raw t p.settings.layout.holder = some holder ∧
      resolveStorage p inner raw holder p.settings.layout.storage w = (some storage, v) ∧
      if asSet then kind = .set ∧ c = { storage with term := t, atoms } ∧ w' = v
      else kind = .list ∧ c.length = storage.length ∧
        denseEntries storage (indexed v storage) (storage.term.ty.element?.getD (.object rootClass))
          (List.range ((v.index? storage.length).getD 0)) v = (c.entries, w') := by
  unfold resolveSequence at h
  split at h
  · cases h
  next holder hholder =>
    split at h
    · cases h
    next storage v hstorage =>
      refine ⟨holder, storage, v, hholder, hstorage, ?_⟩
      cases asSet with
      | true =>
        cases h
        exact ⟨rfl, rfl, rfl⟩
      | false =>
        cases h
        exact ⟨rfl, rfl, rfl⟩

/-- What is stored in the slots of an array. -/
def storedIn (w : Work) (values : Option Container) : List (Nat × Handle) :=
  (values.map fun c => (indexed w c).map fun e => (e.1, e.2.2)).getD []

/-- The type that the values of a map are taken to have. -/
def valueType (values : Option Container) : Ty := (values.bind (·.term.ty.element?)).getD (.object rootClass)

theorem resolveMap_cases {inner : Inner} {t : Term} {raw : List Atom} {atoms : OrderedSet Atom} {kind : ContainerKind}
    {c : Container} (h : resolveMap p inner t raw atoms w = (.container kind c, w')) :
    ∃ holder keys v values u array, observedField p w raw t p.settings.layout.holder = some holder ∧
      resolveStorage p inner raw holder p.settings.layout.storage w = (some keys, v) ∧
      resolveStorage p inner raw holder p.settings.layout.values v = (values, u) ∧
      kind = .map ∧ c.length = keys.length ∧
      mapEntries (storedIn u values) array (valueType values) (indexed u keys) u = (c.entries, w') := by
  unfold resolveMap at h
  dsimp only at h
  split at h
  · cases h
  next holder hholder =>
    split at h
    · cases h
    next keys v hkeys =>
      cases h
      exact ⟨holder, keys, v, _, _, _, hholder, hkeys, rfl, rfl, rfl, rfl⟩

theorem resolveNew_array {inner : Inner} {t : Term} {wrapper : Option Wrapper} {a : Address} {c : Container}
    (h : resolveNew p inner t wrapper a w = (.container .array c, w')) :
    t.isArray = true ∧ resolveArray p inner t (t :: p.aliases a) (p.about (t :: p.aliases a))
      (canonical (p.about (t :: p.aliases a)) t (t :: p.aliases a)) w = (c, w') := by
  unfold resolveNew at h
  dsimp only at h
  split at h
  next harray =>
    cases h
    exact ⟨harray, rfl⟩
  next =>
    split at h
    · obtain ⟨_, _, _, -, -, hkind, -⟩ := resolveSequence_cases h
      cases hkind
    · obtain ⟨_, _, _, -, -, hkind, -⟩ := resolveSequence_cases h
      cases hkind
    · obtain ⟨_, _, _, _, _, _, -, -, -, hkind, -⟩ := resolveMap_cases h
      cases hkind
    · cases h

/-- A reference is answered at once, or with a new model in a slot that was set aside for it. -/
theorem resolveReference_cases (p : Pass) (n : Nat) (wrapper : Option Wrapper) (t : Term) (w : Work) :
    (p.address? w t = none ∧ ∃ as, resolveReference p (n + 1) wrapper t w = w.answer none (.object t as)) ∨
    ∃ a, p.address? w t = some a ∧
      (a.isNull = true ∧ resolveReference p (n + 1) wrapper t w = w.answer a (.null t) ∨
      a.isNull = false ∧
        ((∃ k, w.known.find? a = some k ∧ resolveReference p (n + 1) wrapper t w = w.answer a (.sameAs t k)) ∨
        w.known.find? a = none ∧ ∃ m v, resolveNew p (resolveReference p n none) t wrapper a (w.reserve a).2 = (m, v) ∧
          resolveReference p (n + 1) wrapper t w = ((w.reserve a).1, v.fill (w.reserve a).1 m))) := by
  rw [resolveReference]
  split
  next ha => exact Or.inl ⟨ha, _, rfl⟩
  next a ha =>
    refine Or.inr ⟨a, ha, ?_⟩
    split
    next hn => exact Or.inl ⟨hn, rfl⟩
    next hn =>
      refine Or.inr ⟨Bool.eq_false_iff.mpr hn, ?_⟩
      split
      next k hk => exact Or.inl ⟨k, hk, rfl⟩
      next hk => exact Or.inr ⟨hk, _, _, rfl, rfl⟩

/-- While a model is made, its address is known and its slot is open. -/
theorem slot_of_resolveNew {n : Nat} {t : Term} {wrapper : Option Wrapper} {a : Address} {m : Model} {v : Work}
    (h : resolveNew p (resolveReference p n none) t wrapper a (w.reserve a).2 = (m, v)) :
    Step p False (w.reserve a).2 v ∧ v.known.find? a = some (w.reserve a).1 ∧
      v.store.Gains (v.fill (w.reserve a).1 m).store (w.reserve a).1 m := by
  have hstep := (resolveNew_ok (w := (w.reserve a).2) (innerOk_reference p n) t wrapper a fun h => h.elim).step
  rw [h] at hstep
  have hsize : (w.reserve a).2.store.size = w.store.size + 1 := Store.size_reserve w.store
  have hlt : (w.reserve a).1.index < (w.reserve a).2.store.size := hsize ▸ Nat.lt_succ_self _
  have hopen : v.store.get? (w.reserve a).1 = none := by
    rw [hstep.extended.get?_eq hlt]
    exact (Store.get?_reserve w.store _).trans (Store.get?_eq_none_of_le (Nat.le_refl _))
  exact ⟨hstep, hstep.known (Table.find?_insert_self _ _ _), Store.gains_fill (hstep.extended.lt hlt) hopen m⟩

/-- A container that is new was made just now. -/
theorem Action.container (h : Action p ample w w') {k : Handle} {kind : ContainerKind} {c : Container}
    (hc : w'.store.get? k = some (.container kind c)) :
    w.store.get? k = some (.container kind c) ∨ Made p ample w k (.container kind c) := by
  cases h with
  | standIn => exact Or.inl hc
  | @put m hm =>
    rcases (Store.gains_alloc w.store m).cases_get? hc with ⟨-, rfl⟩ | hc
    · cases hm
    · exact Or.inl hc
  | reserve => exact Or.inl ((Store.get?_reserve w.store k).symm.trans hc)
  | @fill x m hlt hn hm hmade =>
    rcases (Store.gains_fill hlt hn m).cases_get? hc with ⟨rfl, rfl⟩ | hc
    · exact Or.inr hmade
    · exact Or.inl hc
  | _ =>
    rcases (Store.gains_alloc w.store _).cases_get? hc with ⟨-, he⟩ | hc
    · cases he
    · exact Or.inl hc

/-- Every array in the store was laid out for the address that it is known for. -/
def Work.Traced (p : Pass) (ample : Prop) (w : Work) : Prop :=
  ∀ k c, w.store.get? k = some (.container .array c) → ∃ a u, w.known.find? a = some k ∧ (ample → u.StandsIn p) ∧
    p.address? u c.term = some a ∧ c.term.isArray = true ∧ LaidOut p u a w.store c

theorem Made.traced {k : Handle} {c : Container} (h : Made p ample w k (.container .array c)) :
    ∃ a u, w.known.find? a = some k ∧ (ample → u.StandsIn p) ∧ p.address? u c.term = some a ∧ c.term.isArray = true ∧
      LaidOut p u a w.store c := by
  obtain ⟨n, t, wrapper, a, u, hstands, ha, rfl, hnew⟩ := h
  obtain ⟨harray, hmade⟩ := resolveNew_array hnew
  obtain ⟨hterm, hlaid⟩ := laidOut_resolveArray (innerOk_reference p n) (u.reserve a).2 a t
    (canonical (p.about (t :: p.aliases a)) t (t :: p.aliases a))
  rw [hmade] at hterm hlaid
  rw [← hterm] at ha harray
  exact ⟨a, (u.reserve a).2, (slot_of_resolveNew hnew).2.1, hstands, ha, harray, hlaid⟩

theorem Action.traced (h : Action p ample w w') (hw : w.Traced p ample) : w'.Traced p ample := by
  intro k c hc
  rcases h.container hc with hc | hmade
  · obtain ⟨a, u, hknown, hstands, ha, harray, hlaid⟩ := hw k c hc
    exact ⟨a, u, h.known hknown, hstands, ha, harray, hlaid.mono fun _ _ hk => h.get?_some hk⟩
  · obtain ⟨a, u, hknown, hstands, ha, harray, hlaid⟩ := hmade.traced
    exact ⟨a, u, h.known hknown, hstands, ha, harray, hlaid.mono fun _ _ hk => h.get?_some hk⟩

theorem Work.traced_empty : ({} : Work).Traced p ample := by
  intro k c hc
  rw [Store.get?_eq_none_of_le (Nat.zero_le _)] at hc
  cases hc

end Resolve

end Symex
