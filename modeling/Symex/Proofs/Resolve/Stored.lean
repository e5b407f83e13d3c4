import Symex.Proofs.Resolve.Arrays

/-!
# Containers over a storage array

A list, a set or a map behind a wrapper is made from the arrays in its storage. A list has an entry for every index: the
one of the array where there is one, and null everywhere else. A set has the entries of the array, and a map pairs the
entries of two arrays by their indices.
-/

namespace Symex

/-- The primitive at a handle has a number as its value. -/
def Store.HasNumber (s : Store) (h : Handle) (n : Nat) : Prop := ∃ t as, s.get? h = some (.primitive t (.int n) as)

theorem Store.HasNumber.unique {s : Store} {h : Handle} {m n : Nat} (hm : s.HasNumber h m) (hn : s.HasNumber h n) :
    m = n := by
  obtain ⟨t, as, hm⟩ := hm
  obtain ⟨t', as', hn⟩ := hn
  cases hm.symm.trans hn
  rfl

theorem Store.HasNumber.mono {s s' : Store} (hs : ∀ (k : Handle) (m : Model), s.get? k = some m → s'.get? k = some m)
    {h : Handle} {n : Nat} (hn : s.HasNumber h n) : s'.HasNumber h n := by
  obtain ⟨t, as, hn⟩ := hn
  exact ⟨t, as, hs _ _ hn⟩

theorem Store.hasNumber_of_value? {s : Store} {h : Handle} {n : Nat}
    (hn : (s.get? h).bind Model.value? = some (.int n)) : s.HasNumber h n := by
  obtain ⟨m, hm, hv⟩ := Option.bind_eq_some_iff.mp hn
  cases m with
  | primitive t x as =>
    cases hv
    exact ⟨t, as, hm⟩
  | _ => cases hv

namespace Resolve

variable {p : Pass} {w w' : Work}

theorem index?_of_hasNumber {k : Handle} {n : Nat} (h : w.store.HasNumber k n) (hn : n < 2 ^ 63) :
    w.index? k = some n := by
  obtain ⟨t, as, h⟩ := h
  rw [Work.index?, h, Option.bind_some, Model.value?, Option.bind_some,
    Value.index?_int (Int.natCast_nonneg n) (by omega), Int.toNat_natCast]

/-! ### Numbers in arrays -/

/-- The length of an array and the indices of its entries. -/
structure Numbered (s : Store) (c : Container) (n : Nat) (is : List Nat) : Prop where
  length : s.HasNumber c.length n
  sorted : is.Pairwise (· < ·)
  lt : ∀ i ∈ is, i < n
  entries : List.Forall₂ (fun i e => s.HasNumber e.1 i) is c.entries

theorem LaidOut.numbered {a : Address} {s : Store} {c : Container} (h : LaidOut p w a s c)
    (hn : lengthAt p w a c.term < 2 ^ 63) :
    Numbered s c (lengthAt p w a c.term) ((groupsAt p w a c.term).map (·.1)) := by
  have hlt : ∀ i ∈ (groupsAt p w a c.term).map (·.1), i < lengthAt p w a c.term := by
    intro i hi
    obtain ⟨g, hg, rfl⟩ := List.mem_map.mp hi
    exact (mem_groupReads_iff.mp hg).1
  obtain ⟨as, hlength⟩ := h.length
  rw [Value.ofIndex_of_lt hn] at hlength
  refine ⟨⟨_, as, hlength⟩, pairwise_groups, hlt, List.forall₂_iff_get.mpr ⟨by rw [List.length_map, h.count], ?_⟩⟩
  intro i hi hi'
  rw [List.length_map] at hi
  have hentry := h.entries i _ _ (List.getElem?_eq_getElem hi) (List.getElem?_eq_getElem hi')
  have hnumber := hlt _ (List.mem_map_of_mem (List.getElem_mem hi))
  have hindex := hentry.index
  rw [Value.ofIndex_of_lt (hnumber.trans hn)] at hindex
  rw [List.get_eq_getElem, List.get_eq_getElem, List.getElem_map]
  exact ⟨_, _, hindex⟩

namespace Numbered

variable {c : Container} {n : Nat} {is : List Nat}

/-- The models are where they were before, if they were there. -/
theorem back {s s' : Store} (h : Numbered s' c n is)
    (hs : ∀ (k : Handle) (m : Model), s.get? k = some m → s'.get? k = some m)
    (hc : ∀ k ∈ (Model.container .array c).children, (s.get? k).isSome) : Numbered s c n is := by
  have hback : ∀ k ∈ (Model.container .array c).children, ∀ i, s'.HasNumber k i → s.HasNumber k i := by
    rintro k hk i ⟨t, as, hi⟩
    obtain ⟨m, hm⟩ := Option.isSome_iff_exists.mp (hc k hk)
    rw [hs k m hm] at hi
    exact ⟨t, as, hm.trans hi⟩
  refine ⟨hback _ List.mem_cons_self _ h.length, h.sorted, h.lt, ?_⟩
  have hentries := List.forall₂_iff_zip.mp h.entries
  refine List.forall₂_iff_zip.mpr ⟨hentries.1, fun {i e} hie => hback _ ?_ i (hentries.2 hie)⟩
  exact List.mem_cons_of_mem _ (List.mem_flatMap.mpr ⟨e, (List.of_mem_zip hie).2, List.mem_cons_self⟩)

theorem exists_number {s : Store} (h : Numbered s c n is) {e : Handle × Handle} (he : e ∈ c.entries) :
    ∃ i < n, s.HasNumber e.1 i := by
  obtain ⟨hlength, hentries⟩ := List.forall₂_iff_get.mp h.entries
  obtain ⟨j, hj, rfl⟩ := List.mem_iff_getElem.mp he
  have hj' : j < is.length := hlength ▸ hj
  exact ⟨is[j], h.lt _ (List.getElem_mem hj'), hentries j hj' hj⟩

variable (h : Numbered w.store c n is) (hn : n < 2 ^ 63)

include h hn

theorem indexed_eq : indexed w c = is.zip c.entries := by
  have hall : ∀ {is : List Nat} {es : List (Handle × Handle)}, (∀ i ∈ is, i < 2 ^ 63) →
      List.Forall₂ (fun i e => w.store.HasNumber e.1 i) is es →
      es.filterMap (fun e => (w.index? e.1).map fun i => (i, e)) = is.zip es := by
    intro is es hlt hes
    induction hes with
    | nil => rfl
    | cons he _ ih =>
      rw [List.filterMap_cons, index?_of_hasNumber he (hlt _ List.mem_cons_self),
        ih fun i hi => hlt i (List.mem_cons_of_mem _ hi)]
      rfl
  exact hall (fun i hi => (h.lt i hi).trans hn) h.entries

theorem mem_indexed_iff {i : Nat} {e : Handle × Handle} :
    (i, e) ∈ indexed w c ↔ e ∈ c.entries ∧ w.store.HasNumber e.1 i := by
  have hentries := List.forall₂_iff_zip.mp h.entries
  rw [h.indexed_eq hn]
  constructor
  · exact fun hie => ⟨(List.of_mem_zip hie).2, hentries.2 hie⟩
  · rintro ⟨he, hi⟩
    obtain ⟨j, hj, rfl⟩ := List.mem_iff_getElem.mp he
    have hj' : j < is.length := hentries.1 ▸ hj
    have hmem : (is[j], c.entries[j]) ∈ is.zip c.entries := by
      rw [← List.getElem_zip (h := by simp; omega)]
      exact List.getElem_mem _
    rwa [← (hentries.2 hmem).unique hi]

theorem lookup_indexed_iff {i : Nat} {e : Handle × Handle} :
    (indexed w c).lookup i = some e ↔ e ∈ c.entries ∧ w.store.HasNumber e.1 i := by
  have hnodup : ((indexed w c).map (·.1)).Nodup := by
    rw [h.indexed_eq hn, List.map_fst_zip h.entries.length_eq.le]
    exact h.sorted.imp fun hlt => Nat.ne_of_lt hlt
  rw [lookup_eq_some_iff_mem hnodup, h.mem_indexed_iff hn]

end Numbered

/-! ### Lists -/

/-- What a list has at an index that its storage has nothing at. -/
def IsGap (s : Store) (i : Nat) (e : Handle × Handle) : Prop :=
  (∃ t as, s.get? e.1 = some (.primitive t (.ofIndex i) as)) ∧ ∃ t, s.get? e.2 = some (.null t)

theorem isGap_nullEntry (array : Term) (elem : Ty) (i : Nat) (w : Work) :
    IsGap (nullEntry array elem i w).2.store i (nullEntry array elem i w).1 :=
  ⟨⟨_, _, (Store.extends_alloc _ _).get?_some (get?_alloc_fst _ _)⟩, _, get?_alloc_fst _ _⟩

theorem IsGap.mono {s s' : Store} (hs : ∀ (k : Handle) (m : Model), s.get? k = some m → s'.get? k = some m) {i : Nat}
    {e : Handle × Handle} (h : IsGap s i e) : IsGap s' i e := by
  obtain ⟨⟨t, as, hkey⟩, u, hvalue⟩ := h
  exact ⟨⟨t, as, hs _ _ hkey⟩, u, hs _ _ hvalue⟩

theorem denseEntries_spec (p : Pass) (storage : Container) {present : List (Nat × (Handle × Handle))} (elem : Ty)
    (is : List Nat) (hp : ∀ x ∈ present, w.store.Offers x.2.1 ∧ w.store.Offers x.2.2) :
    let r := denseEntries storage present elem is w
    List.Forall₂ (fun i e => present.lookup i = some e ∨ present.lookup i = none ∧ IsGap r.2.store i e) is r.1 := by
  induction is generalizing w with
  | nil => exact .nil
  | cons i is ih =>
    rw [denseEntries]
    cases hl : present.lookup i with
    | some e => exact .cons (Or.inl hl) (ih hp)
    | none =>
      obtain ⟨hstep, -⟩ := nullEntry_ok p False storage.term elem i w
      have hp' : ∀ x ∈ present, (nullEntry storage.term elem i w).2.store.Offers x.2.1 ∧
          (nullEntry storage.term elem i w).2.store.Offers x.2.2 :=
        fun x hx => ⟨(hp x hx).1.mono hstep.extended, (hp x hx).2.mono hstep.extended⟩
      have hlater := (denseEntries_ok p False storage present elem is hp').1
      refine .cons (Or.inr ⟨hl, ?_⟩) (ih hp')
      exact (isGap_nullEntry storage.term elem i w).mono fun k m hk => hlater.extended.get?_some hk

/-- A list over an array has the entries of the array at their indices, and null at all others. -/
structure Dense (s : Store) (a c : Container) (n : Nat) : Prop where
  length : c.length = a.length ∧ s.HasNumber c.length n
  count : c.entries.length = n
  index : ∀ i e, c.entries[i]? = some e → s.HasNumber e.1 i
  stored : ∀ f ∈ a.entries, ∃ i, s.HasNumber f.1 i ∧ c.entries[i]? = some f
  missing : ∀ i e, c.entries[i]? = some e → (∀ f ∈ a.entries, ¬ s.HasNumber f.1 i) →
    ∃ t, s.get? e.2 = some (.null t)

theorem dense_denseEntries (p : Pass) {a c : Container} {n : Nat} {is : List Nat} (h : Numbered w.store a n is)
    (hn : n < 2 ^ 63) (hfits : a.Fits w.store) (hlength : c.length = a.length) {elem : Ty}
    (hentries : denseEntries a (indexed w a) elem (List.range ((w.index? a.length).getD 0)) w = (c.entries, w'))
    {s : Store} (hs : ∀ (k : Handle) (m : Model), w'.store.get? k = some m → s.get? k = some m) : Dense s a c n := by
  rw [index?_of_hasNumber h.length hn, Option.getD_some] at hentries
  have hoffers : ∀ x ∈ indexed w a, w.store.Offers x.2.1 ∧ w.store.Offers x.2.2 :=
    fun x hx => hfits.entries _ (mem_indexed hx)
  have hstep := (denseEntries_ok p False a (indexed w a) elem (List.range n) hoffers).1
  have hspec := denseEntries_spec p a elem (List.range n) hoffers
  rw [hentries] at hstep hspec
  have hnumber : ∀ {k : Handle} {i : Nat}, w.store.HasNumber k i → s.HasNumber k i :=
    fun hi => (hi.mono fun k m hk => hstep.extended.get?_some hk).mono hs
  have hcount : c.entries.length = n := hspec.length_eq.symm.trans List.length_range
  have hat : ∀ {i : Nat} {e : Handle × Handle}, c.entries[i]? = some e → i < n ∧
      ((indexed w a).lookup i = some e ∨ (indexed w a).lookup i = none ∧ IsGap w'.store i e) := by
    intro i e he
    obtain ⟨hi, rfl⟩ := List.getElem?_eq_some_iff.mp he
    have hget := (List.forall₂_iff_get.mp hspec).2 i (by rw [List.length_range]; omega) hi
    rw [List.get_eq_getElem, List.get_eq_getElem, List.getElem_range] at hget
    exact ⟨by omega, hget⟩
  refine ⟨⟨hlength, hlength ▸ hnumber h.length⟩, hcount, ?_, ?_, ?_⟩
  · intro i e he
    obtain ⟨hi, hpresent | ⟨-, ⟨t, as, hkey⟩, -⟩⟩ := hat he
    · exact hnumber ((h.lookup_indexed_iff hn).mp hpresent).2
    · rw [Value.ofIndex_of_lt (hi.trans hn)] at hkey
      exact ⟨t, as, hs _ _ hkey⟩
  · intro f hf
    obtain ⟨i, hi, hnum⟩ := h.exists_number hf
    obtain ⟨e, he⟩ : ∃ e, c.entries[i]? = some e := ⟨_, List.getElem?_eq_getElem (by omega)⟩
    have hpresent := (hat he).2
    rw [(h.lookup_indexed_iff hn).mpr ⟨hf, hnum⟩] at hpresent
    rcases hpresent with hpresent | ⟨hpresent, -⟩
    · exact ⟨i, hnumber hnum, he.trans hpresent.symm⟩
    · cases hpresent
  · intro i e he hfree
    obtain ⟨-, hpresent | ⟨-, -, t, hnull⟩⟩ := hat he
    · obtain ⟨hmem, hnum⟩ := (h.lookup_indexed_iff hn).mp hpresent
      exact absurd (hnumber hnum) (hfree e hmem)
    · exact ⟨t, hs _ _ hnull⟩

/-! ### Maps -/

/-- What a map has in a slot that no value is stored in. -/
def IsDefault (s : Store) (ty : Ty) (h : Handle) : Prop :=
  if ty.isPrimitive then ∃ t, s.get? h = some (.primitive t (.default ty) {}) else ∃ t, s.get? h = some (.null t)

theorem IsDefault.mono {s s' : Store} (hs : ∀ (k : Handle) (m : Model), s.get? k = some m → s'.get? k = some m)
    {ty : Ty} {h : Handle} (hd : IsDefault s ty h) : IsDefault s' ty h := by
  unfold IsDefault at hd ⊢
  split at hd
  next hty =>
    obtain ⟨t, hd⟩ := hd
    rw [if_pos hty]
    exact ⟨t, hs _ _ hd⟩
  next hty =>
    obtain ⟨t, hd⟩ := hd
    rw [if_neg hty]
    exact ⟨t, hs _ _ hd⟩

theorem mapValue_spec (stored : List (Nat × Handle)) (values : Term) (ty : Ty) (i : Nat) (w : Work) :
    let r := mapValue stored values ty i w
    stored.lookup i = some r.1 ∨ stored.lookup i = none ∧ IsDefault r.2.store ty r.1 := by
  unfold mapValue
  split
  next h hl => exact Or.inl hl
  next hl =>
    refine Or.inr ⟨hl, ?_⟩
    unfold IsDefault
    split
    · exact ⟨_, get?_alloc_fst _ _⟩
    · exact (isGap_nullEntry values ty i w).2

theorem mapEntries_spec (p : Pass) {stored : List (Nat × Handle)} (values : Term) (ty : Ty)
    {es : List (Nat × (Handle × Handle))} (hstored : ∀ x ∈ stored, w.store.Offers x.2)
    (hes : ∀ x ∈ es, w.store.Offers x.2.1 ∧ w.store.Offers x.2.2) :
    let r := mapEntries stored values ty es w
    List.Forall₂ (fun x e => e.1 = x.2.2 ∧
      (stored.lookup x.1 = some e.2 ∨ stored.lookup x.1 = none ∧ IsDefault r.2.store ty e.2)) es r.1 := by
  induction es generalizing w with
  | nil => exact .nil
  | cons x es ih =>
    obtain ⟨i, slot, key⟩ := x
    obtain ⟨hstep, -⟩ := mapValue_ok p False values ty i hstored
    have hstored' := fun x hx => (hstored x hx).mono hstep.extended
    have hes' : ∀ x ∈ es, (mapValue stored values ty i w).2.store.Offers x.2.1 ∧
        (mapValue stored values ty i w).2.store.Offers x.2.2 := by
      intro x hx
      obtain ⟨hkey, hvalue⟩ := hes x (List.mem_cons_of_mem _ hx)
      exact ⟨hkey.mono hstep.extended, hvalue.mono hstep.extended⟩
    have hlater := (mapEntries_ok p False values ty hstored' hes').1
    refine .cons ⟨rfl, (mapValue_spec stored values ty i w).imp_right fun hd => ⟨hd.1, ?_⟩⟩ (ih hstored' hes')
    exact hd.2.mono fun k m hk => hlater.extended.get?_some hk

/-- The value that a map over arrays has in the slot `i`. -/
structure Slot (s : Store) (values : Option Container) (i : Nat) (h : Handle) : Prop where
  stored : ∀ v ∈ values, ∀ g ∈ v.entries, s.HasNumber g.1 i → h = g.2
  missing : (∀ v ∈ values, ∀ g ∈ v.entries, ¬ s.HasNumber g.1 i) → match values with
    | some v => ∃ elem, v.term.ty = .array elem ∧ IsDefault s elem h
    | none => ∃ t, s.get? h = some (.null t)

/-- A map over arrays has the elements of the first as its keys, each with the value in the same slot of the other. -/
structure Paired (s : Store) (keys : Container) (values : Option Container) (c : Container) : Prop where
  length : c.length = keys.length
  entries : List.Forall₂ (fun f e => e.1 = f.2 ∧ ∃ i, s.HasNumber f.1 i ∧ Slot s values i e.2) keys.entries c.entries

theorem lookup_storedIn (w : Work) (v : Container) (i : Nat) :
    (storedIn w (some v)).lookup i = ((indexed w v).lookup i).map (·.2) := by
  show ((indexed w v).map fun e => (e.1, e.2.2)).lookup i = _
  generalize indexed w v = es
  induction es with
  | nil => rfl
  | cons e es ih =>
    obtain ⟨j, e⟩ := e
    rw [List.map_cons, List.lookup_cons, List.lookup_cons]
    cases i == j with
    | true => rfl
    | false => exact ih

theorem slot_of_lookup {values : Option Container} {s : Store}
    (hs : ∀ (k : Handle) (m : Model), w.store.get? k = some m → s.get? k = some m)
    (hv : ∀ v ∈ values, v.term.isArray = true ∧ ∃ n is, n < 2 ^ 63 ∧ Numbered w.store v n is) {i : Nat} {h : Handle}
    (hl : (storedIn w values).lookup i = some h ∨
      (storedIn w values).lookup i = none ∧ IsDefault s (valueType values) h) : Slot s values i h := by
  cases values with
  | none =>
    rcases hl with hl | ⟨-, hd⟩
    · cases hl
    · exact ⟨nofun, fun _ => hd⟩
  | some v =>
    obtain ⟨harray, n, is, hn, hnum⟩ := hv v rfl
    rw [lookup_storedIn] at hl
    refine ⟨?_, ?_⟩
    · rintro _ ⟨⟩ g hg hi
      obtain ⟨j, -, hj⟩ := hnum.exists_number hg
      cases (hj.mono hs).unique hi
      rw [(hnum.lookup_indexed_iff hn).mpr ⟨hg, hj⟩] at hl
      rcases hl with hl | ⟨hl, -⟩
      · exact (Option.some.inj hl).symm
      · cases hl
    · intro hfree
      rcases hl with hl | ⟨-, hd⟩
      · obtain ⟨g, hg, -⟩ := Option.map_eq_some_iff.mp hl
        obtain ⟨hmem, hi⟩ := (hnum.lookup_indexed_iff hn).mp hg
        exact absurd (hi.mono hs) (hfree v rfl g hmem)
      · cases hty : v.term.ty with
        | array elem =>
          rw [valueType, Option.bind_some, hty] at hd
          exact ⟨elem, hty, hd⟩
        | _ =>
          rw [Term.isArray, hty] at harray
          cases harray

theorem offers_storedIn {values : Option Container} (h : ∀ v ∈ values, v.Fits w.store) :
    ∀ x ∈ storedIn w values, w.store.Offers x.2 := by
  intro x hx
  cases values with
  | none => cases hx
  | some v =>
    obtain ⟨e, he, rfl⟩ := List.mem_map.mp hx
    exact ((h v rfl).entries _ (mem_indexed he)).2

theorem paired_mapEntries (p : Pass) {keys c : Container} {values : Option Container} {n : Nat} {is : List Nat}
    (hk : Numbered w.store keys n is) (hn : n < 2 ^ 63) (hkeys : keys.Fits w.store)
    (hv : ∀ v ∈ values, v.term.isArray = true ∧ ∃ n is, n < 2 ^ 63 ∧ Numbered w.store v n is)
    (hvalues : ∀ v ∈ values, v.Fits w.store) (hlength : c.length = keys.length) {array : Term}
    (hentries : mapEntries (storedIn w values) array (valueType values) (indexed w keys) w = (c.entries, w'))
    {s : Store} (hs : ∀ (k : Handle) (m : Model), w'.store.get? k = some m → s.get? k = some m) :
    Paired s keys values c := by
  have hstored := offers_storedIn hvalues
  have hoffers : ∀ x ∈ indexed w keys, w.store.Offers x.2.1 ∧ w.store.Offers x.2.2 :=
    fun x hx => hkeys.entries _ (mem_indexed hx)
  have hstep := (mapEntries_ok p False array (valueType values) hstored hoffers).1
  have hspec := mapEntries_spec p array (valueType values) hstored hoffers
  rw [hentries] at hstep hspec
  have hs' : ∀ (k : Handle) (m : Model), w.store.get? k = some m → s.get? k = some m :=
    fun k m hm => hs k m (hstep.extended.get?_some hm)
  have hslots : keys.entries = (indexed w keys).map (·.2) := by
    rw [hk.indexed_eq hn, List.map_snd_zip hk.entries.length_eq.ge]
  obtain ⟨hcount, hat⟩ := List.forall₂_iff_zip.mp hspec
  refine ⟨hlength, hslots ▸ List.forall₂_map_left_iff.mpr (List.forall₂_iff_zip.mpr ⟨hcount, ?_⟩)⟩
  intro x e hxe
  obtain ⟨hkey, hvalue⟩ := hat hxe
  have hnumber := ((hk.mem_indexed_iff hn).mp (List.of_mem_zip hxe).1).2
  refine ⟨hkey, x.1, hnumber.mono hs', slot_of_lookup hs' hv ?_⟩
  exact hvalue.imp_right fun hd => ⟨hd.1, hd.2.mono hs⟩

end Resolve

end Symex
