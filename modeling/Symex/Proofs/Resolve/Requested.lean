import Symex.Proofs.Resolve.Stored

/-!
# Requested containers

The storage of a container is looked up through its holder, and may have been resolved before. What is found there is
the model that is known for its address in the end, unless it is the container itself. A container that was requested
is described by these models alone.
-/

namespace Symex

namespace Resolve

variable {p : Pass} {w w' : Work}

/-! ### Storage -/

/-- What is there stays, and so do the handles of addresses. -/
structure Keeps (w w' : Work) : Prop where
  store : ∀ k m, w.store.get? k = some m → w'.store.get? k = some m
  known : ∀ a k, w.known.find? a = some k → w'.known.find? a = some k

theorem Keeps.trans {u : Work} (h : Keeps u w) (h' : Keeps w w') : Keeps u w' :=
  ⟨fun k m hm => h'.store k m (h.store k m hm), fun a k hk => h'.known a k (h.known a k hk)⟩

theorem Step.keeps {ample : Prop} (h : Step p ample w w') : Keeps w w' :=
  ⟨fun _ _ hm => h.extended.get?_some hm, fun _ _ hk => h.known hk⟩

/-- The array that the field `name` of `holder` leads to, where the field is looked up with the work `u` and the array
is the model that is known for the address in it. -/
def Stores (p : Pass) (u w : Work) (raw : List Atom) (holder : Term) (name : String) (a : Container) : Prop :=
  ∃ storage b k, observedField p u raw holder name = some storage ∧ p.address? u storage = some b ∧
    w.known.find? b = some k ∧ w.store.get? k = some (.container .array a)

/-- The length that an array in the store was laid out with: what its length evaluated to, or the default. -/
def HasLength (p : Pass) (w : Work) (a : Container) (n : Nat) : Prop :=
  ∃ b k u, w.known.find? b = some k ∧ w.store.get? k = some (.container .array a) ∧ u.StandsIn p ∧
    p.address? u a.term = some b ∧ LaidOut p u b w.store a ∧ n = lengthAt p u b a.term

theorem HasLength.numbered {a : Container} {n : Nat} (h : HasLength p w a n) (hn : n < 2 ^ 63) :
    ∃ is, Numbered w.store a n is := by
  obtain ⟨b, k, u, -, -, -, -, hlaid, rfl⟩ := h
  exact ⟨_, hlaid.numbered hn⟩

theorem Stores.exists_hasLength {u : Work} {raw : List Atom} {holder : Term} {name : String} {a : Container}
    (h : Stores p u w raw holder name a) (hw : Step p True {} w) :
    a.term.isArray = true ∧ ∃ n, HasLength p w a n := by
  obtain ⟨storage, b, k, -, -, -, hget⟩ := h
  have htraced : w.Traced p True := hw.keep (fun ha => ha.traced) Work.traced_empty
  obtain ⟨b', v, hknown, hstands, hb, harray, hlaid⟩ := htraced k a hget
  exact ⟨harray, _, b', k, v, hknown, hget, hstands trivial, hb, hlaid, rfl⟩

/-- A length in the store that is not negative is the length of the array. -/
theorem HasLength.eq_of_hasNumber {a : Container} {n i : Nat} (h : HasLength p w a n)
    (hp : p.settings.defaultLength < 2 ^ 64) (hi : w.store.HasNumber a.length i) : n = i ∧ n < 2 ^ 63 := by
  obtain ⟨b, k, u, -, -, -, -, hlaid, rfl⟩ := h
  obtain ⟨as, hlength⟩ := hlaid.length
  obtain ⟨t, as', hi⟩ := hi
  have hlt := lengthAt_lt hp u b a.term
  generalize lengthAt p u b a.term = n at hlength hlt
  obtain ⟨-, hindex, -⟩ := Model.primitive.inj (Option.some.inj (hi.symm.trans hlength))
  rw [Value.ofIndex_eq_bmod, Value.int.injEq, Int.bmod_def] at hindex
  omega

/-- The array that a model is. -/
def arrayOf : Option Model → Option Container
  | some (.container .array c) => some c
  | _ => none

/-- Where a handle leads to. -/
def target (w : Work) (h : Handle) : Handle :=
  match w.store.get? h with
  | some (.sameAs _ t) => t
  | _ => h

theorem arrayOf_eq_some_iff {m : Option Model} {a : Container} :
    arrayOf m = some a ↔ m = some (.container .array a) := by
  constructor
  · intro ha
    unfold arrayOf at ha
    split at ha
    · rw [Option.some.inj ha]
    · cases ha
  · rintro rfl
    rfl

theorem HasLength.mem_of_arrayLengths {a : Container} {n : Nat} (h : HasLength p w a n) (ns : List Nat)
    (hns : ∀ i < w.store.size, ∀ c ∈ arrayOf (w.store.get? ⟨i⟩), ∃ n ∈ ns,
      (w.store.get? c.length).bind Model.value? = some (.int n))
    (hp : p.settings.defaultLength < 2 ^ 64) : n ∈ ns ∧ n < 2 ^ 63 := by
  obtain ⟨-, k, -, -, hget, -⟩ := id h
  obtain ⟨i, hi, hlength⟩ := hns k.index (Store.lt_size_of_get? hget) a (arrayOf_eq_some_iff.mpr hget)
  obtain ⟨rfl, hlt⟩ := h.eq_of_hasNumber hp (Store.hasNumber_of_value? hlength)
  exact ⟨hi, hlt⟩

theorem target_of_get? {h : Handle} {m : Model} (hm : w.store.get? h = some m) (hne : ∀ t k, m ≠ .sameAs t k) :
    target w h = h := by
  unfold target
  split
  next t k ht => exact absurd (Option.some.inj (hm.symm.trans ht)) (hne t k)
  next => rfl

theorem target_of_sameAs {h k : Handle} {t : Term} (ht : w.store.get? h = some (.sameAs t k)) : target w h = k := by
  unfold target
  rw [ht]

/-- The array that a handle leads to. -/
def arrayAt (w : Work) (h : Handle) : Option Container := arrayOf (w.store.get? (target w h))

theorem resolveStorage_eq {inner : Inner} {raw : List Atom} {holder storage : Term} {name : String}
    (h : observedField p w raw holder name = some storage) :
    resolveStorage p inner raw holder name w =
      (arrayAt (inner storage w).2 (inner storage w).1, (inner storage w).2) := by
  rw [resolveStorage, h]
  show (match (inner storage w).2.store.get? (target (inner storage w).2 (inner storage w).1) with
    | some (.container .array c) => (some c, (inner storage w).2)
    | _ => (none, (inner storage w).2)) = _
  unfold arrayAt
  generalize (inner storage w).2.store.get? _ = m
  unfold arrayOf
  split <;> rfl

theorem arrayAt_sameAs {h k : Handle} {t : Term} (ht : w.store.get? h = some (.sameAs t k)) {a : Container} :
    arrayAt w h = some a ↔ w.store.get? k = some (.container .array a) := by
  rw [arrayAt, target_of_sameAs ht, arrayOf_eq_some_iff]

theorem arrayAt_of_get? {h : Handle} {m : Model} (hm : w.store.get? h = some m) (hne : ∀ t k, m ≠ .sameAs t k)
    {a : Container} : arrayAt w h = some a ↔ m = .container .array a := by
  rw [arrayAt, target_of_get? hm hne, hm, arrayOf_eq_some_iff, Option.some_inj]

/-- A model of a new address is not an alias. -/
theorem ne_sameAs_of_resolveNew {n : Nat} {t : Term} {wrapper : Option Wrapper} {b : Address} {m : Model}
    (h : resolveNew p (resolveReference p n none) t wrapper b w = (m, w')) (u : Term) (k : Handle) :
    m ≠ .sameAs u k := by
  have hfits := (resolveNew_ok (w := w) (innerOk_reference p n) t wrapper b fun h => h.elim).fits
  rw [h] at hfits
  rintro rfl
  exact hfits

/-- An array is found in a field exactly if it is the model of the address in the field, provided that the only slots
which are open are not for arrays. -/
theorem arrayAt_resolveReference {n : Nat} {t : Term} {b : Address} (hb : p.address? w t = some b) {final : Work}
    (hfinal : Step p True {} final) (hkeeps : Keeps (resolveReference p (n + 1) none t w).2 final)
    (hclosed : ∀ k a, w.known.find? b = some k → final.store.get? k = some (.container .array a) →
      (w.store.get? k).isSome) {a : Container} :
    arrayAt (resolveReference p (n + 1) none t w).2 (resolveReference p (n + 1) none t w).1 = some a ↔
      ∃ k, final.known.find? b = some k ∧ final.store.get? k = some (.container .array a) := by
  rcases resolveReference_cases p n none t w with ⟨hnone, -⟩ | ⟨b', hb', hcases⟩
  · cases hb.symm.trans hnone
  cases hb.symm.trans hb'
  rcases hcases with ⟨hnull, hr⟩ | ⟨-, ⟨k, hk, hr⟩ | ⟨-, m, v, hnew, hr⟩⟩
  · rw [hr, arrayAt_of_get? (get?_answer_fst w (some b) (.null t)) nofun]
    refine iff_of_false nofun ?_
    rintro ⟨k, hknown, hget⟩
    have hanswers := (hfinal.recorded.entries (hfinal.recorded.known hknown)).2
    rw [Work.Answers, if_pos hnull] at hanswers
    obtain ⟨u, hu⟩ := hanswers
    cases hget.symm.trans hu
  · rw [hr] at hkeeps
    rw [hr, arrayAt_sameAs (get?_answer_fst w (some b) (.sameAs t k))]
    constructor
    · exact fun hget => ⟨k, hkeeps.known b k hk, hkeeps.store k _ hget⟩
    · rintro ⟨k', hknown, hget⟩
      cases hknown.symm.trans (hkeeps.known b k hk)
      obtain ⟨m, hm⟩ := Option.isSome_iff_exists.mp (hclosed k a hk hget)
      have hm' := (Store.extends_alloc w.store (.sameAs t k)).get?_some hm
      cases hget.symm.trans (hkeeps.store k m hm')
      exact hm'
  · obtain ⟨-, hknown, hgains⟩ := slot_of_resolveNew hnew
    have hget := hgains.present
    rw [hr] at hkeeps
    rw [hr, arrayAt_of_get? hget (ne_sameAs_of_resolveNew hnew)]
    have hknown' := hkeeps.known b _ hknown
    have hget' := hkeeps.store _ _ hget
    constructor
    · rintro rfl
      exact ⟨_, hknown', hget'⟩
    · rintro ⟨k, hk, hka⟩
      cases hknown'.symm.trans hk
      exact Option.some.inj (hget'.symm.trans hka)

theorem stores_iff {n : Nat} {raw : List Atom} {holder : Term} {name : String} {found : Option Container}
    (h : resolveStorage p (resolveReference p (n + 1) none) raw holder name w = (found, w')) {final : Work}
    (hfinal : Step p True {} final) (hkeeps : Keeps w' final)
    (hclosed : ∀ b k a, w.known.find? b = some k → final.store.get? k = some (.container .array a) →
      (w.store.get? k).isSome) {a : Container} :
    found = some a ↔ Stores p w final raw holder name a := by
  cases hobserved : observedField p w raw holder name with
  | none =>
    rw [resolveStorage, hobserved] at h
    cases h
    refine iff_of_false nofun ?_
    rintro ⟨storage, b, k, hsome, -⟩
    cases hobserved.symm.trans hsome
  | some storage =>
    rw [resolveStorage_eq hobserved] at h
    cases h
    constructor
    · intro ha
      cases hb : p.address? w storage with
      | none =>
        rcases resolveReference_cases p n none storage w with ⟨-, as, hr⟩ | ⟨b, hb', -⟩
        · rw [hr, arrayAt_of_get? (get?_answer_fst w none (.object storage as)) nofun] at ha
          cases ha
        · cases hb.symm.trans hb'
      | some b =>
        obtain ⟨k, hknown, hget⟩ := (arrayAt_resolveReference hb hfinal hkeeps (hclosed b)).mp ha
        exact ⟨storage, b, k, hobserved, hb, hknown, hget⟩
    · rintro ⟨storage', b, k, hobserved', hb, hknown, hget⟩
      cases hobserved.symm.trans hobserved'
      exact (arrayAt_resolveReference hb hfinal hkeeps (hclosed b)).mpr ⟨k, hknown, hget⟩

/-! ### Requests -/

/-- How the references inside the model of a requested term are resolved. -/
def nested (p : Pass) (t : Term) : Inner := resolveReference p (p.bound + t.subterms.length - 1) none

/-- A reference to an address that was not met before. -/
structure IsFirst (p : Pass) (w : Work) (t : Term) (b : Address) : Prop where
  address : p.address? w t = some b
  nonnull : b.isNull = false
  unknown : w.known.find? b = none

theorem Pass.Ample.exists_budget (hp : p.Ample) (t : Term) :
    ∃ n, p.bound + t.subterms.length = n + 2 ∧ nested p t = resolveReference p (n + 1) none := by
  obtain ⟨ads, -, hcard⟩ := hp
  have hself : 0 < t.subterms.length := List.length_pos_of_mem t.self_mem_subterms
  refine ⟨p.bound + t.subterms.length - 2, by omega, ?_⟩
  rw [nested, show p.bound + t.subterms.length - 1 = p.bound + t.subterms.length - 2 + 1 by omega]

theorem resolveValue_of_first (hp : p.Ample) {t : Term} {b : Address} (hf : IsFirst p w t b)
    (wrapper : Option Wrapper) :
    let r := resolveNew p (nested p t) t wrapper b (w.reserve b).2
    resolveValue p (.ref t wrapper) w = ((w.reserve b).1, r.2.fill (w.reserve b).1 r.1) := by
  obtain ⟨n, hn, hnested⟩ := hp.exists_budget t
  rw [resolveValue, hn, resolveReference, hf.address]
  dsimp only
  rw [if_neg (Bool.eq_false_iff.mp hf.nonnull), hf.unknown, hnested]

theorem exists_first_of_container (hp : p.Ample) {t : Term} {wrapper : Option Wrapper} {kind : ContainerKind}
    {c : Container} (hc : (resolveValue p (.ref t wrapper) w).2.store.get? (resolveValue p (.ref t wrapper) w).1 =
      some (.container kind c)) : ∃ b, IsFirst p w t b := by
  obtain ⟨n, hn, -⟩ := hp.exists_budget t
  rw [resolveValue, hn] at hc
  rcases resolveReference_cases p (n + 1) wrapper t w with ⟨-, as, hr⟩ | ⟨b, hb, hcases⟩
  · rw [hr, get?_answer_fst] at hc
    cases hc
  rcases hcases with ⟨-, hr⟩ | ⟨hnull, ⟨k, -, hr⟩ | ⟨hunknown, -⟩⟩
  · rw [hr, get?_answer_fst] at hc
    cases hc
  · rw [hr, get?_answer_fst] at hc
    cases hc
  · exact ⟨b, hb, hnull, hunknown⟩

section Requested

variable {values : List Sym} {i : Nat} {t : Term} {wrapper : Option Wrapper}

/-- The model of the first reference to an address. -/
theorem requested_of_first (hp : p.Ample) (hv : values[i]? = some (.ref t wrapper))
    (hw : (resolveValues p (values.take i) {}).2 = w) {b : Address} (hf : IsFirst p w t b) {m : Model} {v : Work}
    (hnew : resolveNew p (nested p t) t wrapper b (w.reserve b).2 = (m, v)) :
    (resolveValues p values {}).1[i]? = some (w.reserve b).1 ∧
      (resolveValues p values {}).2.store.get? (w.reserve b).1 = some m ∧ Keeps v (resolveValues p values {}).2 := by
  obtain ⟨hget, -, hafter⟩ := resolveValues_split (p := p) (w := {}) False (fun h => h.elim) hv fun h => h.elim
  rw [hw, resolveValue_of_first hp hf wrapper, hnew] at hget hafter
  obtain ⟨-, -, hgains⟩ := slot_of_resolveNew hnew
  have hfill : Keeps v (v.fill (w.reserve b).1 m) := ⟨fun _ _ hk => hgains.get?_some hk, fun _ _ hk => hk⟩
  exact ⟨hget, hafter.keeps.store _ _ hgains.present, hfill.trans hafter.keeps⟩

/-- A container is not the answer to a later reference to its address. -/
theorem first_of_requested (hp : p.Ample) (hv : values[i]? = some (.ref t wrapper)) {h : Handle}
    (hh : (resolveValues p values {}).1[i]? = some h) {kind : ContainerKind} {c : Container}
    (hc : (resolveValues p values {}).2.store.get? h = some (.container kind c)) :
    let w := (resolveValues p (values.take i) {}).2
    ∃ b v, IsFirst p w t b ∧ h = (w.reserve b).1 ∧
      resolveNew p (nested p t) t wrapper b (w.reserve b).2 = (.container kind c, v) ∧
      Keeps v (resolveValues p values {}).2 := by
  obtain ⟨hget, -, hafter⟩ := resolveValues_split (p := p) (w := {}) False (fun h => h.elim) hv fun h => h.elim
  obtain ⟨-, hhas⟩ := resolveValue_ok (p := p) (w := (resolveValues p (values.take i) {}).2)
    (fun h : False => h.elim) (.ref t wrapper) fun h => h.elim
  obtain ⟨m, hm⟩ := Option.isSome_iff_exists.mp hhas
  have hm' := hafter.keeps.store _ m hm
  rw [Option.some.inj (hget.symm.trans hh), hc] at hm'
  cases hm'
  obtain ⟨b, hf⟩ := exists_first_of_container hp hm
  obtain ⟨hslot, hmodel, hkeeps⟩ := requested_of_first hp hv rfl hf (Prod.eta _).symm
  have hslot' := Option.some.inj (hh.symm.trans hslot)
  rw [← hslot', hc] at hmodel
  exact ⟨b, _, hf, hslot', Prod.ext (Option.some.inj hmodel).symm rfl, hkeeps⟩

/-- While a model is made, its slot is the only one that is open. -/
theorem isSome_of_ne_slot {b : Address} {u : Work}
    (hu : Step p False ((resolveValues p values {}).2.reserve b).2 u) {k : Handle} (hk : k.index < u.store.size)
    (hne : k ≠ ((resolveValues p values {}).2.reserve b).1) : (u.store.get? k).isSome := by
  have hbefore := (resolveValues_ok p values {}).1
  generalize (resolveValues p values {}).2 = w at hbefore hu hne
  have hsize : (w.reserve b).2.store.size = w.store.size + 1 := Store.size_reserve w.store
  rcases Nat.lt_trichotomy k.index w.store.size with hlt | heq | hgt
  · have hreserve : (w.reserve b).2.store.get? k = w.store.get? k := Store.get?_reserve w.store k
    rw [hu.extended.get?_eq (by omega), hreserve]
    exact hbefore.built (Nat.zero_le _) hlt
  · cases k
    exact absurd (congrArg Handle.mk heq) hne
  · exact hu.built (by omega) hk

theorem sound_of_step {b : Address} {u : Work}
    (hu : Step p False ((resolveValues p values {}).2.reserve b).2 u) : u.Sound := by
  have hbefore : (resolveValues p values {}).2.Sound :=
    (resolveValues_ok p values {}).1.keep (fun ha => ha.sound) Work.sound_empty
  exact hu.keep (fun ha => ha.sound) (hbefore.reserve b)

/-- While a model is made that is no array, the arrays in the storage are the ones that are found there. -/
theorem found_iff (hp : p.Ample) {b : Address} {u u' : Work}
    (hu : Step p False ((resolveValues p values {}).2.reserve b).2 u) {raw : List Atom} {holder : Term} {name : String}
    {found : Option Container} (h : resolveStorage p (nested p t) raw holder name u = (found, u')) {final : Work}
    (hfinal : Step p True {} final) (hkeeps : Keeps u' final)
    (hslot : ∀ a, final.store.get? ((resolveValues p values {}).2.reserve b).1 ≠ some (.container .array a))
    {a : Container} : found = some a ↔ Stores p u final raw holder name a := by
  obtain ⟨n, -, hnested⟩ := hp.exists_budget t
  rw [hnested] at h
  refine stores_iff h hfinal hkeeps ?_
  intro b' k a' hk ha'
  refine isSome_of_ne_slot hu ((sound_of_step hu).known hk).1 ?_
  rintro rfl
  exact hslot a' ha'

end Requested

theorem has_children_of_fits {u : Work} (hu : u.Sound) {a : Container} (ha : a.Fits u.store) (kind : ContainerKind) :
    ∀ k ∈ (Model.container kind a).children, u.Has k := by
  intro k hk
  rcases List.mem_cons.mp hk with rfl | hk
  · obtain ⟨t, v, as, hlength⟩ := hu.primitive_of_offers ha.length
    exact Option.isSome_iff_exists.mpr ⟨_, hlength⟩
  · obtain ⟨e, he, hk⟩ := List.mem_flatMap.mp hk
    obtain ⟨hkey, hvalue⟩ := ha.entries e he
    rcases List.mem_pair.mp hk with rfl | rfl
    · exact hu.has_of_offers hkey
    · exact hu.has_of_offers hvalue

theorem HasLength.numbered_before {u final : Work} {a : Container} {n : Nat} (h : HasLength p final a n)
    (hn : n < 2 ^ 63) (hu : u.Sound) (ha : a.Fits u.store) (hkeeps : Keeps u final) :
    ∃ is, Numbered u.store a n is := by
  obtain ⟨is, his⟩ := h.numbered hn
  exact ⟨is, his.back hkeeps.store (has_children_of_fits hu ha .array)⟩

theorem step_of_resolveStorage {n : Nat} {raw : List Atom} {holder : Term} {name : String} {found : Option Container}
    (h : resolveStorage p (resolveReference p n none) raw holder name w = (found, w')) :
    Step p False w w' ∧ ∀ a, found = some a → a.Fits w'.store := by
  have hok := resolveStorage_ok (innerOk_reference p n) raw name fun h => (h.elim : Ready p ∅ n w holder)
  rwa [h] at hok

theorem isArray_of_resolveNew {inner : Inner} {t : Term} {wrapper : Option Wrapper} {b : Address}
    {kind : ContainerKind} {c : Container} (h : resolveNew p inner t wrapper b w = (.container kind c, w'))
    (hkind : kind ≠ .array) : t.isArray = false := by
  refine Bool.eq_false_iff.mpr fun harray => hkind ?_
  unfold resolveNew at h
  dsimp only at h
  rw [if_pos harray] at h
  cases h
  rfl

theorem resolveNew_sequence (p : Pass) (inner : Inner) {t : Term} (ht : t.isArray = false) (asSet : Bool) (b : Address)
    (w : Work) :
    resolveNew p inner t (some (if asSet then .set else .list)) b w =
      resolveSequence p inner t asSet (p.about (t :: p.aliases b))
        (canonical (p.about (t :: p.aliases b)) t (t :: p.aliases b)) w := by
  unfold resolveNew
  dsimp only
  rw [if_neg (Bool.eq_false_iff.mp ht)]
  cases asSet <;> rfl

theorem resolveSequence_set {inner : Inner} {t holder : Term} {raw : List Atom} (atoms : OrderedSet Atom)
    {storage : Container} (hholder : observedField p w raw t p.settings.layout.holder = some holder)
    (hstorage : resolveStorage p inner raw holder p.settings.layout.storage w = (some storage, w')) :
    resolveSequence p inner t true raw atoms w = (.container .set { storage with term := t, atoms }, w') := by
  rw [resolveSequence, hholder]
  dsimp only
  rw [hstorage]
  rfl

/-- A requested list is dense over the array in its storage. The same request for a set gives the entries of that
array as they are. -/
theorem resolve_list_over_set (settings : Settings) (s : State) (m : Assignment) (snapshot : Snapshot)
    {values : List Sym} {i : Nat} {t : Term} (hv : values[i]? = some (.ref t (some .list))) {h : Handle}
    (hh : (resolve settings s m snapshot values).params[i]? = some h) {c : Container}
    (hc : (resolve settings s m snapshot values).store.get? h = some (.container .list c)) :
    let p := Pass.start settings s m snapshot
    let w := (resolveValues p (values.take i) {}).2
    let final := (resolveValues p values {}).2
    let sets := values.set i (.ref t (some .set))
    let final' := (resolveValues p sets {}).2
    ∃ b holder a n, p.address? w t = some b ∧
      observedField p w (p.about (t :: p.aliases b)) t settings.layout.holder = some holder ∧
      Stores p w final (p.about (t :: p.aliases b)) holder settings.layout.storage a ∧
      HasLength p final a n ∧ (n < 2 ^ 63 → Dense (resolve settings s m snapshot values).store a c n) ∧
      Stores p w final' (p.about (t :: p.aliases b)) holder settings.layout.storage a ∧
      (∀ k ∈ (Model.container .array a).children, final'.store.get? k = final.store.get? k) ∧
      (resolve settings s m snapshot sets).params[i]? = some h ∧
      ∃ c', (resolve settings s m snapshot sets).store.get? h = some (.container .set c') ∧ c'.length = a.length ∧
        c'.entries = a.entries := by
  intro p w final sets final'
  have hample : p.Ample := ample_start settings s m snapshot
  have hfinal : Step p True {} final := step_start settings s m snapshot values
  have hfinal' : Step p True {} final' := step_start settings s m snapshot sets
  obtain ⟨b, v, hf, rfl, hnew, hkeeps⟩ := first_of_requested hample hv hh hc
  have harray := isArray_of_resolveNew hnew nofun
  have hsequence := (resolveNew_sequence p (nested p t) harray false b (w.reserve b).2).symm.trans hnew
  obtain ⟨holder, a, u, hholder, hstorage, hrest⟩ := resolveSequence_cases hsequence
  rw [if_neg Bool.false_ne_true] at hrest
  obtain ⟨-, hlength, hentries⟩ := hrest
  have hnew' : resolveNew p (nested p t) t (some .set) b (w.reserve b).2 = _ :=
    (resolveNew_sequence p (nested p t) harray true b (w.reserve b).2).trans (resolveSequence_set _ hholder hstorage)
  obtain ⟨hu, hfits⟩ := step_of_resolveStorage hstorage
  have hsound := sound_of_step hu
  have hdense := (denseEntries_ok p False a (indexed u a) (a.term.ty.element?.getD (.object rootClass))
    (List.range ((u.index? a.length).getD 0)) fun x hx => (hfits a rfl).entries _ (mem_indexed hx)).1
  rw [hentries] at hdense
  have hu' : Keeps u final := hdense.keeps.trans hkeeps
  have hstores := (found_iff hample (.refl _) hstorage hfinal hu' fun a ha => by cases hc.symm.trans ha).mp rfl
  obtain ⟨-, n, hn⟩ := hstores.exists_hasLength hfinal
  -- The same work is done for a set up to where the array in the storage is there.
  have htake : sets.take i = values.take i := List.take_set_of_le (Nat.le_refl i)
  have hv' : sets[i]? = some (.ref t (some .set)) :=
    List.getElem?_set_self (List.getElem?_eq_some_iff.mp hv).1
  obtain ⟨hh', hc', hset⟩ := requested_of_first hample hv' (by rw [htake]) hf hnew'
  have hstores' := (found_iff hample (.refl _) hstorage hfinal' hset fun a ha => by cases hc'.symm.trans ha).mp rfl
  refine ⟨b, holder, a, n, hf.address, hholder, hstores, hn, ?_, hstores', ?_, hh', _, hc', rfl, rfl⟩
  · intro hlt
    obtain ⟨is, his⟩ := hn.numbered_before hlt hsound (hfits a rfl) hu'
    exact dense_denseEntries p his hlt (hfits a rfl) hlength hentries hkeeps.store
  · intro k hk
    obtain ⟨m, hm⟩ := Option.isSome_iff_exists.mp (has_children_of_fits hsound (hfits a rfl) .array k hk)
    rw [hset.store k m hm, hu'.store k m hm]

/-- A container `x`. Its holder has an array of three keys, of which one is known, and an array of values. -/
def shelf : State :=
  let holder : Term := .field (.param "x" (.object "Shelf")) ⟨"Shelf", "elementData", .object "Holder"⟩
  let keys : Term := .field holder ⟨"Holder", "storage", .array .int⟩
  let stored : Term := .field holder ⟨"Holder", "values", .array .int⟩
  { path := { hard := [.eq (.length keys) (.int 3), .eq (.element keys (.int 1) .int) (.int 7),
    .eq (.element stored (.int 2) .int) (.int 9)] } }

def shelfValues : Assignment :=
  let x : Term := .param "x" (.object "Shelf")
  let holder : Term := .field x ⟨"Shelf", "elementData", .object "Holder"⟩
  let keys : Term := .field holder ⟨"Holder", "storage", .array .int⟩
  let stored : Term := .field holder ⟨"Holder", "values", .array .int⟩
  .ofList [(x, .addr ⟨1⟩), (holder, .addr ⟨2⟩), (keys, .addr ⟨3⟩), (stored, .addr ⟨4⟩), (.length keys, .int 3),
    (.element keys (.int 1) .int, .int 7), (.element stored (.int 2) .int, .int 9)]

def shelfRequest (wrapper : Wrapper) : List Sym := [.ref (.param "x" (.object "Shelf")) (some wrapper)]

theorem resolve_list_over_set_shelf :
    let p := Pass.start {} shelf shelfValues .initial
    let r := resolve {} shelf shelfValues .initial (shelfRequest .list)
    let r' := resolve {} shelf shelfValues .initial (shelfRequest .set)
    ∃ a c c', r.store.get? ⟨0⟩ = some (.container .list c) ∧ r'.store.get? ⟨0⟩ = some (.container .set c') ∧
      HasLength p (resolveValues p (shelfRequest .list) {}).2 a 3 ∧ Dense r.store a c 3 ∧ c'.entries = a.entries := by
  intro p r r'
  have hkind : (r.store.get? ⟨0⟩).map Model.kindName = some ContainerKind.list.name := by decide +kernel
  obtain ⟨c, hc⟩ := container_of_kindName hkind
  have hh : r.params[0]? = some ⟨0⟩ := by decide +kernel
  obtain ⟨b, holder, a, n, -, -, -, hn, hdense, -, -, -, c', hc', -, he⟩ :=
    resolve_list_over_set {} shelf shelfValues .initial (i := 0) rfl hh hc
  obtain ⟨hmem, hlt⟩ := hn.mem_of_arrayLengths [3] (by decide +kernel) (by decide)
  cases List.mem_singleton.mp hmem
  exact ⟨a, c, c', hc, hc', hn, hdense hlt, he⟩

/-- The work when the keys of a map are there and its values are looked for. -/
def afterKeys (p : Pass) (w : Work) (t holder : Term) (b : Address) : Work :=
  (resolveStorage p (nested p t) (p.about (t :: p.aliases b)) holder p.settings.layout.storage (w.reserve b).2).2

theorem resolveNew_map (p : Pass) (inner : Inner) {t : Term} (ht : t.isArray = false) (b : Address) (w : Work) :
    resolveNew p inner t (some .map) b w =
      resolveMap p inner t (p.about (t :: p.aliases b))
        (canonical (p.about (t :: p.aliases b)) t (t :: p.aliases b)) w := by
  unfold resolveNew
  dsimp only
  rw [if_neg (Bool.eq_false_iff.mp ht)]

/-- A requested map pairs the elements of the array of its keys with those of the array of its values, by slot. -/
theorem resolve_map_paired (settings : Settings) (s : State) (m : Assignment) (snapshot : Snapshot)
    {values : List Sym} {i : Nat} {t : Term} (hv : values[i]? = some (.ref t (some .map))) {h : Handle}
    (hh : (resolve settings s m snapshot values).params[i]? = some h) {c : Container}
    (hc : (resolve settings s m snapshot values).store.get? h = some (.container .map c)) :
    let p := Pass.start settings s m snapshot
    let w := (resolveValues p (values.take i) {}).2
    let final := (resolveValues p values {}).2
    ∃ b holder keys stored n, p.address? w t = some b ∧
      observedField p w (p.about (t :: p.aliases b)) t settings.layout.holder = some holder ∧
      Stores p w final (p.about (t :: p.aliases b)) holder settings.layout.storage keys ∧ HasLength p final keys n ∧
      (∀ v, stored = some v ↔ Stores p (afterKeys p w t holder b) final (p.about (t :: p.aliases b)) holder
        settings.layout.values v) ∧
      (∀ v, stored = some v → ∃ n, HasLength p final v n) ∧
      (n < 2 ^ 63 → (∀ v, stored = some v → ∃ n < 2 ^ 63, HasLength p final v n) →
        Paired (resolve settings s m snapshot values).store keys stored c) := by
  intro p w final
  have hample : p.Ample := ample_start settings s m snapshot
  have hfinal : Step p True {} final := step_start settings s m snapshot values
  obtain ⟨b, v, hf, rfl, hnew, hkeeps⟩ := first_of_requested hample hv hh hc
  have harray := isArray_of_resolveNew hnew nofun
  have hmap := (resolveNew_map p (nested p t) harray b (w.reserve b).2).symm.trans hnew
  obtain ⟨holder, keys, u, stored, u', array, hholder, hkeys, hstored, -, hlength, hentries⟩ := resolveMap_cases hmap
  have hslot : ∀ a, final.store.get? (w.reserve b).1 ≠ some (.container .array a) :=
    fun a ha => by cases hc.symm.trans ha
  obtain ⟨hu, hfits⟩ := step_of_resolveStorage hkeys
  obtain ⟨hu', hfits'⟩ := step_of_resolveStorage hstored
  have hkeysFit := (hfits keys rfl).mono hu'.extended
  have hsound := sound_of_step (hu.trans hu')
  have hpaired := (mapEntries_ok p False array (valueType stored) (offers_storedIn hfits')
    fun x (hx : x ∈ indexed u' keys) => hkeysFit.entries _ (mem_indexed hx)).1
  rw [hentries] at hpaired
  have hfound : Keeps u' final := hpaired.keeps.trans hkeeps
  have hstores := (found_iff hample (.refl _) hkeys hfinal (hu'.keeps.trans hfound) hslot).mp rfl
  obtain ⟨-, n, hn⟩ := hstores.exists_hasLength hfinal
  have hvalues : ∀ v, stored = some v ↔ Stores p u final (p.about (t :: p.aliases b)) holder settings.layout.values v :=
    fun v => found_iff hample hu hstored hfinal hfound hslot
  have hafter : afterKeys p w t holder b = u := by rw [afterKeys, hkeys]
  refine ⟨b, holder, keys, stored, n, hf.address, hholder, hstores, hn, hafter ▸ hvalues, ?_, ?_⟩
  · intro v hv
    exact ((hvalues v).mp hv).exists_hasLength hfinal |>.2
  · intro hlt hlts
    obtain ⟨is, his⟩ := hn.numbered_before hlt hsound hkeysFit hfound
    refine paired_mapEntries p his hlt hkeysFit ?_ hfits' hlength hentries hkeeps.store
    intro v hv
    obtain ⟨n', hlt', hn'⟩ := hlts v hv
    obtain ⟨is', his'⟩ := hn'.numbered_before hlt' hsound (hfits' v hv) hfound
    exact ⟨((hvalues v).mp hv).exists_hasLength hfinal |>.1, n', is', hlt', his'⟩

theorem resolve_map_paired_shelf :
    let p := Pass.start {} shelf shelfValues .current
    let r := resolve {} shelf shelfValues .current (shelfRequest .map)
    let final := (resolveValues p (shelfRequest .map) {}).2
    ∃ keys stored c n, r.store.get? ⟨0⟩ = some (.container .map c) ∧ HasLength p final keys n ∧
      Paired r.store keys stored c := by
  intro p r final
  have hkind : (r.store.get? ⟨0⟩).map Model.kindName = some ContainerKind.map.name := by decide +kernel
  obtain ⟨c, hc⟩ := container_of_kindName hkind
  have hh : r.params[0]? = some ⟨0⟩ := by decide +kernel
  obtain ⟨b, holder, keys, stored, n, -, -, -, hn, -, hstored, hpaired⟩ :=
    resolve_map_paired {} shelf shelfValues .current (i := 0) rfl hh hc
  have hlt : ∀ {a : Container} {n : Nat}, HasLength p final a n → n < 2 ^ 63 :=
    fun h => (h.mem_of_arrayLengths [3, 100] (by decide +kernel) (by decide)).2
  refine ⟨keys, stored, c, n, hc, hn, hpaired (hlt hn) fun v hv => ?_⟩
  obtain ⟨n', hn'⟩ := hstored v hv
  exact ⟨n', hlt hn', hn'⟩

end Resolve

end Symex
