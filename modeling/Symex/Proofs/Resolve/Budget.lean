import Mathlib.Data.Finset.Card
import Symex.Proofs.Data.Lookup
import Symex.Resolve.Basic

/-!
# The budget of nested models

Every address that a pass can come upon is a value of the assignment, or a constant of the path, of the writes or of
the term that is asked for. There are fewer of them than the budget allows for, and each model that is begun takes
one of them for good, so the budget is never used up.
-/

namespace Symex

/-- The address constants in a term are among the given addresses. -/
def Term.Confined (ads : Finset Address) (t : Term) : Prop :=
  ∀ a : Address, Term.const (.addr a) ∈ t.subterms → a ∈ ads

namespace Term

variable {ads : Finset Address}

theorem Confined.mono {t : Term} {more : Finset Address} (h : t.Confined ads) (hs : ads ⊆ more) : t.Confined more :=
  fun a ha => hs (h a ha)

theorem confined_localVar (name : String) (ty : Ty) : (localVar name ty).Confined ads := by
  intro a ha
  cases List.mem_singleton.mp ha

theorem Confined.field {b : Term} (h : b.Confined ads) (f : Symex.Field) : (Term.field b f).Confined ads := by
  intro a ha
  rcases List.mem_cons.mp ha with he | ha
  · cases he
  · exact h a ha

theorem Confined.element {b i : Term} (hb : b.Confined ads) (hi : i.Confined ads) (e : Ty) :
    (Term.element b i e).Confined ads := by
  intro a ha
  rcases List.mem_cons.mp ha with he | ha
  · cases he
  · rcases List.mem_append.mp ha with ha | ha
    · exact hb a ha
    · exact hi a ha

/-- The address of a constant. -/
def constAddress? : Term → Option Address
  | const (.addr a) => some a
  | _ => none

/-- The address constants in a list of terms. -/
def addressesIn (ts : List Term) : Finset Address := (ts.filterMap constAddress?).toFinset

theorem mem_addressesIn {ts : List Term} {a : Address} (h : Term.const (.addr a) ∈ ts) : a ∈ addressesIn ts :=
  List.mem_toFinset.mpr (List.mem_filterMap.mpr ⟨_, h, rfl⟩)

theorem card_addressesIn_le (ts : List Term) : (addressesIn ts).card ≤ ts.length :=
  (List.toFinset_card_le _).trans (List.length_filterMap_le _ _)

end Term

namespace Resolve

theorem subterm_mem_terms {as : List Atom} {t u : Term} (ht : t ∈ as.flatMap Atom.terms) (hu : u ∈ t.subterms) :
    u ∈ as.flatMap Atom.terms := by
  obtain ⟨a, ha, hta⟩ := List.mem_flatMap.mp ht
  refine List.mem_flatMap.mpr ⟨a, ha, ?_⟩
  rcases List.mem_append.mp hta with hta | hta
  · exact List.mem_append_left _ (Term.subterms_trans hu hta)
  · exact List.mem_append_right _ (Term.subterms_trans hu hta)

/-! ### Addresses that evaluation can give -/

/-- The addresses of a heap are among the given ones. -/
structure Heap.Confined (ads : Finset Address) (h : Heap) : Prop where
  assigned : ∀ {t : Term} {a : Address}, h.assignment.find? t = some (.addr a) → a ∈ ads
  reads : ∀ {q : Place} {t : Term}, h.reads.find? q = some t → t.Confined ads
  writes : ∀ {q : Place} {t : Term}, h.writes.find? q = some t → t.Confined ads

theorem Heap.Confined.mono {ads more : Finset Address} {h : Heap} (hh : h.Confined ads) (hs : ads ⊆ more) :
    h.Confined more :=
  ⟨fun ha => hs (hh.assigned ha), fun hr => (hh.reads hr).mono hs, fun hw => (hh.writes hw).mono hs⟩

/-- The terms that others stand for have their address constants among the given ones. -/
def StandIns.Confined (ads : Finset Address) (m : StandIns) : Prop :=
  ∀ k x : Term, m.find? k = some x → x.Confined ads

section Evaluation

variable {ads : Finset Address} {h : Heap} {m : StandIns}

theorem Heap.Confined.eval (hh : h.Confined ads) {t : Term} (ht : t.Confined ads) {a : Address}
    (he : h.assignment.eval t = some (.addr a)) : a ∈ ads := by
  cases t with
  | const v =>
    cases he
    exact ht a (List.mem_singleton_self _)
  | _ => exact hh.assigned he

/-- The outermost value comes from a stand-in, from what is laid over the heap, or from the assignment. What is inside
the term only says where to look. -/
theorem Heap.Confined.evalLayer (hh : h.Confined ads) {overlay : Place → Option (Option Value)}
    {hop : Term → Option Value} (hoverlay : ∀ {q : Place} {a : Address}, overlay q = some (some (.addr a)) → a ∈ ads)
    (hhop : ∀ {k x : Term} {a : Address}, m.find? k = some x → hop x = some (.addr a) → a ∈ ads) {t : Term}
    (ht : t.Confined ads) {a : Address} (he : h.evalLayer m overlay hop t = some (.addr a)) : a ∈ ads := by
  have hvalue : ∀ q, h.valueAt overlay t q = some (.addr a) → a ∈ ads := by
    intro q hq
    rw [Heap.valueAt] at hq
    split at hq
    next v hv =>
      subst hq
      obtain ⟨r, -, hr⟩ := Option.bind_eq_some_iff.mp hv
      exact hoverlay hr
    next =>
      rcases Option.or_eq_some_iff.mp hq with hq | ⟨-, hq⟩
      · exact hh.eval ht hq
      · obtain ⟨u, hu, hua⟩ := Option.bind_eq_some_iff.mp hq
        obtain ⟨r, -, hr⟩ := Option.bind_eq_some_iff.mp hu
        exact hh.eval (hh.reads hr) hua
  have hown : ∀ own, Heap.standIn m hop t own = some (.addr a) → (own = some (.addr a) → a ∈ ads) → a ∈ ads := by
    intro own hs ho
    rw [Heap.standIn] at hs
    split at hs
    next x hx => exact hhop hx hs
    next => exact ho hs
  cases t with
  | const v =>
    refine hown _ he fun hv => ?_
    cases hv
    exact ht a (List.mem_singleton_self _)
  | field b f => exact hown _ he (hvalue _)
  | element b i e => exact hown _ he (hvalue _)
  | length b => exact hown _ he (hvalue _)
  | _ => exact hown _ he (hvalue none)

theorem Heap.Confined.before (hh : h.Confined ads) (hm : StandIns.Confined ads m) {t : Term} (ht : t.Confined ads)
    {a : Address} (he : h.before m t = some (.addr a)) : a ∈ ads := by
  have hwithin : ∀ (n : Nat) {t : Term} {a : Address}, t.Confined ads →
      h.beforeWithin m n t = some (.addr a) → a ∈ ads := by
    intro n
    induction n with
    | zero =>
      intro t a _ he
      cases he
    | succ n ih =>
      intro t a ht he
      exact hh.evalLayer (fun h => by cases h) (fun hk hx => ih (hm _ _ hk) hx) ht he
  exact hwithin _ ht he

theorem Heap.Confined.after (hh : h.Confined ads) (hm : StandIns.Confined ads m) {t : Term} (ht : t.Confined ads)
    {a : Address} (he : h.after m t = some (.addr a)) : a ∈ ads := by
  have hoverlay : ∀ {q : Place} {a : Address},
      (h.writes.find? q).map (h.before m) = some (some (.addr a)) → a ∈ ads := by
    intro q a hq
    obtain ⟨x, hx, hv⟩ := Option.map_eq_some_iff.mp hq
    exact hh.before hm (hh.writes hx) hv
  have hwithin : ∀ (n : Nat) {t : Term} {a : Address}, t.Confined ads →
      h.afterWithin m n t = some (.addr a) → a ∈ ads := by
    intro n
    induction n with
    | zero =>
      intro t a _ he
      cases he
    | succ n ih =>
      intro t a ht he
      exact hh.evalLayer hoverlay (fun hk hx => ih (hm _ _ hk) hx) ht he
  exact hwithin _ ht he

end Evaluation

/-! ### Passes -/

/-- The addresses that a pass can come upon, the term that is asked for left out. -/
structure Pass.Confined (ads : Finset Address) (p : Pass) : Prop where
  heap : p.heap.Confined ads
  atoms : ∀ {t : Term}, t ∈ p.atoms.flatMap Atom.terms → t.Confined ads

theorem Pass.Confined.mono {ads more : Finset Address} {p : Pass} (hp : p.Confined ads) (hs : ads ⊆ more) :
    p.Confined more :=
  ⟨hp.heap.mono hs, fun ht => (hp.atoms ht).mono hs⟩

theorem eq_addr_of_addr? {x : Option Value} {a : Address} (h : x.bind Value.addr? = some a) : x = some (.addr a) := by
  rcases x with _ | (b | n | c)
  · cases h
  · cases h
  · cases h
  · rw [Option.some.inj h]

theorem Pass.Confined.address? {ads : Finset Address} {p : Pass} (hp : p.Confined ads) {w : Work}
    (hw : StandIns.Confined ads w.standIns) {t : Term} (ht : t.Confined ads) {a : Address}
    (ha : p.address? w t = some a) : a ∈ ads := by
  have he := eq_addr_of_addr? ha
  rw [Pass.eval] at he
  split at he
  · exact hp.heap.after hw ht he
  · exact hp.heap.before hw ht he

/-- The number of the given addresses that have no model yet. -/
def unmet (ads : Finset Address) (w : Work) : Nat := (ads.filter fun a => w.known.find? a = none).card

theorem unmet_le_card (ads : Finset Address) (w : Work) : unmet ads w ≤ ads.card := Finset.card_filter_le _ _

theorem unmet_le {ads : Finset Address} {w w' : Work}
    (h : ∀ {a : Address} {k : Handle}, w.known.find? a = some k → w'.known.find? a = some k) :
    unmet ads w' ≤ unmet ads w := by
  apply Finset.card_le_card
  intro a ha
  simp only [Finset.mem_filter] at ha ⊢
  refine ⟨ha.1, ?_⟩
  cases hk : w.known.find? a with
  | none => rfl
  | some k => rw [h hk] at ha; cases ha.2

theorem unmet_reserve_lt {ads : Finset Address} {w : Work} {a : Address} (ha : a ∈ ads)
    (hk : w.known.find? a = none) : unmet ads (w.reserve a).2 < unmet ads w := by
  have hknown : ∀ b, (w.reserve a).2.known.find? b = if b = a then some (w.reserve a).1 else w.known.find? b :=
    fun b => Table.find?_insert w.known a b _
  apply Finset.card_lt_card
  rw [Finset.ssubset_iff_of_subset]
  · refine ⟨a, ?_, ?_⟩
    · simp only [Finset.mem_filter]
      exact ⟨ha, hk⟩
    · simp only [Finset.mem_filter, hknown, if_true, reduceCtorEq, and_false, not_false_eq_true]
  · intro b hb
    simp only [Finset.mem_filter, hknown] at hb ⊢
    refine ⟨hb.1, ?_⟩
    have hne : b ≠ a := by
      rintro rfl
      rw [if_pos rfl] at hb
      cases hb.2
    rw [if_neg hne] at hb
    exact hb.2

/-! ### The budget of a pass that begins -/

/-- The addresses in the values of an assignment. -/
def assignedAddresses (m : Assignment) : Finset Address := (m.entries.filterMap fun e => e.2.addr?).toFinset

/-- The terms of the writes. -/
def writtenTerms (ws : List Write) : List Term := ws.flatMap fun w => w.location.subterms ++ w.value.subterms

/-- All addresses that a pass over a snapshot of `s` can come upon. -/
def addressesOf (settings : Settings) (s : State) (m : Assignment) : Finset Address :=
  assignedAddresses m ∪ Term.addressesIn ((s.path.atoms settings.useSoft).flatMap Atom.terms)
    ∪ Term.addressesIn (writtenTerms s.memory.writes)

theorem card_addressesOf_lt (settings : Settings) (s : State) (m : Assignment) (snapshot : Snapshot) :
    (addressesOf settings s m).card < (Pass.start settings s m snapshot).bound := by
  have h₁ : (assignedAddresses m).card ≤ m.size :=
    (List.toFinset_card_le _).trans (List.length_filterMap_le _ _)
  have h₂ := Term.card_addressesIn_le ((s.path.atoms settings.useSoft).flatMap Atom.terms)
  have h₃ := Term.card_addressesIn_le (writtenTerms s.memory.writes)
  have hu := (Finset.card_union_le (assignedAddresses m ∪ Term.addressesIn
    ((s.path.atoms settings.useSoft).flatMap Atom.terms)) (Term.addressesIn (writtenTerms s.memory.writes)))
  have hu' := Finset.card_union_le (assignedAddresses m)
    (Term.addressesIn ((s.path.atoms settings.useSoft).flatMap Atom.terms))
  have hb : (Pass.start settings s m snapshot).bound =
      m.size + ((s.path.atoms settings.useSoft).flatMap Atom.terms).length
        + (writtenTerms s.memory.writes).length + 1 := rfl
  rw [addressesOf, hb]
  omega

theorem confined_of_mem_path {settings : Settings} {s : State} {m : Assignment} {t : Term}
    (ht : t ∈ (s.path.atoms settings.useSoft).flatMap Atom.terms) : t.Confined (addressesOf settings s m) := by
  intro a ha
  exact Finset.mem_union_left _ (Finset.mem_union_right _ (Term.mem_addressesIn (subterm_mem_terms ht ha)))

theorem confined_of_mem_written {settings : Settings} {s : State} {m : Assignment} {w : Write}
    (hw : w ∈ s.memory.writes) {t : Term} (ht : t ∈ w.location.subterms ++ w.value.subterms) :
    t.Confined (addressesOf settings s m) := by
  intro a ha
  refine Finset.mem_union_right _ (Term.mem_addressesIn (List.mem_flatMap.mpr ⟨w, hw, ?_⟩))
  rcases List.mem_append.mp ht with ht | ht
  · exact List.mem_append_left _ (Term.subterms_trans ha ht)
  · exact List.mem_append_right _ (Term.subterms_trans ha ht)

theorem withReads_cons (h : Heap) (t : Term) (ts : List Term) :
    h.withReads (t :: ts) = (h.withReads [t]).withReads ts := rfl

@[simp] theorem assignment_withReads (h : Heap) (ts : List Term) : (h.withReads ts).assignment = h.assignment := by
  induction ts generalizing h with
  | nil => rfl
  | cons t ts ih =>
    rw [withReads_cons, ih]
    unfold Heap.withReads
    simp only [List.foldl_cons, List.foldl_nil]
    split <;> rfl

/-- The reads that are known after one more term. -/
theorem find?_withReads_singleton (h : Heap) (t : Term) (p : Place) :
    (h.withReads [t]).reads.find? p = (h.reads.find? p).or (if h.place t = some p then some t else none) := by
  unfold Heap.withReads
  simp only [List.foldl_cons, List.foldl_nil]
  cases hp : h.place t with
  | none => simp
  | some q =>
    simp only [Table.find?_insertNew, Option.some.injEq]
    by_cases hq : p = q
    · simp [hq]
    · simp [hq, Ne.symm hq]

theorem mem_of_find?_withReads {h : Heap} {ts : List Term} {q : Place} {t : Term}
    (ht : (h.withReads ts).reads.find? q = some t) : h.reads.find? q = some t ∨ t ∈ ts := by
  induction ts generalizing h with
  | nil => exact Or.inl ht
  | cons u ts ih =>
    rcases ih (h := h.withReads [u]) ht with hone | hts
    · rw [find?_withReads_singleton] at hone
      rcases Option.or_eq_some_iff.mp hone with hone | ⟨-, hone⟩
      · exact Or.inl hone
      · split at hone
        · exact Or.inr (Option.some.inj hone ▸ List.mem_cons_self)
        · cases hone
    · exact Or.inr (List.mem_cons_of_mem _ hts)

theorem latest_cons (h : Heap) (w : Write) (ws : List Write) :
    h.latest (w :: ws) = match h.writePlace w with
      | some p => if (h.latest ws).any (·.1 = p) then h.latest ws else (p, w) :: h.latest ws
      | none => h.latest ws := rfl

theorem mem_of_mem_latest {h : Heap} {ws : List Write} {e : Place × Write} (he : e ∈ h.latest ws) : e.2 ∈ ws := by
  induction ws with
  | nil => cases he
  | cons w ws ih =>
    rw [latest_cons] at he
    split at he
    · split at he
      · exact List.mem_cons_of_mem _ (ih he)
      · rcases List.mem_cons.mp he with rfl | he
        · exact List.mem_cons_self
        · exact List.mem_cons_of_mem _ (ih he)
    · exact List.mem_cons_of_mem _ (ih he)

theorem mem_currentAtoms {h : Heap} {path : List Atom} {latest : List (Place × Write)} {a : Atom} :
    a ∈ currentAtoms h path latest ↔
      (a ∈ path ∧ overwritten h a = false) ∨ ∃ e ∈ latest, a = .eq e.2.location e.2.value := by
  have hfold : ∀ (l : List (Place × Write)) (as : List Atom),
      a ∈ l.foldl (fun as e => Path.addTo as (.eq e.2.location e.2.value)) as ↔
        a ∈ as ∨ ∃ e ∈ l, a = .eq e.2.location e.2.value := by
    intro l
    induction l with
    | nil => simp
    | cons e l ih =>
      intro as
      rw [List.foldl_cons, ih, Path.mem_addTo, List.exists_mem_cons_iff, or_assoc]
  rw [currentAtoms, hfold, List.mem_filter, Bool.not_eq_true']

theorem mem_path_or_written {settings : Settings} {s : State} {m : Assignment} {snapshot : Snapshot} {a : Atom}
    (ha : a ∈ (Pass.start settings s m snapshot).atoms) :
    a ∈ s.path.atoms settings.useSoft ∨ ∃ w ∈ s.memory.writes, a = .eq w.location w.value := by
  rw [Pass.start] at ha
  dsimp only at ha
  split at ha
  · rcases mem_currentAtoms.mp ha with h | ⟨e, he, h⟩
    · exact Or.inl h.1
    · exact Or.inr ⟨e.2, mem_of_mem_latest he, h⟩
  · exact Or.inl ha

theorem confined_start (settings : Settings) (s : State) (m : Assignment) (snapshot : Snapshot) :
    (Pass.start settings s m snapshot).Confined (addressesOf settings s m) := by
  have hpath : ∀ {t : Term}, t ∈ (s.path.atoms settings.useSoft).flatMap Atom.terms →
      t.Confined (addressesOf settings s m) := confined_of_mem_path
  refine ⟨⟨?_, ?_, ?_⟩, ?_⟩
  · intro t a ha
    have hm : m.find? t = some (.addr a) := by
      rw [← ha]
      exact congrArg (Table.find? · t) (assignment_withReads { assignment := m } _).symm
    have hmem : a ∈ m.entries.filterMap fun e => e.2.addr? :=
      List.mem_filterMap.mpr ⟨(t, .addr a), mem_of_lookup hm, rfl⟩
    exact Finset.mem_union_left _ (Finset.mem_union_left _ (List.mem_toFinset.mpr hmem))
  · intro q t ht
    rcases mem_of_find?_withReads ht with h | h
    · cases h
    · exact hpath h
  · intro q t ht
    have ht' : (Table.ofList (((Heap.withReads { assignment := m } ((s.path.atoms settings.useSoft).flatMap
        Atom.terms)).latest s.memory.writes).map fun e => (e.1, e.2.value))).find? q = some t := ht
    rw [Table.find?_ofList] at ht'
    obtain ⟨e, he, hqt⟩ := List.mem_map.mp (List.mem_reverse.mp (mem_of_lookup ht'))
    cases hqt
    exact confined_of_mem_written (mem_of_mem_latest he) (List.mem_append_right _ (Term.self_mem_subterms _))
  · intro t ht
    obtain ⟨a, ha, hta⟩ := List.mem_flatMap.mp ht
    rcases mem_path_or_written ha with h | ⟨w, hw, rfl⟩
    · exact hpath (List.mem_flatMap.mpr ⟨a, h, hta⟩)
    · exact confined_of_mem_written hw hta

end Resolve

end Symex
