import Mathlib.Data.Finset.Card
import Mathlib.Logic.Function.Iterate
import Mathlib.Logic.Relation
import Symex.Model.Store

/-!
# Chains of aliases

An alias links its handle to the handle of another model, and a handle has at most one link. So the links from a
handle form one chain, which ends at a model that is no alias, ends at a handle without a model, or does not end.
The main statement says that following aliases tells these three apart, although it looks at one handle more than
there are slots and no further. The reason is that a chain which ends has no handle twice.
-/

namespace Symex.Store

/-- The model at `h` is an alias of the one at `k`. -/
def Links (s : Store) (h k : Handle) : Prop := ∃ t, s.get? h = some (.sameAs t k)

/-- A model is built at `h`, and it is no alias. -/
def Plain (s : Store) (h : Handle) : Prop := ∃ m, s.get? h = some m ∧ ∀ t k, m ≠ .sameAs t k

/-- The handle is past the end of the store, or its slot is still empty. -/
def Absent (s : Store) (h : Handle) : Prop := s.size ≤ h.index ∨ s.slots[h.index]? = some none

/-- The chain from `h` goes on forever. -/
def Endless (s : Store) (h : Handle) : Prop :=
  ∃ chain : Nat → Handle, chain 0 = h ∧ ∀ n, s.Links (chain n) (chain (n + 1))

def IsAlias (s : Store) (h : Handle) : Prop := ∃ k, s.Links h k

/-- The next handle of the chain; the last one is followed by itself. -/
def hop (s : Store) (h : Handle) : Handle :=
  match s.get? h with
  | some (.sameAs _ k) => k
  | _ => h

/-- The chain from `h` has `n` links at least. -/
def HasLinks (s : Store) (h : Handle) (n : Nat) : Prop := ∀ i < n, s.IsAlias (s.hop^[i] h)

variable {s : Store} {h k : Handle} {m n : Nat}

/-! ### One handle -/

theorem Links.hop_eq (hl : s.Links h k) : s.hop h = k := by
  obtain ⟨t, ht⟩ := hl
  simp only [hop, ht]

theorem IsAlias.links_hop (ha : s.IsAlias h) : s.Links h (s.hop h) := by
  obtain ⟨k, hk⟩ := ha
  rwa [hk.hop_eq]

theorem IsAlias.lt_size (ha : s.IsAlias h) : h.index < s.size := by
  obtain ⟨k, t, ht⟩ := ha
  exact lt_size_of_get? ht

theorem Plain.lt_size (hp : s.Plain h) : h.index < s.size := by
  obtain ⟨m, hm, -⟩ := hp
  exact lt_size_of_get? hm

theorem Plain.not_isAlias (hp : s.Plain h) : ¬ s.IsAlias h := by
  obtain ⟨m, hm, hne⟩ := hp
  rintro ⟨k, t, ht⟩
  exact hne t k (Option.some.inj (hm.symm.trans ht))

theorem absent_iff : s.Absent h ↔ s.get? h = none := by
  rw [Absent, get?, Array.getD_eq_getD_getElem?]
  rcases Nat.lt_or_ge h.index s.size with hl | hl
  · rw [Array.getElem?_eq_getElem hl, Option.getD_some, Option.some.injEq]
    exact or_iff_right (Nat.not_le_of_lt hl)
  · rw [Array.getElem?_eq_none hl]
    exact iff_of_true (.inl hl) rfl

theorem Absent.not_isAlias (ha : s.Absent h) : ¬ s.IsAlias h := by
  rintro ⟨k, t, ht⟩
  rw [absent_iff.mp ha] at ht
  cases ht

theorem plain_or_absent (hn : ¬ s.IsAlias h) : s.Plain h ∨ s.Absent h := by
  cases hm : s.get? h with
  | none => exact .inr (absent_iff.mpr hm)
  | some m =>
    refine .inl ⟨m, hm, ?_⟩
    rintro t k rfl
    exact hn ⟨k, t, hm⟩

/-! ### The chain from a handle -/

theorem hasLinks_succ : s.HasLinks h (n + 1) ↔ s.IsAlias h ∧ s.HasLinks (s.hop h) n := by
  constructor
  · intro hl
    exact ⟨hl 0 n.succ_pos, fun i hi => hl (i + 1) (Nat.succ_lt_succ hi)⟩
  · rintro ⟨ha, hl⟩ i hi
    cases i with
    | zero => exact ha
    | succ i => exact hl i (Nat.lt_of_succ_lt_succ hi)

theorem HasLinks.leads (hl : s.HasLinks h n) : Relation.ReflTransGen s.Links h (s.hop^[n] h) := by
  induction n generalizing h with
  | zero => exact .refl
  | succ n ih =>
    obtain ⟨ha, hl⟩ := hasLinks_succ.mp hl
    exact .head ha.links_hop (ih hl)

theorem exists_hasLinks_of_leads (hr : Relation.ReflTransGen s.Links h k) : ∃ n, s.HasLinks h n ∧ s.hop^[n] h = k := by
  induction hr using Relation.ReflTransGen.head_induction_on with
  | refl => exact ⟨0, fun i hi => absurd hi i.not_lt_zero, rfl⟩
  | head hl _ ih =>
    obtain ⟨n, hn, hk⟩ := ih
    rw [← hl.hop_eq] at hn hk
    exact ⟨n + 1, hasLinks_succ.mpr ⟨⟨_, hl⟩, hn⟩, hk⟩

theorem endless_iff : s.Endless h ↔ ∀ n, s.HasLinks h n := by
  constructor
  · rintro ⟨chain, rfl, hl⟩ n i -
    have hi : s.hop^[i] (chain 0) = chain i := by
      induction i with
      | zero => rfl
      | succ i ih => rw [Function.iterate_succ_apply', ih, (hl i).hop_eq]
    rw [hi]
    exact ⟨_, hl i⟩
  · intro hl
    refine ⟨fun n => s.hop^[n] h, rfl, fun n => ?_⟩
    change s.Links (s.hop^[n] h) (s.hop^[n + 1] h)
    rw [Function.iterate_succ_apply']
    exact (hl (n + 1) n n.lt_succ_self).links_hop

/-- A chain that does not have `n` links stops before. -/
theorem exists_stop (hn : ¬ s.HasLinks h n) : ∃ m < n, s.HasLinks h m ∧ ¬ s.IsAlias (s.hop^[m] h) := by
  induction n with
  | zero => exact absurd (fun i hi => absurd hi i.not_lt_zero) hn
  | succ n ih =>
    by_cases hl : s.HasLinks h n
    · refine ⟨n, n.lt_succ_self, hl, fun ha => hn fun i hi => ?_⟩
      rcases Nat.lt_succ_iff_lt_or_eq.mp hi with hi | rfl
      · exact hl i hi
      · exact ha
    · obtain ⟨m, hm, hstop⟩ := ih hl
      exact ⟨m, hm.trans n.lt_succ_self, hstop⟩

/-! ### Chains and the number of slots -/

/-- More handles than there are slots are not all different. -/
theorem exists_repeat (hin : ∀ i ≤ s.size, (s.hop^[i] h).index < s.size) :
    ∃ i j, i < j ∧ j ≤ s.size ∧ s.hop^[i] h = s.hop^[j] h := by
  have hmaps : ∀ i ∈ Finset.range (s.size + 1), (s.hop^[i] h).index ∈ Finset.range s.size := by
    intro i hi
    rw [Finset.mem_range] at hi ⊢
    exact hin i (Nat.lt_succ_iff.mp hi)
  obtain ⟨i, hi, j, hj, hne, heq⟩ := Finset.exists_ne_map_eq_of_card_lt_of_maps_to (by simp) hmaps
  wlog hij : i < j generalizing i j
  · exact this j hj i hi hne.symm heq.symm (by omega)
  · exact ⟨i, j, hij, Nat.lt_succ_iff.mp (Finset.mem_range.mp hj), congrArg Handle.mk heq⟩

/-- From a handle that the chain has passed before it goes on as it did then. -/
theorem iterate_hop_of_repeat {i j : Nat} (heq : s.hop^[i] h = s.hop^[j] h) (n : Nat) :
    s.hop^[n + i] h = s.hop^[n + j] h := by
  rw [Function.iterate_add_apply, heq, ← Function.iterate_add_apply]

/-- A chain that stops has no handle twice. -/
theorem HasLinks.iterate_hop_ne (hl : s.HasLinks h n) (hstop : ¬ s.IsAlias (s.hop^[n] h)) {i j : Nat} (hij : i < j)
    (hj : j ≤ n) : s.hop^[i] h ≠ s.hop^[j] h := by
  intro heq
  -- What the chain does after `j` it has done after `i`, so it would have stopped before.
  have hback := iterate_hop_of_repeat heq (n - j)
  rw [Nat.sub_add_cancel hj] at hback
  exact hstop (hback ▸ hl (n - j + i) (by omega))

theorem HasLinks.le_size (hl : s.HasLinks h n) (hstop : ¬ s.IsAlias (s.hop^[n] h)) : n ≤ s.size := by
  by_contra hn
  obtain ⟨i, j, hij, hj, heq⟩ := exists_repeat fun i hi => (hl i (by omega)).lt_size
  exact hl.iterate_hop_ne hstop hij (by omega) heq

/-- A chain that ends at a model is shorter, since the model has a slot as well. -/
theorem HasLinks.lt_size (hl : s.HasLinks h n) (hp : s.Plain (s.hop^[n] h)) : n < s.size := by
  by_contra hn
  have hin : ∀ i ≤ s.size, (s.hop^[i] h).index < s.size := by
    intro i hi
    rcases Nat.lt_or_eq_of_le (hi.trans (Nat.le_of_not_lt hn)) with hlt | rfl
    · exact (hl i hlt).lt_size
    · exact hp.lt_size
  obtain ⟨i, j, hij, hj, heq⟩ := exists_repeat hin
  exact hl.iterate_hop_ne hp.not_isAlias hij (by omega) heq

theorem endless_of_hasLinks (hl : s.HasLinks h (s.size + 1)) : s.Endless h := by
  rw [endless_iff]
  intro n
  by_contra hn
  obtain ⟨m, -, hm, hstop⟩ := exists_stop hn
  have hle := hm.le_size hstop
  exact hstop (hl m (by omega))

/-- After as many links as there are slots, an endless chain is on its cycle. -/
theorem Endless.cycle (he : s.Endless h) (hn : s.size ≤ n) :
    Relation.TransGen s.Links (s.hop^[n] h) (s.hop^[n] h) := by
  rw [endless_iff] at he
  have halias : ∀ i, s.IsAlias (s.hop^[i] h) := fun i => he (i + 1) i i.lt_succ_self
  obtain ⟨i, j, hij, hj, heq⟩ := exists_repeat fun i _ => (halias i).lt_size
  obtain ⟨p, rfl⟩ := Nat.exists_eq_add_of_lt hij
  have hperiod : s.hop^[p + 1] (s.hop^[n] h) = s.hop^[n] h := by
    have hback := iterate_hop_of_repeat heq (n - i)
    rw [Nat.sub_add_cancel (by omega), show n - i + (i + p + 1) = p + 1 + n by omega] at hback
    rw [← Function.iterate_add_apply, ← hback]
  have hlinks : s.HasLinks (s.hop (s.hop^[n] h)) p := by
    intro i _
    rw [← Function.iterate_succ_apply, ← Function.iterate_add_apply]
    exact halias _
  refine Relation.TransGen.head' (halias n).links_hop ?_
  have hreach := hlinks.leads
  rwa [← Function.iterate_succ_apply, hperiod] at hreach

/-! ### Following aliases -/

theorem derefWithin_of_links (hl : s.Links h k) (n : Nat) : s.derefWithin (n + 1) h = s.derefWithin n k := by
  obtain ⟨t, ht⟩ := hl
  rw [derefWithin, get_eq_ok.mpr ht]

theorem derefWithin_of_ne_sameAs {x : Model} (hx : s.get? k = some x) (hne : ∀ t j, x ≠ .sameAs t j) (n : Nat) :
    s.derefWithin (n + 1) k = .ok k := by
  rw [derefWithin, get_eq_ok.mpr hx]
  cases x with
  | sameAs t j => exact absurd rfl (hne t j)
  | _ => rfl

theorem derefWithin_of_absent (ha : s.Absent h) (n : Nat) : s.derefWithin (n + 1) h = .error (.unbuilt h s.size) := by
  rw [derefWithin, get, absent_iff.mp ha]

theorem HasLinks.derefWithin_add (hl : s.HasLinks h m) (n : Nat) :
    s.derefWithin (m + n) h = s.derefWithin n (s.hop^[m] h) := by
  induction m generalizing h with
  | zero => rw [Nat.zero_add]; rfl
  | succ m ih =>
    obtain ⟨ha, hl⟩ := hasLinks_succ.mp hl
    rw [Nat.add_right_comm, derefWithin_of_links ha.links_hop, ih hl]
    rfl

theorem HasLinks.derefWithin_plain (hl : s.HasLinks h m) (hp : s.Plain (s.hop^[m] h)) (hmn : m < n) :
    s.derefWithin n h = .ok (s.hop^[m] h) := by
  obtain ⟨j, rfl⟩ := Nat.exists_eq_add_of_lt hmn
  obtain ⟨x, hx, hne⟩ := hp
  rw [Nat.add_assoc, hl.derefWithin_add, derefWithin_of_ne_sameAs hx hne]

theorem HasLinks.derefWithin_absent (hl : s.HasLinks h m) (ha : s.Absent (s.hop^[m] h)) (hmn : m < n) :
    s.derefWithin n h = .error (.unbuilt (s.hop^[m] h) s.size) := by
  obtain ⟨j, rfl⟩ := Nat.exists_eq_add_of_lt hmn
  rw [Nat.add_assoc, hl.derefWithin_add, derefWithin_of_absent ha]

/-- What following aliases over `n` handles can answer. -/
theorem derefWithin_cases (s : Store) (n : Nat) (h : Handle) :
    (∃ m < n, s.HasLinks h m ∧ s.Plain (s.hop^[m] h) ∧ s.derefWithin n h = .ok (s.hop^[m] h)) ∨
    (∃ m < n, s.HasLinks h m ∧ s.Absent (s.hop^[m] h) ∧
      s.derefWithin n h = .error (.unbuilt (s.hop^[m] h) s.size)) ∨
    s.HasLinks h n ∧ s.derefWithin n h = .error (.aliasCycle (s.hop^[n] h)) := by
  by_cases hl : s.HasLinks h n
  · exact .inr (.inr ⟨hl, hl.derefWithin_add 0⟩)
  · obtain ⟨m, hmn, hm, hstop⟩ := exists_stop hl
    rcases plain_or_absent hstop with hp | ha
    · exact .inl ⟨m, hmn, hm, hp, hm.derefWithin_plain hp hmn⟩
    · exact .inr (.inl ⟨m, hmn, hm, ha, hm.derefWithin_absent ha hmn⟩)

theorem derefWithin_eq_ok_iff :
    s.derefWithin n h = .ok k ↔ ∃ m < n, s.HasLinks h m ∧ s.hop^[m] h = k ∧ s.Plain k := by
  constructor
  · intro hd
    rcases s.derefWithin_cases n h with ⟨m, hmn, hl, hp, he⟩ | ⟨m, -, -, -, he⟩ | ⟨-, he⟩
    · rw [he] at hd
      cases hd
      exact ⟨m, hmn, hl, rfl, hp⟩
    all_goals
      rw [he] at hd
      cases hd
  · rintro ⟨m, hmn, hl, rfl, hp⟩
    exact hl.derefWithin_plain hp hmn

theorem get_of_derefWithin (hd : s.derefWithin n h = .ok k) : ∃ m, s.get k = .ok m ∧ ∀ t j, m ≠ .sameAs t j := by
  obtain ⟨-, -, -, -, m, hm, hne⟩ := derefWithin_eq_ok_iff.mp hd
  exact ⟨m, get_eq_ok.mpr hm, hne⟩

theorem derefWithin_succ (hd : s.derefWithin n h = .ok k) : s.derefWithin (n + 1) h = .ok k := by
  obtain ⟨m, hm, hend⟩ := derefWithin_eq_ok_iff.mp hd
  exact derefWithin_eq_ok_iff.mpr ⟨m, hm.trans n.lt_succ_self, hend⟩

/-- A chain that ends at a model does so within as many steps as there are slots. -/
theorem deref_of_derefWithin (hd : s.derefWithin n h = .ok k) : s.derefWithin s.size h = .ok k := by
  obtain ⟨m, -, hl, hk, hp⟩ := derefWithin_eq_ok_iff.mp hd
  exact derefWithin_eq_ok_iff.mpr ⟨m, hl.lt_size (hk ▸ hp), hl, hk, hp⟩

theorem deref_eq_ok_iff : s.deref h = .ok k ↔ Relation.ReflTransGen s.Links h k ∧ s.Plain k := by
  rw [deref, derefWithin_eq_ok_iff]
  constructor
  · rintro ⟨m, -, hl, rfl, hp⟩
    exact ⟨hl.leads, hp⟩
  · rintro ⟨hr, hp⟩
    obtain ⟨m, hl, rfl⟩ := exists_hasLinks_of_leads hr
    exact ⟨m, (hl.lt_size hp).trans s.size.lt_succ_self, hl, rfl, hp⟩

theorem deref_eq_unbuilt_iff :
    s.deref h = .error (.unbuilt k n) ↔ Relation.ReflTransGen s.Links h k ∧ s.Absent k ∧ n = s.size := by
  constructor
  · intro hd
    rw [deref] at hd
    rcases s.derefWithin_cases (s.size + 1) h with ⟨m, -, -, -, he⟩ | ⟨m, -, hl, ha, he⟩ | ⟨-, he⟩
    · rw [he] at hd
      cases hd
    · rw [he] at hd
      cases hd
      exact ⟨hl.leads, ha, rfl⟩
    · rw [he] at hd
      cases hd
  · rintro ⟨hr, ha, rfl⟩
    obtain ⟨m, hl, rfl⟩ := exists_hasLinks_of_leads hr
    -- Such a chain may use up all slots before it leaves the store.
    exact hl.derefWithin_absent ha (Nat.lt_succ_of_le (hl.le_size ha.not_isAlias))

theorem deref_eq_aliasCycle_iff :
    s.deref h = .error (.aliasCycle k) ↔ s.Endless h ∧ s.hop^[s.size + 1] h = k := by
  constructor
  · intro hd
    rw [deref] at hd
    rcases s.derefWithin_cases (s.size + 1) h with ⟨m, -, -, -, he⟩ | ⟨m, -, -, -, he⟩ | ⟨hl, he⟩
    · rw [he] at hd
      cases hd
    · rw [he] at hd
      cases hd
    · rw [he] at hd
      cases hd
      exact ⟨endless_of_hasLinks hl, rfl⟩
  · rintro ⟨he, rfl⟩
    exact (endless_iff.mp he (s.size + 1)).derefWithin_add 0

/-- Following aliases finds the model that the chain leads to, or the handle without a model that it leads to. It
reports a cycle exactly if the chain does not end, and then it names a handle that the chain comes back to. -/
theorem deref_follows_chain (s : Store) (h : Handle) :
    (∀ k, s.deref h = .ok k ↔ Relation.ReflTransGen s.Links h k ∧ s.Plain k) ∧
    (∀ k n, s.deref h = .error (.unbuilt k n) ↔ Relation.ReflTransGen s.Links h k ∧ s.Absent k ∧ n = s.size) ∧
    ((∃ k, s.deref h = .error (.aliasCycle k)) ↔ s.Endless h) ∧
    ∀ k, s.deref h = .error (.aliasCycle k) →
      Relation.ReflTransGen s.Links h k ∧ Relation.TransGen s.Links k k := by
  refine ⟨fun k => deref_eq_ok_iff, fun k n => deref_eq_unbuilt_iff, ⟨?_, ?_⟩, ?_⟩
  · rintro ⟨k, hd⟩
    exact (deref_eq_aliasCycle_iff.mp hd).1
  · intro he
    exact ⟨_, deref_eq_aliasCycle_iff.mpr ⟨he, rfl⟩⟩
  · intro k hd
    obtain ⟨he, rfl⟩ := deref_eq_aliasCycle_iff.mp hd
    exact ⟨(endless_iff.mp he _).leads, he.cycle s.size.le_succ⟩

/-- A handle before a cycle of two aliases. -/
def lasso : Store :=
  .ofSlots [some (.sameAs (.param "a" (.object "A")) ⟨1⟩), some (.sameAs (.param "b" (.object "A")) ⟨2⟩),
    some (.sameAs (.param "c" (.object "A")) ⟨1⟩)]

theorem deref_lasso : lasso.deref ⟨0⟩ = .error (.aliasCycle ⟨2⟩) ∧ lasso.Endless ⟨0⟩ ∧
    Relation.ReflTransGen lasso.Links ⟨0⟩ ⟨2⟩ ∧ Relation.TransGen lasso.Links ⟨2⟩ ⟨2⟩ := by
  have hd : lasso.deref ⟨0⟩ = .error (.aliasCycle ⟨2⟩) := by decide
  obtain ⟨-, -, hendless, hcycle⟩ := deref_follows_chain lasso ⟨0⟩
  exact ⟨hd, hendless.mp ⟨⟨2⟩, hd⟩, hcycle ⟨2⟩ hd⟩

-- The last handle that is looked at counts: two links leave a store of two slots.
example : (ofSlots [some (.sameAs (.param "a" (.object "A")) ⟨1⟩), some (.sameAs (.param "b" (.object "A")) ⟨2⟩)]).deref
    ⟨0⟩ = .error (.unbuilt ⟨2⟩ 2) := by decide

end Symex.Store
