import Symex.Proofs.Synthesis.Clusters
import Symex.Proofs.Synthesis.Search

/-!
# Where synthesized models come from

Every draft that a search looks at was made by refinement, and what it finds was verified. A result takes over what was
found by copying it. So a model in a result is a copy of one that was verified for the cluster of its root.
-/

namespace Symex

open Draft (Sane)

namespace Agenda

variable {a b : Agenda} {e : Nat × Draft}

theorem mem_push {d : Draft} {taken : Bool} (h : a.push d = .ok (taken, b)) (he : e ∈ b.entries) :
    e ∈ a.entries ∨ e.2 = d := by
  obtain ⟨n, -, h⟩ := bind_eq_ok.mp h
  split at h
  · cases h
    exact Or.inl he
  · cases h
    rcases List.mem_cons.mp ((insert_perm n d a.entries).mem_iff.mp he) with rfl | he
    · exact Or.inr rfl
    · exact Or.inl he

theorem mem_pushAll {ds : List Draft} (h : a.pushAll ds = .ok b) (he : e ∈ b.entries) :
    e ∈ a.entries ∨ e.2 ∈ ds := by
  induction ds generalizing a with
  | nil =>
    cases h
    exact Or.inl he
  | cons d ds ih =>
    rw [pushAll, List.foldlM_cons] at h
    obtain ⟨a', hfirst, h⟩ := bind_eq_ok.mp h
    obtain ⟨⟨taken, b'⟩, hpush, hend⟩ := bind_eq_ok.mp hfirst
    cases hend
    rcases ih h with hmem | hmem
    · rcases mem_push hpush hmem with hmem | hd
      · exact Or.inl hmem
      · exact Or.inr (hd ▸ List.mem_cons_self)
    · exact Or.inr (List.mem_cons_of_mem _ hmem)

theorem sane_of_next {c : Catalog} {targets : Store} {roots : List Handle}
    (ha : ∀ e ∈ a.entries, Sane c targets roots e.2) {d : Draft} (h : a.next c = .ok (some (d, b))) :
    Sane c targets roots d ∧ ∀ e ∈ b.entries, Sane c targets roots e.2 := by
  unfold next at h
  split at h
  · cases h
  next k d' es hes =>
    obtain ⟨ds, hds, h⟩ := bind_eq_ok.mp h
    obtain ⟨b', hall, hend⟩ := bind_eq_ok.mp h
    cases hend
    rw [hes] at ha
    have hd : Sane c targets roots d := ha (k, d) List.mem_cons_self
    refine ⟨hd, ?_⟩
    intro e he
    rcases mem_pushAll hall he with hmem | hmem
    · exact ha e (List.mem_cons_of_mem _ hmem)
    · exact hd.of_reaches (.step .refl hds hmem)

theorem sane_of_start {c : Catalog} {targets : Store} {roots : List Handle} {depth : Nat}
    (h : start { targets, roots } depth = .ok a) : ∀ e ∈ a.entries, Sane c targets roots e.2 := by
  obtain ⟨⟨taken, b⟩, hpush, hend⟩ := bind_eq_ok.mp h
  cases hend
  intro e he
  rcases mem_push hpush he with hmem | hd
  · cases hmem
  · rw [hd]
    exact Draft.sane_start _ _ _

end Agenda

namespace Synthesizer

/-- What a search finds was verified, for a draft that refinement made. -/
theorem search_eq_some {w : Workshop} {c : Catalog} {targets : Store} {roots : List Handle} {n : Nat} {a : Agenda}
    {v v' : Verifier} {found : Store × List Handle} (ha : ∀ e ∈ a.entries, Sane c targets roots e.2)
    (h : search w c n a v = .ok (some found, v')) :
    ∃ d time u u', Sane c targets roots d ∧ w.verify d time u = .ok (some found, u') := by
  induction n using Nat.strongRecOn generalizing a v with
  | _ n ih =>
    cases n with
    | zero =>
      rw [search] at h
      cases h
    | succ n =>
      rcases search_cases h with ⟨-, hnone, -⟩ | ⟨d, b, q, r, u, hnext, -, hu, hend⟩
      · cases hnone
      obtain ⟨hd, hb⟩ := Agenda.sane_of_next ha hnext
      rcases hend with ⟨-, rfl, rfl⟩ | ⟨-, hrest⟩
      · exact ⟨d, some n, v.tick, u, hd, hu⟩
      · exact ih _ (by omega) hb hrest

end Synthesizer

/-- What is taken over are copies, and the models there were stay. -/
theorem Synthesized.adopt_spec {source : Store} {l : List (Nat × Handle)} {c : Copying} {ms : List (Option Handle)}
    {r : Synthesized} (h : adopt source l c ms = .ok r) (hc : c.Faithful source []) :
    c.store.Extends r.store ∧ ∀ i k, r.models[i]? = some (some k) →
      ms[i]? = some (some k) ∨ ∃ x, (i, x) ∈ l ∧ source.Copied x r.store k := by
  induction l generalizing c ms with
  | nil =>
    cases h
    exact ⟨.refl _, fun i k hk => Or.inl hk⟩
  | cons e l ih =>
    obtain ⟨⟨new, c'⟩, hcopy, h⟩ := bind_eq_ok.mp h
    obtain ⟨hgrows, hc', himage⟩ := Copying.copy_spec hcopy hc
    obtain ⟨hext, hmodels⟩ := ih h hc'
    refine ⟨hgrows.store.trans hext, ?_⟩
    intro i k hk
    rcases hmodels i k hk with hset | ⟨x, hx, hcopied⟩
    · by_cases hi : e.1 = i
      · have hlt : i < (ms.set e.1 (some new)).length := (List.getElem?_eq_some_iff.mp hset).1
        rw [List.length_set] at hlt
        rw [hi, List.getElem?_set_self hlt] at hset
        cases hset
        exact Or.inr ⟨e.2, by rw [← hi]; exact List.mem_cons_self, c', hc', himage, hext⟩
      · rw [List.getElem?_set_ne hi] at hset
        exact Or.inl hset
    · exact Or.inr ⟨x, List.mem_cons_of_mem _ hx, hcopied⟩

/-- Before something is found there is no model at any position. -/
theorem Synthesized.getElem?_unmade {roots : List Handle} {i : Nat} {m : Option Handle} :
    (roots.map fun _ => (none : Option Handle))[i]? = some m ↔ i < roots.length ∧ m = none := by
  rw [List.map_const', List.getElem?_eq_some_iff]
  simp [eq_comm]

namespace Synthesizer

variable {w : Workshop} {c : Catalog} {targets : Store} {roots : List Handle}

/-- A handle of a result leads to a copy of what was verified for a position of a cluster. -/
def Found (w : Workshop) (c : Catalog) (targets : Store) (roots : List Handle) (cluster : List Nat) (i : Nat)
    (target : Store) (k : Handle) : Prop :=
  ∃ d time u u' store handles x, Sane c targets (cluster.filterMap fun i => roots[i]?) d ∧
    w.verify d time u = .ok (some (store, handles), u') ∧ (i, x) ∈ cluster.zip handles ∧ store.Copied x target k

theorem Found.extend {cluster : List Nat} {i : Nat} {s t : Store} {k : Handle}
    (h : Found w c targets roots cluster i s k) (he : s.Extends t) : Found w c targets roots cluster i t k := by
  obtain ⟨d, time, u, u', store, handles, x, hd, hv, hx, hcopied⟩ := h
  exact ⟨d, time, u, u', store, handles, x, hd, hv, hx, hcopied.extend he⟩

theorem attempt_spec {s s' : Synthesizer} {depth deadline : Nat} {r r' : Synthesized} {cluster : List Nat}
    (h : s.attempt targets roots depth deadline r cluster = .ok (s', r')) :
    s'.workshop = s.workshop ∧ s'.catalog = s.catalog ∧ r.store.Extends r'.store ∧
      ∀ i k, r'.models[i]? = some (some k) →
        r.models[i]? = some (some k) ∨ Found s.workshop s.catalog targets roots cluster i r'.store k := by
  obtain ⟨agenda, hstart, h⟩ := bind_eq_ok.mp h
  obtain ⟨⟨found, v⟩, hsearch, h⟩ := bind_eq_ok.mp h
  cases found with
  | none =>
    cases h
    exact ⟨rfl, rfl, .refl _, fun i k hk => Or.inl hk⟩
  | some out =>
    obtain ⟨store, handles⟩ := out
    obtain ⟨r₁, hadopt, hend⟩ := bind_eq_ok.mp h
    cases hend
    obtain ⟨hext, hmodels⟩ := Synthesized.adopt_spec hadopt (Copying.faithful_of_no_images store r.store)
    obtain ⟨d, time, u, u', hd, hv⟩ := search_eq_some (Agenda.sane_of_start hstart) hsearch
    refine ⟨rfl, rfl, hext, ?_⟩
    intro i k hk
    exact (hmodels i k hk).imp_right fun ⟨x, hx, hcopied⟩ => ⟨d, time, u, u', store, handles, x, hd, hv, hx, hcopied⟩

theorem attemptAll_spec {s s' : Synthesizer} {depth deadline : Nat} {r r' : Synthesized} {cs : List (List Nat)}
    (h : s.attemptAll targets roots depth deadline r cs = .ok (s', r')) :
    r.store.Extends r'.store ∧ ∀ i k, r'.models[i]? = some (some k) → r.models[i]? = some (some k) ∨
      ∃ cluster ∈ cs, Found s.workshop s.catalog targets roots cluster i r'.store k := by
  induction cs generalizing s r with
  | nil =>
    cases h
    exact ⟨.refl _, fun i k hk => Or.inl hk⟩
  | cons cluster cs ih =>
    obtain ⟨⟨s₁, r₁⟩, hattempt, h⟩ := bind_eq_ok.mp h
    obtain ⟨hworkshop, hcatalog, hext₁, hfound₁⟩ := attempt_spec hattempt
    obtain ⟨hext, hfound⟩ := ih h
    rw [hworkshop, hcatalog] at hfound
    refine ⟨hext₁.trans hext, ?_⟩
    intro i k hk
    rcases hfound i k hk with hk | ⟨d, hd, hf⟩
    · rcases hfound₁ i k hk with hk | hf
      · exact Or.inl hk
      · exact Or.inr ⟨cluster, List.mem_cons_self, hf.extend hext⟩
    · exact Or.inr ⟨d, List.mem_cons_of_mem _ hd, hf⟩

/-- A model in a result is a copy of one that was verified, together with the others of its cluster. -/
theorem synthesizeWithin_spec {s s' : Synthesizer} {depth time : Nat} {r : Synthesized}
    (h : s.synthesizeWithin targets roots depth time = .ok (s', r)) {i : Nat} {k : Handle}
    (hk : r.models[i]? = some (some k)) :
    ∃ cs, Cluster.partition targets roots = .ok cs ∧
      ∃ cluster ∈ cs, Found s.workshop s.catalog targets roots cluster i r.store k := by
  have hnone : (roots.map fun _ => (none : Option Handle))[i]? ≠ some (some k) :=
    fun h => Option.some_ne_none k (Synthesized.getElem?_unmade.mp h).2
  unfold synthesizeWithin at h
  dsimp only at h
  split at h
  · obtain ⟨cs, hcs, h⟩ := bind_eq_ok.mp h
    exact ⟨cs, hcs, ((attemptAll_spec h).2 i k hk).resolve_left hnone⟩
  · cases h
    exact absurd hk hnone

/-- A model for a root without links to others is a copy of the first that was verified for a draft of this root. -/
theorem exists_verified_of_not_linked {s s' : Synthesizer} {depth time : Nat} {r : Synthesized}
    (h : s.synthesizeWithin targets roots depth time = .ok (s', r)) {i : Nat} {a k : Handle}
    (ha : roots[i]? = some a) (hfree : ∀ j, j ≠ i → ¬ Cluster.Linked targets roots i j)
    (hk : r.models[i]? = some (some k)) :
    ∃ d t u u' store x rest, Sane s.catalog targets [a] d ∧
      s.workshop.verify d t u = .ok (some (store, x :: rest), u') ∧ store.Copied x r.store k := by
  obtain ⟨cs, hcs, cluster, hcluster, d, t, u, u', store, handles, x, hd, hv, hx, hcopied⟩ := synthesizeWithin_spec h hk
  have halone := Cluster.eq_singleton_of_not_linked hcs hfree hcluster (List.of_mem_zip hx).1
  subst halone
  cases handles with
  | nil => cases hx
  | cons y rest =>
    rw [List.zip_cons_cons, List.zip_nil_left, List.mem_singleton] at hx
    cases hx
    rw [List.filterMap_cons_some ha] at hd
    exact ⟨d, t, u, u', store, _, rest, hd, hv, hcopied⟩

end Synthesizer

end Symex
