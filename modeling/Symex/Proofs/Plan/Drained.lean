import Mathlib.Data.List.Perm.Basic
import Symex.Proofs.Plan.Agenda
import Symex.Proofs.Plan.Enumeration

/-!
# Agendas that are worked off

A draft is derived by choices: each takes one of the refinements of the draft before. An agenda that is started with one
draft hands out, one after the other and until it is empty, the drafts of all derivations that stay within the depth.
Drafts with fewer calls come first, and those with too many are counted as they are left out.
-/

namespace Symex

open Draft (Sane Ready Reaches Legible)

/-! ### Derivations -/

namespace Draft

/-- The draft that choices lead to. Each choice is the position of one of the refinements of the draft before, and leads
nowhere if there are not so many. -/
def follow (c : Catalog) : Draft → List Nat → Except Fault (Option Draft)
  | d, [] => .ok (some d)
  | d, i :: is => do
    match (← d.refine c)[i]? with
    | none => return none
    | some e => follow c e is

variable {c : Catalog} {d e f : Draft}

theorem follow_cons_iff {i : Nat} {is : List Nat} : follow c d (i :: is) = .ok (some f) ↔
    ∃ es e, d.refine c = .ok es ∧ es[i]? = some e ∧ follow c e is = .ok (some f) := by
  rw [follow, bind_eq_ok]
  constructor
  · rintro ⟨es, hes, h⟩
    split at h
    · cases h
    next e he => exact ⟨es, e, hes, he, h⟩
  · rintro ⟨es, e, hes, he, h⟩
    refine ⟨es, hes, ?_⟩
    rw [he]
    exact h

theorem follow_append_iff {is js : List Nat} : follow c d (is ++ js) = .ok (some f) ↔
    ∃ e, follow c d is = .ok (some e) ∧ follow c e js = .ok (some f) := by
  induction is generalizing d with
  | nil => simp [follow]
  | cons i is ih =>
    simp only [List.cons_append, follow_cons_iff, ih]
    constructor
    · rintro ⟨es, x, hes, hx, e, he, hf⟩
      exact ⟨e, ⟨es, x, hes, hx, he⟩, hf⟩
    · rintro ⟨e, ⟨es, x, hes, hx, he⟩, hf⟩
      exact ⟨es, x, hes, hx, e, he, hf⟩

theorem follow_concat_iff {is : List Nat} {i : Nat} : follow c d (is ++ [i]) = .ok (some f) ↔
    ∃ e es, follow c d is = .ok (some e) ∧ e.refine c = .ok es ∧ es[i]? = some f := by
  rw [follow_append_iff]
  constructor
  · rintro ⟨e, he, hf⟩
    obtain ⟨es, x, hes, hx, hend⟩ := follow_cons_iff.mp hf
    cases hend
    exact ⟨e, es, he, hes, hx⟩
  · rintro ⟨e, es, he, hes, hf⟩
    exact ⟨e, he, follow_cons_iff.mpr ⟨es, f, hes, hf, rfl⟩⟩

/-- A draft is reached if there is a derivation of it. -/
theorem reaches_iff_follow : Reaches c d e ↔ ∃ is, follow c d is = .ok (some e) := by
  constructor
  · intro h
    induction h with
    | refl => exact ⟨[], rfl⟩
    | step _ hr hf ih =>
      obtain ⟨is, his⟩ := ih
      obtain ⟨i, hi⟩ := List.getElem?_of_mem hf
      exact ⟨is ++ [i], follow_concat_iff.mpr ⟨_, _, his, hr, hi⟩⟩
  · rintro ⟨is, his⟩
    induction is generalizing d with
    | nil =>
      cases his
      exact .refl
    | cons i is ih =>
      obtain ⟨es, x, hes, hx, hrest⟩ := follow_cons_iff.mp his
      exact (ih hrest).head hes (List.mem_of_getElem? hx)

end Draft

open Draft (follow follow_cons_iff follow_append_iff follow_concat_iff reaches_iff_follow)

/-! ### Working off an agenda -/

namespace Agenda

/-- The drafts that are handed out until there are none left, in order, and the agenda then. -/
inductive Drains (c : Catalog) : Agenda → List Draft → Agenda → Prop
  | done {a : Agenda} (h : a.next c = .ok none) : Drains c a [] a
  | take {a b z : Agenda} {d : Draft} {ds : List Draft} (h : a.next c = .ok (some (d, b))) (hrest : Drains c b ds z) :
      Drains c a (d :: ds) z

/-- Neither of two derivations goes on from the other. -/
def Apart (is js : List Nat) : Prop := ¬ is <+: js ∧ ¬ js <+: is

theorem Apart.symm {is js : List Nat} (h : Apart is js) : Apart js is := ⟨h.2, h.1⟩

theorem Apart.concat {is js : List Nat} (h : Apart is js) (i : Nat) : Apart (is ++ [i]) js := by
  refine ⟨fun hp => h.1 ((List.prefix_append _ _).trans hp), fun hp => ?_⟩
  rcases List.prefix_concat_iff.mp hp with rfl | hp
  · exact h.1 (List.prefix_append _ _)
  · exact h.2 hp

theorem apart_concat (is : List Nat) {i j : Nat} (h : i ≠ j) : Apart (is ++ [i]) (is ++ [j]) := by
  have hne : ∀ {i j : Nat}, i ≠ j → ¬ is ++ [i] <+: is ++ [j] := by
    intro i j hij hp
    have he := hp.eq_of_length (by simp)
    exact hij (by simpa using he)
  exact ⟨hne h, hne h.symm⟩

/-- Entries with a derivation of each, none of which goes on from another. -/
structure Derived (c : Catalog) (d₀ : Draft) (es : List (Nat × Draft)) (qs : List (List Nat)) : Prop where
  entries : List.Forall₂ (fun e is => follow c d₀ is = .ok (some e.2)) es qs
  apart : qs.Pairwise Apart

/-- The drafts that are not too costly, with their positions. -/
def affordable (depth : Nat) (fs : List Draft) : List (Draft × Nat) := fs.zipIdx.filter fun f => f.1.cost ≤ depth

theorem mem_affordable {depth : Nat} {fs : List Draft} {f : Draft} {i : Nat} :
    (f, i) ∈ affordable depth fs ↔ fs[i]? = some f ∧ f.cost ≤ depth := by
  rw [affordable, List.mem_filter, List.mk_mem_zipIdx_iff_getElem?, decide_eq_true_eq]

theorem map_fst_affordable (depth : Nat) (fs : List Draft) :
    (affordable depth fs).map Prod.fst = fs.filter fun f => f.cost ≤ depth := by
  conv_rhs => rw [← List.zipIdx_map_fst 0 fs, List.filter_map]
  rfl

theorem pairwise_affordable (depth : Nat) (fs : List Draft) :
    (affordable depth fs).Pairwise fun f g => f.2 ≠ g.2 := by
  have hnodup : (fs.zipIdx.map Prod.snd).Nodup := by
    rw [List.zipIdx_map_snd]
    exact List.nodup_range'
  exact (List.pairwise_map.mp hnodup).filter _

/-- When a draft is taken out, its derivation is replaced by those of the refinements that are put in. -/
theorem Derived.next {c : Catalog} {d₀ d : Draft} {k depth : Nat} {es es' : List (Nat × Draft)} {fs : List Draft}
    {qs : List (List Nat)} (h : Derived c d₀ ((k, d) :: es) qs) (hfs : d.refine c = .ok fs)
    (hperm : es'.Perm ((fs.filter fun f => f.cost ≤ depth).map (fun f => (f.cost, f)) ++ es)) :
    ∃ q rest qs', qs = q :: rest ∧ follow c d₀ q = .ok (some d) ∧ (∀ x ∈ rest, Apart q x) ∧ Derived c d₀ es' qs' ∧
      ∀ x, x ∈ qs' ↔ (∃ i f, fs[i]? = some f ∧ f.cost ≤ depth ∧ q ++ [i] = x) ∨ x ∈ rest := by
  obtain ⟨q, rest, hq, hrest, rfl⟩ := List.forall₂_cons_left_iff.mp h.entries
  obtain ⟨hqrest, hrestapart⟩ := List.pairwise_cons.mp h.apart
  have hfresh : List.Forall₂ (fun (e : Nat × Draft) is => follow c d₀ is = .ok (some e.2))
      ((fs.filter fun f => f.cost ≤ depth).map fun f => (f.cost, f))
      ((affordable depth fs).map fun f => q ++ [f.2]) := by
    rw [← map_fst_affordable, List.map_map, List.forall₂_map_left_iff, List.forall₂_map_right_iff,
      List.forall₂_same]
    rintro ⟨f, i⟩ hf
    exact follow_concat_iff.mpr ⟨d, fs, hq, hfs, (mem_affordable.mp hf).1⟩
  obtain ⟨qs', hqs', hperm'⟩ := List.perm_comp_forall₂ hperm (List.rel_append hfresh hrest)
  refine ⟨q, rest, qs', rfl, hq, hqrest, ⟨hqs', ?_⟩, fun x => ?_⟩
  · rw [hperm'.pairwise_iff Apart.symm, List.pairwise_append]
    refine ⟨?_, hrestapart, ?_⟩
    · rw [List.pairwise_map]
      exact (pairwise_affordable depth fs).imp fun hij => apart_concat q hij
    · intro x hx y hy
      obtain ⟨f, -, rfl⟩ := List.mem_map.mp hx
      exact (hqrest y hy).concat f.2
  · rw [hperm'.mem_iff, List.mem_append, List.mem_map]
    refine or_congr_left ⟨?_, ?_⟩
    · rintro ⟨⟨f, i⟩, hf, rfl⟩
      obtain ⟨hi, hcost⟩ := mem_affordable.mp hf
      exact ⟨i, f, hi, hcost, rfl⟩
    · rintro ⟨i, f, hi, hcost, rfl⟩
      exact ⟨(f, i), mem_affordable.mpr ⟨hi, hcost⟩, rfl⟩

theorem entries_of_next_none {c : Catalog} {a : Agenda} (h : a.next c = .ok none) : a.entries = [] := by
  unfold next at h
  split at h
  next hnil => exact hnil
  next =>
    obtain ⟨_, -, h⟩ := bind_eq_ok.mp h
    obtain ⟨_, -, h⟩ := bind_eq_ok.mp h
    cases h

section

variable {c : Catalog} {targets : Store} {roots : List Handle} {depth : Nat} (ha : targets.Acyclic)
  (hl : targets.PrimitiveLengths) (hr : Ready targets roots) {a b z : Agenda} {d : Draft} {ds : List Draft}

include ha hl hr

theorem Sound.of_next (hsound : Sound c targets roots depth a) (h : a.next c = .ok (some (d, b))) :
    ∃ es fs, a.entries = (d.cost, d) :: es ∧ d.cost ≤ depth ∧ Sane c targets roots d ∧ d.refine c = .ok fs ∧
      Sound c targets roots depth b ∧
      b.entries.Perm ((fs.filter fun f => f.cost ≤ depth).map (fun f => (f.cost, f)) ++ es) ∧
      b.pruned = a.pruned + fs.countP fun f => depth < f.cost := by
  cases hes : a.entries with
  | nil =>
    rw [next, hes] at h
    cases h
  | cons e es =>
    obtain ⟨k, x⟩ := e
    obtain ⟨fs, b', hfs, hnext, hb, hperm, hpruned⟩ := hsound.exists_next ha hl hr hes
    rw [h] at hnext
    cases hnext
    obtain ⟨hsane, hk, hle⟩ := hsound.sane (k, d) (hes ▸ List.mem_cons_self)
    exact ⟨es, fs, by rw [← hk], hk ▸ hle, hsane, hfs, hb, hperm, hpruned⟩

/-- An agenda is worked off in finitely many steps. -/
theorem Sound.exists_drains (hsound : Sound c targets roots depth a) : ∃ ds z, Drains c a ds z := by
  induction hm : a.weight c using Nat.strongRecOn generalizing a with
  | _ m ih =>
    cases hes : a.entries with
    | nil =>
      refine ⟨[], a, .done ?_⟩
      rw [next, hes]
    | cons e es =>
      obtain ⟨k, d⟩ := e
      obtain ⟨fs, b, hfs, hnext, hb, hperm, -⟩ := hsound.exists_next ha hl hr hes
      obtain ⟨ds, z, hrest⟩ := ih _ (hm ▸ hb.weight_lt ha hl hr hsound hes hfs hperm) hb rfl
      exact ⟨d :: ds, z, .take hnext hrest⟩

/-- Everything that is handed out was made from an entry, and has no more calls than the depth allows. -/
theorem Drains.mem (h : Drains c a ds z) (hsound : Sound c targets roots depth a) {f : Draft} (hf : f ∈ ds) :
    (∃ e ∈ a.entries, Reaches c e.2 f) ∧ Sane c targets roots f ∧ f.cost ≤ depth := by
  induction h with
  | done _ => cases hf
  | take h _ ih =>
    obtain ⟨es, fs, hes, hle, hsane, hfs, hb, hperm, -⟩ := hsound.of_next ha hl hr h
    rcases List.mem_cons.mp hf with rfl | hf
    · exact ⟨⟨_, hes ▸ List.mem_cons_self, .refl⟩, hsane, hle⟩
    · obtain ⟨⟨e, he, hreach⟩, hrest⟩ := ih hb hf
      exact ⟨reaches_of_next hes hfs hperm he hreach, hrest⟩

/-- Drafts with fewer calls are handed out first. -/
theorem Drains.sorted (h : Drains c a ds z) (hsound : Sound c targets roots depth a) :
    ds.Pairwise fun d e => d.cost ≤ e.cost := by
  induction h with
  | done _ => exact .nil
  | take h hrest ih =>
    obtain ⟨es, fs, hes, -, -, hfs, hb, hperm, -⟩ := hsound.of_next ha hl hr h
    refine List.pairwise_cons.mpr ⟨fun f hf => ?_, ih hb⟩
    obtain ⟨⟨e, he, hreach⟩, -⟩ := hrest.mem ha hl hr hb hf
    obtain ⟨e', he', hreach'⟩ := reaches_of_next hes hfs hperm he hreach
    exact hsound.head_le ha hl hr hes he' hreach'

/-- The drafts that are left out on the way are the refinements with too many calls. -/
theorem Drains.pruned_eq (h : Drains c a ds z) (hsound : Sound c targets roots depth a) :
    ∃ fss, ds.mapM (Draft.refine · c) = .ok fss ∧ (∀ f ∈ fss.flatten, Sane c targets roots f) ∧
      z.pruned = a.pruned + fss.flatten.countP fun f => depth < f.cost := by
  induction h with
  | done _ => exact ⟨[], rfl, nofun, rfl⟩
  | take h _ ih =>
    obtain ⟨es, fs, -, -, hsane, hfs, hb, -, hpruned⟩ := hsound.of_next ha hl hr h
    obtain ⟨fss, hfss, hall, hrest⟩ := ih hb
    refine ⟨fs :: fss, ?_, ?_, ?_⟩
    · rw [mapM_eq_ok] at hfss ⊢
      exact .cons hfs hfss
    · intro f hf
      rcases List.mem_append.mp hf with hf | hf
      · exact hsane.of_reaches (.step .refl hfs hf)
      · exact hall f hf
    · rw [hrest, hpruned, List.flatten_cons, List.countP_append, Nat.add_assoc]

/-- A derivation that goes on from `q` makes one of the refinements of what `q` leads to, and that has no more calls
than what comes of it. -/
theorem prefix_cases {d₀ : Draft} {q is : List Nat} {fs : List Draft} {e : Draft} (hq : follow c d₀ q = .ok (some d))
    (hs : Sane c targets roots d) (hfs : d.refine c = .ok fs) (hbegins : q <+: is)
    (he : follow c d₀ is = .ok (some e)) :
    is = q ∨ ∃ i f, fs[i]? = some f ∧ f.cost ≤ e.cost ∧ q ++ [i] <+: is := by
  obtain ⟨js, rfl⟩ := hbegins
  cases js with
  | nil => exact Or.inl (List.append_nil q)
  | cons i js =>
    obtain ⟨d', hd', hjs⟩ := follow_append_iff.mp he
    rw [hq] at hd'
    cases hd'
    obtain ⟨fs', f, hfs', hf, hrest⟩ := follow_cons_iff.mp hjs
    rw [hfs] at hfs'
    cases hfs'
    have hmade : Sane c targets roots f := hs.of_reaches (.step .refl hfs (List.mem_of_getElem? hf))
    refine Or.inr ⟨i, f, hf, hmade.cost_le_of_reaches ha hl hr (reaches_iff_follow.mpr ⟨js, hrest⟩), js, ?_⟩
    rw [List.append_assoc, List.singleton_append]

/-- An agenda whose entries are derived hands out the drafts of all derivations that go on from these and stay within
the depth, each once. -/
theorem Drains.lists {d₀ : Draft} (h : Drains c a ds z) (hsound : Sound c targets roots depth a) {qs : List (List Nat)}
    (hqs : Derived c d₀ a.entries qs) :
    ∃ derivations : List (List Nat), derivations.Nodup ∧
      List.Forall₂ (fun is d => follow c d₀ is = .ok (some d)) derivations ds ∧
      ∀ is, is ∈ derivations ↔ (∃ q ∈ qs, q <+: is) ∧ ∃ e, follow c d₀ is = .ok (some e) ∧ e.cost ≤ depth := by
  induction h generalizing qs with
  | @done a h =>
    have hnil := hqs.entries
    rw [entries_of_next_none h, List.forall₂_nil_left_iff] at hnil
    exact ⟨[], .nil, .nil, by simp [hnil]⟩
  | @take a b z d ds h _ ih =>
    obtain ⟨es, fs, hes, hle, hsane, hfs, hb, hperm, -⟩ := hsound.of_next ha hl hr h
    obtain ⟨q, rest, qs', rfl, hq, hapart, hqs', hgoes⟩ := Derived.next (hes ▸ hqs) hfs hperm
    obtain ⟨derivations, hnodup, hall, hmem⟩ := ih hb hqs'
    refine ⟨q :: derivations, List.nodup_cons.mpr ⟨?_, hnodup⟩, .cons hq hall, ?_⟩
    · intro hmemq
      obtain ⟨⟨x, hx, hbegins⟩, -⟩ := (hmem q).mp hmemq
      rcases (hgoes x).mp hx with ⟨i, f, -, -, rfl⟩ | hx
      · have hlong := hbegins.length_le
        rw [List.length_append, List.length_singleton] at hlong
        omega
      · exact (hapart x hx).2 hbegins
    · intro is
      rw [List.mem_cons, hmem]
      constructor
      · rintro (rfl | ⟨⟨x, hx, hbegins⟩, hin⟩)
        · exact ⟨⟨is, List.mem_cons_self, List.prefix_rfl⟩, d, hq, hle⟩
        · refine ⟨?_, hin⟩
          rcases (hgoes x).mp hx with ⟨i, f, -, -, rfl⟩ | hx
          · exact ⟨q, List.mem_cons_self, (List.prefix_append _ _).trans hbegins⟩
          · exact ⟨x, List.mem_cons_of_mem _ hx, hbegins⟩
      · rintro ⟨⟨x, hx, hbegins⟩, e, he, hcost⟩
        rcases List.mem_cons.mp hx with rfl | hx
        · rcases prefix_cases ha hl hr hq hsane hfs hbegins he with rfl | ⟨i, f, hf, hfe, hlonger⟩
          · exact Or.inl rfl
          · have hgone := (hgoes _).mpr (Or.inl ⟨i, f, hf, hfe.trans hcost, rfl⟩)
            exact Or.inr ⟨⟨_, hgone, hlonger⟩, e, he, hcost⟩
        · exact Or.inr ⟨⟨x, (hgoes x).mpr (Or.inr hx), hbegins⟩, e, he, hcost⟩

/-- An agenda that is started with one draft hands out what is derived from it and stays within the depth. -/
theorem Drains.lists_start {d₀ : Draft} (h : Drains c a ds z) (hsound : Sound c targets roots depth a)
    (hfirst : Sane c targets roots d₀) (hentries : a.entries = if d₀.cost ≤ depth then [(d₀.cost, d₀)] else []) :
    ∃ derivations : List (List Nat), derivations.Nodup ∧ derivations.mapM (follow c d₀) = .ok (ds.map some) ∧
      ∀ is, is ∈ derivations ↔ ∃ d, follow c d₀ is = .ok (some d) ∧ d.cost ≤ depth := by
  -- The draft itself is derived by no choices, and all that is derived from it goes on from there.
  have hqs : Derived c d₀ a.entries (if d₀.cost ≤ depth then [[]] else []) := by
    rw [hentries]
    split
    · exact ⟨.cons rfl .nil, List.pairwise_singleton _ _⟩
    · exact ⟨.nil, .nil⟩
  obtain ⟨derivations, hnodup, hall, hmem⟩ := h.lists ha hl hr hsound hqs
  refine ⟨derivations, hnodup, mapM_eq_ok.mpr (List.forall₂_map_right_iff.mpr hall), fun is => ?_⟩
  rw [hmem]
  refine ⟨And.right, fun ⟨d, hd, hle⟩ => ⟨⟨[], ?_, List.nil_prefix⟩, d, hd, hle⟩⟩
  have hin := (hfirst.cost_le_of_reaches ha hl hr (reaches_iff_follow.mpr ⟨is, hd⟩)).trans hle
  rw [if_pos hin]
  exact List.mem_singleton_self _

end

theorem mem_iff_reaches {c : Catalog} {d₀ d : Draft} {depth : Nat} {ds : List Draft} {derivations : List (List Nat)}
    (hall : derivations.mapM (follow c d₀) = .ok (ds.map some))
    (hmem : ∀ is, is ∈ derivations ↔ ∃ d, follow c d₀ is = .ok (some d) ∧ d.cost ≤ depth) :
    d ∈ ds ↔ Reaches c d₀ d ∧ d.cost ≤ depth := by
  constructor
  · intro hd
    obtain ⟨is, his, hfollow⟩ := mem_of_mapM hall (List.mem_map_of_mem hd)
    obtain ⟨e, he, hle⟩ := (hmem is).mp his
    rw [hfollow] at he
    cases he
    exact ⟨reaches_iff_follow.mpr ⟨is, hfollow⟩, hle⟩
  · rintro ⟨hreach, hle⟩
    obtain ⟨is, hfollow⟩ := reaches_iff_follow.mp hreach
    obtain ⟨x, hx, he⟩ := exists_mem_of_mapM hall ((hmem is).mpr ⟨d, hfollow, hle⟩)
    rw [hfollow] at he
    cases he
    simpa using hx

/-- An agenda that is started with a draft is worked off in finitely many steps, unless its calls cannot be counted.
What it hands out are the drafts of all derivations with no more calls than the depth allows, each as often as it is
derived, and those with fewer calls first. What was left out are the refinements of these, and the draft that it was
started with, as far as they have too many calls. -/
theorem start_drains {c : Catalog} {targets : Store} {roots : List Handle} {d₀ : Draft} (hl : targets.PrimitiveLengths)
    (ha : targets.Acyclic) (hd₀ : Reaches c { targets, roots } d₀) (depth : Nat) :
    (¬ Legible targets roots → ∃ e, start d₀ depth = .error e) ∧
    (Legible targets roots → ∃ a ds z, start d₀ depth = .ok a ∧ Drains c a ds z ∧
      (∀ d, d ∈ ds ↔ Reaches c d₀ d ∧ ∃ k ≤ depth, d.calls = .ok k) ∧
      (∃ derivations : List (List Nat), derivations.Nodup ∧
        derivations.mapM (follow c d₀) = .ok (ds.map some) ∧
        ∀ is, is ∈ derivations ↔ ∃ d k, follow c d₀ is = .ok (some d) ∧ d.calls = .ok k ∧ k ≤ depth) ∧
      (∃ ks, ds.mapM Draft.calls = .ok ks ∧ ks.Pairwise (· ≤ ·)) ∧
      ∃ fss ns, ds.mapM (Draft.refine · c) = .ok fss ∧ (d₀ :: fss.flatten).mapM Draft.calls = .ok ns ∧
        z.pruned = ns.countP (depth < ·)) := by
  have hfirst : Sane c targets roots d₀ := (Draft.sane_start c targets roots).of_reaches hd₀
  constructor
  · intro hnot
    cases hcalls : d₀.calls with
    | ok k => exact absurd ((Draft.ready_iff_legible ha).mp (hfirst.ready_of_calls ha hl hcalls)) hnot
    | error e =>
      refine ⟨e, ?_⟩
      rw [start, push, hcalls]
      rfl
  · intro hlegible
    have hr := (Draft.ready_iff_legible ha).mpr hlegible
    have hsane : ∀ {d : Draft}, Reaches c d₀ d → Sane c targets roots d := fun h => hfirst.of_reaches h
    have hcalls : ∀ {ds : List Draft}, (∀ d ∈ ds, Sane c targets roots d) →
        ds.mapM Draft.calls = .ok (ds.map Draft.cost) :=
      fun hs => mapM_of_forall fun d hd => (hs d hd).calls_eq ha hl hr
    obtain ⟨a, hstart, hsound, hentries, hpruned⟩ := exists_start_entries ha hl hr hfirst depth
    obtain ⟨ds, z, hdrains⟩ := hsound.exists_drains ha hl hr
    obtain ⟨derivations, hnodup, hall, hmem⟩ := hdrains.lists_start ha hl hr hsound hfirst hentries
    have hds : ∀ d, d ∈ ds ↔ Reaches c d₀ d ∧ d.cost ≤ depth := fun d => mem_iff_reaches hall hmem
    obtain ⟨fss, hfss, hmade, hz⟩ := hdrains.pruned_eq ha hl hr hsound
    refine ⟨a, ds, z, hstart, hdrains, ?_, ⟨derivations, hnodup, hall, ?_⟩, ⟨ds.map Draft.cost, ?_, ?_⟩,
      fss, (d₀ :: fss.flatten).map Draft.cost, hfss, ?_, ?_⟩
    · intro d
      rw [hds]
      refine and_congr_right fun hreach => ?_
      simp [(hsane hreach).calls_eq ha hl hr]
    · intro is
      rw [hmem]
      refine exists_congr fun d => ?_
      rw [exists_and_left]
      refine and_congr_right fun hfollow => ?_
      simp [(hsane (reaches_iff_follow.mpr ⟨is, hfollow⟩)).calls_eq ha hl hr]
    · exact hcalls fun d hd => hsane ((hds d).mp hd).1
    · exact List.pairwise_map.mpr (hdrains.sorted ha hl hr hsound)
    · exact hcalls (List.forall_mem_cons.mpr ⟨hfirst, hmade⟩)
    · rw [hz, hpruned, ← List.countP_append, List.singleton_append, List.countP_map]
      rfl

/-- With one call, the box in the crate is made or filled, and what it is filled with stays open. -/
theorem start_drains_crate :
    let d₀ : Draft := { targets := Draft.crate, roots := [⟨1⟩] }
    Draft.crate.PrimitiveLengths ∧ Draft.crate.Acyclic ∧ Reaches Draft.boxes d₀ d₀ ∧ Legible Draft.crate [⟨1⟩] ∧
      ∃ a ds z, start d₀ 1 = .ok a ∧ Drains Draft.boxes a ds z ∧ (∀ d ∈ ds, ∃ k ≤ 1, d.calls = .ok k) ∧
        d₀.decide ⟨4⟩ (.call (.constructor "Box" [.int]) [.hole .int]) ∈ ds ∧
        d₀.decide ⟨4⟩ (.call (.modifier "Box" "fill" [.object "Box"] .void)
          [.hole (.object "Box"), .hole (.object "Box")]) ∈ ds := by
  intro d₀
  have hd₀ : Reaches Draft.boxes d₀ d₀ := .refl
  obtain ⟨-, hall⟩ := start_drains Draft.primitiveLengths_crate Draft.acyclic_crate hd₀ 1
  obtain ⟨a, ds, z, ha, hdrains, hmem, -⟩ := hall Draft.legible_crate
  refine ⟨Draft.primitiveLengths_crate, Draft.acyclic_crate, hd₀, Draft.legible_crate, a, ds, z, ha, hdrains,
    fun d hd => ((hmem d).mp hd).2, (hmem _).mpr ⟨?_, 1, le_rfl, rfl⟩, (hmem _).mpr ⟨?_, 1, le_rfl, rfl⟩⟩
  · exact .step hd₀ rfl (List.mem_of_getElem? (i := 1) rfl)
  · exact .step hd₀ rfl (List.mem_of_getElem? (i := 2) rfl)

end Agenda

end Symex
