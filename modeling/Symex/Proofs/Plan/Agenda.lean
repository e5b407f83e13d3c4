import Mathlib.Algebra.Order.BigOperators.Group.List
import Symex.Plan.Agenda
import Symex.Proofs.Plan.Reach

/-!
# Working through an agenda

The agenda hands out drafts by their number of calls, and refinement never takes a call away. Taking a draft out and
putting its refinements in makes the agenda lighter, because a refinement closes holes, or pays for the holes it opens
with calls, of which there can be only so many.
-/

namespace Symex

open Draft (Sane Ready Reaches)

/-! ### Reaching drafts step by step -/

namespace Draft

variable {c : Catalog} {d e : Draft}

theorem Reaches.head {ds : List Draft} {f : Draft} (hr : d.refine c = .ok ds) (he : e ∈ ds) (h : Reaches c e f) :
    Reaches c d f :=
  (Reaches.step .refl hr he).trans h

/-- A draft that is reached is the one to start from, or is reached from one of its refinements. -/
theorem Reaches.cases_head (h : Reaches c d e) : e = d ∨ ∃ ds, d.refine c = .ok ds ∧ ∃ f ∈ ds, Reaches c f e := by
  induction h with
  | refl => exact Or.inl rfl
  | step _ hstep hf ih =>
    refine Or.inr ?_
    rcases ih with rfl | ⟨ds, hds, g, hg, hreach⟩
    · exact ⟨_, hstep, _, hf, .refl⟩
    · exact ⟨ds, hds, g, hg, .step hreach hstep hf⟩

section

variable {targets : Store} {roots : List Handle} (ha : targets.Acyclic) (hl : targets.PrimitiveLengths)
  (hr : Ready targets roots)

include ha hl hr

theorem Sane.cost_le_of_reaches (hs : Sane c targets roots d) (h : Reaches c d e) : d.cost ≤ e.cost := by
  induction h with
  | refl => exact Nat.le_refl _
  | step hreach hstep hf ih =>
    obtain ⟨o, -, h | h⟩ := (hs.of_reaches hreach).progress ha hl hr hstep hf <;> omega

theorem Sane.length_refine_le (hs : Sane c targets roots d) {ds : List Draft} (hds : d.refine c = .ok ds) :
    ds.length ≤ c.breadth := by
  rw [hs.refine_eq ha hl hr] at hds
  cases hds
  by_cases hn : firstNonempty ((roots.flatMap targets.leaves).map (d.refinements c)) = []
  · rw [hn]
    exact Nat.zero_le _
  · obtain ⟨e, he⟩ := List.exists_mem_of_ne_nil _ hn
    obtain ⟨l, hmem, heq⟩ := mem_firstNonempty he
    obtain ⟨h, -, rfl⟩ := List.mem_map.mp hmem
    rw [heq, refinements, List.length_map]
    exact Plan.length_refine_le c _

end

/-- What a draft may still do: close its open holes, and make calls that open others. -/
def potential (c : Catalog) (depth : Nat) (d : Draft) : Nat := d.openHoles + (c.width + 1) * (depth - d.cost)

/-- More than the number of drafts that can be reached without more calls than `depth`. -/
def weight (c : Catalog) (depth : Nat) (d : Draft) : Nat := (c.breadth + 1) ^ d.potential c depth

section

variable {targets : Store} {roots : List Handle} (ha : targets.Acyclic) (hl : targets.PrimitiveLengths)
  (hr : Ready targets roots) (hs : Sane c targets roots d)

include ha hl hr hs

theorem Sane.potential_lt {ds : List Draft} (hds : d.refine c = .ok ds) (he : e ∈ ds) {depth : Nat}
    (hd : e.cost ≤ depth) : e.potential c depth < d.potential c depth := by
  obtain ⟨o, ho, ⟨hcost, hopen⟩ | ⟨hcost, hopen⟩⟩ := hs.progress ha hl hr hds he
  · unfold potential
    rw [hcost]
    omega
  · have hleft : depth - d.cost = (depth - e.cost) + o := by omega
    unfold potential
    rw [hleft, Nat.mul_add, Nat.add_mul c.width 1 o, Nat.mul_comm c.width o]
    omega

/-- The refinements that are not too costly weigh less than the draft. -/
theorem Sane.weight_refine_lt {ds : List Draft} (hds : d.refine c = .ok ds) (depth : Nat) :
    ((ds.filter fun e => e.cost ≤ depth).map (weight c depth)).sum < d.weight c depth := by
  have hless : ∀ e ∈ ds.filter fun e => e.cost ≤ depth, e.potential c depth < d.potential c depth := by
    intro e he
    obtain ⟨hmem, hcost⟩ := List.mem_filter.mp he
    exact hs.potential_lt ha hl hr hds hmem (of_decide_eq_true hcost)
  by_cases hn : (ds.filter fun e => e.cost ≤ depth) = []
  · rw [hn]
    exact Nat.pow_pos (Nat.succ_pos _)
  · obtain ⟨e, he⟩ := List.exists_mem_of_ne_nil _ hn
    have hlt := hless e he
    obtain ⟨p, hp⟩ : ∃ p, d.potential c depth = p + 1 := Nat.exists_eq_add_one_of_ne_zero (by omega)
    have hbound : ∀ x ∈ (ds.filter fun e => e.cost ≤ depth).map (weight c depth), x ≤ (c.breadth + 1) ^ p := by
      intro x hx
      obtain ⟨f, hf, rfl⟩ := List.mem_map.mp hx
      have hle := hless f hf
      exact Nat.pow_le_pow_right (Nat.succ_pos _) (by omega)
    have hlen : ((ds.filter fun e => e.cost ≤ depth).map (weight c depth)).length ≤ c.breadth := by
      rw [List.length_map]
      exact (List.length_filter_le _ _).trans (hs.length_refine_le ha hl hr hds)
    calc ((ds.filter fun e => e.cost ≤ depth).map (weight c depth)).sum
        ≤ ((ds.filter fun e => e.cost ≤ depth).map (weight c depth)).length • (c.breadth + 1) ^ p :=
          List.sum_le_card_nsmul _ _ hbound
      _ ≤ c.breadth * (c.breadth + 1) ^ p := Nat.mul_le_mul_right _ hlen
      _ < (c.breadth + 1) * (c.breadth + 1) ^ p :=
        Nat.mul_lt_mul_of_pos_right (Nat.lt_succ_self _) (Nat.pow_pos (Nat.succ_pos _))
      _ = d.weight c depth := by rw [weight, hp, Nat.pow_succ, Nat.mul_comm]

end

end Draft

/-! ### The agenda -/

namespace Agenda

theorem insert_perm (n : Nat) (d : Draft) (es : List (Nat × Draft)) : (insert n d es).Perm ((n, d) :: es) := by
  induction es with
  | nil => exact .refl _
  | cons e es ih =>
    rw [insert]
    split
    · exact .refl _
    · exact (ih.cons e).trans (.swap _ _ _)

theorem pairwise_insert (n : Nat) (d : Draft) {es : List (Nat × Draft)} (h : es.Pairwise fun e f => e.1 ≤ f.1) :
    (insert n d es).Pairwise fun e f => e.1 ≤ f.1 := by
  induction es with
  | nil => exact List.pairwise_singleton _ _
  | cons e es ih =>
    obtain ⟨hle, hes⟩ := List.pairwise_cons.mp h
    rw [insert]
    split
    next hlt =>
      refine List.pairwise_cons.mpr ⟨?_, h⟩
      intro f hf
      rcases List.mem_cons.mp hf with rfl | hf
      · exact Nat.le_of_lt hlt
      · exact (Nat.le_of_lt hlt).trans (hle f hf)
    next hge =>
      refine List.pairwise_cons.mpr ⟨?_, ih hes⟩
      intro f hf
      rcases List.mem_cons.mp ((insert_perm n d es).mem_iff.mp hf) with rfl | hf
      · exact Nat.le_of_not_lt hge
      · exact hle f hf

/-- An agenda whose drafts are in order, with their right numbers of calls. -/
structure Sound (c : Catalog) (targets : Store) (roots : List Handle) (depth : Nat) (a : Agenda) : Prop where
  depth_eq : a.depth = depth
  sane : ∀ e ∈ a.entries, Sane c targets roots e.2 ∧ e.1 = e.2.cost ∧ e.1 ≤ depth
  sorted : a.entries.Pairwise fun e f => e.1 ≤ f.1

/-- The weight of the drafts still to be looked at. -/
def weight (c : Catalog) (a : Agenda) : Nat := (a.entries.map fun e => e.2.weight c a.depth).sum

section

variable {c : Catalog} {targets : Store} {roots : List Handle} {depth : Nat} (ha : targets.Acyclic)
  (hl : targets.PrimitiveLengths) (hr : Ready targets roots) {a : Agenda} (hsound : Sound c targets roots depth a)

include ha hl hr hsound

theorem Sound.exists_push {d : Draft} (hs : Sane c targets roots d) :
    ∃ taken b, a.push d = .ok (taken, b) ∧ Sound c targets roots depth b ∧
      b.entries.Perm (if d.cost ≤ depth then (d.cost, d) :: a.entries else a.entries) ∧
      b.pruned = a.pruned + [d].countP fun e => depth < e.cost := by
  have hcalls := hs.calls_eq ha hl hr
  unfold push
  rw [hcalls]
  show ∃ taken b, (if a.depth < d.cost then _ else _) = _ ∧ _
  rw [hsound.depth_eq]
  by_cases hd : d.cost ≤ depth
  · rw [if_neg (Nat.not_lt.mpr hd), if_pos hd]
    have hperm := insert_perm d.cost d a.entries
    refine ⟨_, _, rfl, ⟨rfl, ?_, pairwise_insert _ _ hsound.sorted⟩, hperm, by simpa using hd⟩
    intro e he
    rcases List.mem_cons.mp (hperm.mem_iff.mp he) with rfl | he
    · exact ⟨hs, rfl, hd⟩
    · exact hsound.sane e he
  · rw [if_pos (Nat.lt_of_not_le hd), if_neg hd]
    exact ⟨_, _, rfl, ⟨rfl, hsound.sane, hsound.sorted⟩, .refl _, by simpa using hd⟩

theorem Sound.exists_pushAll {ds : List Draft} (hs : ∀ d ∈ ds, Sane c targets roots d) :
    ∃ b, a.pushAll ds = .ok b ∧ Sound c targets roots depth b ∧
      b.entries.Perm ((ds.filter fun d => d.cost ≤ depth).map (fun d => (d.cost, d)) ++ a.entries) ∧
      b.pruned = a.pruned + ds.countP fun e => depth < e.cost := by
  induction ds generalizing a with
  | nil => exact ⟨a, rfl, hsound, .refl _, rfl⟩
  | cons d ds ih =>
    obtain ⟨taken, b, hpush, hb, hperm, hpruned⟩ := hsound.exists_push ha hl hr (hs d List.mem_cons_self)
    obtain ⟨b', hall, hb', hperm', hpruned'⟩ := ih hb fun e he => hs e (List.mem_cons_of_mem _ he)
    refine ⟨b', ?_, hb', hperm'.trans ?_, ?_⟩
    · unfold pushAll
      rw [List.foldlM_cons]
      exact bind_eq_ok.mpr ⟨b, bind_eq_ok.mpr ⟨_, hpush, rfl⟩, hall⟩
    · refine (hperm.append_left _).trans ?_
      by_cases hd : d.cost ≤ depth
      · rw [if_pos hd, List.filter_cons_of_pos (by simpa using hd), List.map_cons]
        exact List.perm_middle
      · rw [if_neg hd, List.filter_cons_of_neg (by simpa using hd)]
    · rw [hpruned', hpruned, Nat.add_assoc, ← List.countP_append, List.singleton_append]

/-- Taking the next draft out and putting its refinements in. -/
theorem Sound.exists_next {k : Nat} {d : Draft} {es : List (Nat × Draft)} (hes : a.entries = (k, d) :: es) :
    ∃ ds b, d.refine c = .ok ds ∧ a.next c = .ok (some (d, b)) ∧ Sound c targets roots depth b ∧
      b.entries.Perm ((ds.filter fun d => d.cost ≤ depth).map (fun d => (d.cost, d)) ++ es) ∧
      b.pruned = a.pruned + ds.countP fun e => depth < e.cost := by
  have hsane : Sane c targets roots d := (hsound.sane (k, d) (by rw [hes]; exact List.mem_cons_self)).1
  obtain ⟨ds, hds⟩ : ∃ ds, d.refine c = .ok ds := ⟨_, hsane.refine_eq ha hl hr⟩
  have hrest : Sound c targets roots depth { a with entries := es } := by
    refine ⟨hsound.depth_eq, fun e he => hsound.sane e ?_, ?_⟩
    · rw [hes]
      exact List.mem_cons_of_mem _ he
    · have hsorted := hsound.sorted
      rw [hes] at hsorted
      exact (List.pairwise_cons.mp hsorted).2
  have hrefined : ∀ e ∈ ds, Sane c targets roots e := fun e he => hsane.of_reaches (.step .refl hds he)
  obtain ⟨b, hall, hb, hperm, hpruned⟩ := hrest.exists_pushAll ha hl hr hrefined
  refine ⟨ds, b, hds, ?_, hb, hperm, hpruned⟩
  unfold next
  rw [hes]
  exact bind_eq_ok.mpr ⟨ds, hds, bind_eq_ok.mpr ⟨b, hall, rfl⟩⟩

omit hsound in
/-- The agenda that is started with a draft holds it, unless it has too many calls. -/
theorem exists_start_entries {d : Draft} (hs : Sane c targets roots d) (depth : Nat) : ∃ a, start d depth = .ok a ∧
    Sound c targets roots depth a ∧ a.entries = (if d.cost ≤ depth then [(d.cost, d)] else []) ∧
    a.pruned = [d].countP fun e => depth < e.cost := by
  have hempty : Sound c targets roots depth { depth } := ⟨rfl, (fun e he => by cases he), .nil⟩
  obtain ⟨taken, a, hpush, hsound, hperm, hpruned⟩ := hempty.exists_push ha hl hr hs
  refine ⟨a, bind_eq_ok.mpr ⟨_, hpush, rfl⟩, hsound, ?_, hpruned.trans (Nat.zero_add _)⟩
  split
  next hd => rwa [if_pos hd, List.perm_singleton] at hperm
  next hd => rwa [if_neg hd, List.perm_nil] at hperm

omit hsound in
/-- Drafts that are cheap enough are reached from the agenda of the first draft as they are from that draft. -/
theorem exists_start : ∃ a, start { targets, roots } depth = .ok a ∧ Sound c targets roots depth a ∧
    ∀ d : Draft, d.cost ≤ depth → ((∃ e ∈ a.entries, Reaches c e.2 d) ↔ Reaches c { targets, roots } d) := by
  have hstart := Draft.sane_start c targets roots
  obtain ⟨a, ha', hsound, hentries, -⟩ := exists_start_entries ha hl hr hstart depth
  refine ⟨a, ha', hsound, ?_⟩
  intro d hd
  constructor
  · rintro ⟨e, he, hreach⟩
    rw [hentries] at he
    split at he
    · rwa [List.mem_singleton.mp he] at hreach
    · cases he
  · intro hreach
    have hle := (hstart.cost_le_of_reaches ha hl hr hreach).trans hd
    refine ⟨(Draft.cost { targets, roots }, { targets, roots }), ?_, hreach⟩
    rw [hentries, if_pos hle]
    exact List.mem_singleton_self _

theorem Sound.head_le {k : Nat} {d : Draft} {es : List (Nat × Draft)} (hes : a.entries = (k, d) :: es)
    {e : Nat × Draft} (he : e ∈ a.entries) {f : Draft} (hf : Reaches c e.2 f) : d.cost ≤ f.cost := by
  have hk : k = d.cost := (hsound.sane (k, d) (by rw [hes]; exact List.mem_cons_self)).2.1
  obtain ⟨hsane, hcost, -⟩ := hsound.sane e he
  have hmono := hsane.cost_le_of_reaches ha hl hr hf
  have hle : k ≤ e.1 := by
    have hsorted := hsound.sorted
    rw [hes] at hsorted he
    rcases List.mem_cons.mp he with rfl | he
    · exact Nat.le_refl _
    · exact (List.pairwise_cons.mp hsorted).1 e he
  omega

omit hsound in
/-- What can be reached from the agenda, and is not the next draft, can still be reached after it is taken out. -/
theorem Sound.reaches_next {b : Agenda} (hsound : Sound c targets roots depth a) {k : Nat} {d : Draft}
    {es : List (Nat × Draft)} (hes : a.entries = (k, d) :: es) {ds : List Draft} (hds : d.refine c = .ok ds)
    (hperm : b.entries.Perm ((ds.filter fun d => d.cost ≤ depth).map (fun d => (d.cost, d)) ++ es))
    {e : Nat × Draft} (he : e ∈ a.entries) {f : Draft} (hf : Reaches c e.2 f) (hcost : f.cost ≤ depth) :
    f = d ∨ ∃ g ∈ b.entries, Reaches c g.2 f := by
  have hsane : Sane c targets roots d := (hsound.sane (k, d) (by rw [hes]; exact List.mem_cons_self)).1
  rw [hes] at he
  rcases List.mem_cons.mp he with rfl | he
  · rcases hf.cases_head with rfl | ⟨ds', hds', g, hg, hgf⟩
    · exact Or.inl rfl
    · rw [hds] at hds'
      cases hds'
      -- A refinement that has too many calls already leads to nothing with fewer.
      have hle : g.cost ≤ f.cost := (hsane.of_reaches (.step .refl hds hg)).cost_le_of_reaches ha hl hr hgf
      have hmem : g ∈ ds.filter fun d => d.cost ≤ depth := List.mem_filter.mpr ⟨hg, by simpa using hle.trans hcost⟩
      refine Or.inr ⟨(g.cost, g), hperm.mem_iff.mpr ?_, hgf⟩
      exact List.mem_append_left _ (List.mem_map.mpr ⟨g, hmem, rfl⟩)
  · exact Or.inr ⟨e, hperm.mem_iff.mpr (List.mem_append_right _ he), hf⟩

omit ha hl hr hsound in
theorem reaches_of_next {b : Agenda} {k : Nat} {d : Draft} {es : List (Nat × Draft)} (hes : a.entries = (k, d) :: es)
    {ds : List Draft} (hds : d.refine c = .ok ds)
    (hperm : b.entries.Perm ((ds.filter fun d => d.cost ≤ depth).map (fun d => (d.cost, d)) ++ es))
    {g : Nat × Draft} (hg : g ∈ b.entries) {f : Draft} (hf : Reaches c g.2 f) : ∃ e ∈ a.entries, Reaches c e.2 f := by
  rw [hes]
  rcases List.mem_append.mp (hperm.mem_iff.mp hg) with hg | hg
  · obtain ⟨x, hx, rfl⟩ := List.mem_map.mp hg
    exact ⟨(k, d), List.mem_cons_self, hf.head hds (List.mem_of_mem_filter hx)⟩
  · exact ⟨g, List.mem_cons_of_mem _ hg, hf⟩

omit hsound in
theorem Sound.weight_lt {b : Agenda} (hb : Sound c targets roots depth b) (hsound : Sound c targets roots depth a)
    {k : Nat} {d : Draft} {es : List (Nat × Draft)} (hes : a.entries = (k, d) :: es) {ds : List Draft}
    (hds : d.refine c = .ok ds)
    (hperm : b.entries.Perm ((ds.filter fun d => d.cost ≤ depth).map (fun d => (d.cost, d)) ++ es)) :
    b.weight c < a.weight c := by
  have hsane : Sane c targets roots d := (hsound.sane (k, d) (by rw [hes]; exact List.mem_cons_self)).1
  have hless := hsane.weight_refine_lt ha hl hr hds depth
  unfold weight
  rw [hb.depth_eq, hsound.depth_eq, (hperm.map _).sum_eq, hes, List.map_append, List.sum_append, List.map_cons,
    List.sum_cons, List.map_map]
  exact Nat.add_lt_add_right hless _

end

end Agenda

end Symex
