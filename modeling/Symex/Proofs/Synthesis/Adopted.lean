import Symex.Proofs.Model.Exact
import Symex.Proofs.Synthesis.Answered

/-!
# What a result takes over

What was found for a cluster is copied as a whole: one slot for each model that the roots lead to, and equal handles
become equal handles. The models of other clusters stay where they are. A cluster has the time that the clusters before
it have left.
-/

namespace Symex

open Cluster (rootsAt)

namespace Synthesized

/-- The images of some handles are at their positions, and nothing else has changed. -/
structure Placed (l : List (Nat × Handle)) (c : Copying) (ms ms' : List (Option Handle)) : Prop where
  length_eq : ms'.length = ms.length
  placed : ∀ e ∈ l, e.1 < ms.length → ∃ k, c.images.find? e.2 = some k ∧ ms'[e.1]? = some (some k)
  others : ∀ i, i ∉ l.map Prod.fst → ms'[i]? = ms[i]?

theorem Placed.cons {l : List (Nat × Handle)} {c : Copying} {ms ms' : List (Option Handle)} {i : Nat} {h k : Handle}
    (hp : Placed l c (ms.set i (some k)) ms') (hi : i ∉ l.map Prod.fst) (hk : c.images.find? h = some k) :
    Placed ((i, h) :: l) c ms ms' := by
  have hlen : (ms.set i (some k)).length = ms.length := List.length_set
  refine ⟨hp.length_eq.trans hlen, ?_, ?_⟩
  · intro e he hlt
    rcases List.mem_cons.mp he with rfl | he
    · refine ⟨k, hk, ?_⟩
      rw [hp.others i hi, List.getElem?_set_self hlt]
    · exact hp.placed e he (hlen.symm ▸ hlt)
  · intro j hj
    rw [List.map_cons, List.mem_cons, not_or] at hj
    rw [hp.others j hj.2, List.getElem?_set_ne fun hij => hj.1 hij.symm]

/-- Models are taken over by one copy that is exact. -/
theorem exists_adopt {source : Store} (hclosed : source.Closed) {base : Nat} {P : Handle → Prop}
    (hP : ∀ {h : Handle} {m : Model}, P h → source.get? h = some m → ∀ k ∈ m.children, P k)
    {l : List (Nat × Handle)} (hl : ∀ e ∈ l, (source.get? e.2).isSome ∧ P e.2) (hnodup : (l.map Prod.fst).Nodup)
    {c : Copying} (hf : c.Faithful source []) (he : c.Exact base P) (ms : List (Option Handle)) :
    ∃ c' ms', adopt source l c ms = .ok ⟨c'.store, ms'⟩ ∧ c.Grows c' ∧ c'.Faithful source [] ∧ c'.Exact base P ∧
      Placed l c' ms ms' := by
  induction l generalizing c ms with
  | nil => exact ⟨c, ms, rfl, .refl c, hf, he, rfl, (fun e he => by cases he), fun i _ => rfl⟩
  | cons e l ih =>
    obtain ⟨i, h⟩ := e
    obtain ⟨hbuilt, hr⟩ := hl (i, h) List.mem_cons_self
    obtain ⟨hi, hnodup⟩ := List.nodup_cons.mp hnodup
    obtain ⟨k, c₁, hcopy⟩ := Copying.exists_copy hclosed.closedOn hbuilt hf
    obtain ⟨hgrows₁, hf₁, himage⟩ := Copying.copy_spec hcopy hf
    have he₁ := (Copying.kept_exact source base P).copy hP hcopy hf hr he
    obtain ⟨c', ms', hadopt, hgrows, hf', he', hplaced⟩ :=
      ih (fun x hx => hl x (List.mem_cons_of_mem _ hx)) hnodup hf₁ he₁ (ms.set i (some k))
    exact ⟨c', ms', bind_eq_ok.mpr ⟨(k, c₁), hcopy, hadopt⟩, hgrows₁.trans hgrows, hf', he',
      hplaced.cons hi (hgrows.images himage)⟩

/-- A copying of what was found for a cluster, with the images of the roots among the models of a result. -/
structure Adopts (out : Store × List Handle) (cluster : List Nat) (base : Nat) (c : Copying) (r : Synthesized) :
    Prop where
  faithful : c.Faithful out.1 []
  exact : c.Exact base fun x => ∃ h ∈ out.2, out.1.Reaches h x
  store : c.store.Extends r.store
  placed : ∀ e ∈ cluster.zip out.2, ∃ k, c.images.find? e.2 = some k ∧ r.models[e.1]? = some (some k)

theorem Adopts.exists_image {out : Store × List Handle} {cluster : List Nat} {base : Nat} {c : Copying}
    {r : Synthesized} (h : Adopts out cluster base c r) {p i : Nat} {x : Handle} (hi : cluster[p]? = some i)
    (hx : out.2[p]? = some x) : ∃ k, c.images.find? x = some k ∧ r.models[i]? = some (some k) :=
  h.placed (i, x) (List.mem_of_getElem? (List.getElem?_zip_eq_some.mpr ⟨hi, hx⟩))

theorem Adopts.get?_image {out : Store × List Handle} {cluster : List Nat} {base : Nat} {c : Copying}
    {r : Synthesized} (h : Adopts out cluster base c r) {x k : Handle} {m : Model} (hk : c.images.find? x = some k)
    (hm : out.1.get? x = some m) : r.store.get? k = some (m.mapHandles c.image) := by
  obtain ⟨m', hm', hget, -⟩ := h.faithful.copied hk List.not_mem_nil
  rw [hm] at hm'
  cases hm'
  exact h.store.get?_some hget

/-- A result has taken over what was found for a cluster, or has nothing for it. -/
def Settles (cluster : List Nat) (r : Synthesized) : Option (Store × List Handle) → Prop
  | none => ∀ i ∈ cluster, r.models[i]? = some none
  | some out => ∃ base c, Adopts out cluster base c r

theorem Settles.mono {cluster : List Nat} {r r' : Synthesized} {answer : Option (Store × List Handle)}
    (h : r.Settles cluster answer) (hstore : r.store.Extends r'.store)
    (hmodels : ∀ i ∈ cluster, r'.models[i]? = r.models[i]?) : r'.Settles cluster answer := by
  cases answer with
  | none => exact fun i hi => (hmodels i hi).trans (h i hi)
  | some out =>
    obtain ⟨base, c, ha⟩ := h
    refine ⟨base, c, ha.faithful, ha.exact, ha.store.trans hstore, ?_⟩
    intro e he
    obtain ⟨k, hk, hmodel⟩ := ha.placed e he
    exact ⟨k, hk, (hmodels e.1 (List.of_mem_zip he).1).trans hmodel⟩

/-- What was assembled for a cluster is taken over without fault. -/
theorem exists_adopts {out : Store × List Handle} {cluster : List Nat} (hout : Probe.Assembled cluster.length out)
    (hnodup : cluster.Nodup) {r : Synthesized} (hlt : ∀ i ∈ cluster, i < r.models.length) :
    ∃ c ms, adopt out.1 (cluster.zip out.2) { store := r.store } r.models = .ok ⟨c.store, ms⟩ ∧
      Adopts out cluster r.store.size c ⟨c.store, ms⟩ ∧ r.store.Extends c.store ∧ ms.length = r.models.length ∧
      ∀ i, i ∉ cluster → ms[i]? = r.models[i]? := by
  have hlen : cluster.length ≤ out.2.length := by
    rw [hout.handles_eq, List.length_map, List.length_range]
  have hfirst : (cluster.zip out.2).map Prod.fst = cluster := List.map_fst_zip hlen
  have hbuilt : ∀ h ∈ out.2, (out.1.get? h).isSome := by
    intro h hh
    rw [hout.handles_eq] at hh
    obtain ⟨i, hi, rfl⟩ := List.mem_map.mp hh
    exact hout.whole.built (Nat.lt_of_lt_of_le (List.mem_range.mp hi) hout.le_size) id
  obtain ⟨c, ms, hadopt, hgrows, hf, he, hplaced⟩ := exists_adopt hout.whole.closed
    (P := fun x => ∃ h ∈ out.2, out.1.Reaches h x)
    (fun ⟨x, hx, hreach⟩ hm k hk => ⟨x, hx, hreach.tail ⟨_, hm, hk⟩⟩)
    (fun e he => ⟨hbuilt e.2 (List.of_mem_zip he).2, e.2, (List.of_mem_zip he).2, .refl⟩)
    (hfirst.symm ▸ hnodup) (Copying.faithful_of_no_images out.1 r.store) (Copying.exact_of_no_images r.store _) r.models
  refine ⟨c, ms, hadopt, ⟨hf, he, .refl _, ?_⟩, hgrows.store, hplaced.length_eq, ?_⟩
  · intro e hmem
    exact hplaced.placed e hmem (hlt e.1 (List.of_mem_zip hmem).1)
  · intro i hi
    exact hplaced.others i (hfirst.symm ▸ hi)

end Synthesized

namespace Synthesizer

/-! ### The time that is left -/

section Schedule

variable (used : List Nat → Nat → Nat)

/-- The clusters of a request, each with the time that is left when it is its turn. -/
def schedule (time : Nat) : List (List Nat) → List (List Nat × Nat)
  | [] => []
  | c :: cs => (c, time) :: schedule (time - used c time) cs

/-- The time that is left in the end. -/
def remaining (time : Nat) : List (List Nat) → Nat
  | [] => time
  | c :: cs => remaining (time - used c time) cs

theorem map_fst_schedule (time : Nat) (cs : List (List Nat)) : (schedule used time cs).map Prod.fst = cs := by
  induction cs generalizing time with
  | nil => rfl
  | cons c cs ih => rw [schedule, List.map_cons, ih]

variable {used} {time : Nat} {cs : List (List Nat)}

theorem remaining_le (time : Nat) (cs : List (List Nat)) : remaining used time cs ≤ time := by
  induction cs generalizing time with
  | nil => exact Nat.le_refl _
  | cons c cs ih => exact (ih _).trans (Nat.sub_le _ _)

theorem of_mem_schedule {e : List Nat × Nat} (he : e ∈ schedule used time cs) :
    e.2 ≤ time ∧ remaining used time cs ≤ e.2 - used e.1 e.2 := by
  induction cs generalizing time with
  | nil => cases he
  | cons c cs ih =>
    rcases List.mem_cons.mp he with rfl | he
    · exact ⟨Nat.le_refl _, remaining_le (time - used c time) cs⟩
    · obtain ⟨hle, hrest⟩ := ih he
      exact ⟨hle.trans (Nat.sub_le _ _), hrest⟩

/-- If no cluster takes more than `b`, the time is left for each that its share is. -/
theorem le_of_mem_schedule {b : Nat} (hb : ∀ c ∈ cs, ∀ t, used c t ≤ b) {e : List Nat × Nat}
    (he : e ∈ schedule used time cs) : time + b ≤ e.2 + b * cs.length := by
  induction cs generalizing time with
  | nil => cases he
  | cons c cs ih =>
    rw [List.length_cons, Nat.mul_add_one]
    rcases List.mem_cons.mp he with rfl | he
    · exact Nat.add_le_add_left (Nat.le_add_left _ _) _
    · have hrest := ih (fun d hd => hb d (List.mem_cons_of_mem _ hd)) he
      have hused := hb c List.mem_cons_self time
      omega

theorem le_remaining {b : Nat} (hb : ∀ c ∈ cs, ∀ t, used c t ≤ b) (time : Nat) :
    time ≤ remaining used time cs + b * cs.length := by
  induction cs generalizing time with
  | nil => exact Nat.le_add_right _ _
  | cons c cs ih =>
    rw [List.length_cons, Nat.mul_add_one, remaining]
    have hrest := ih (fun d hd => hb d (List.mem_cons_of_mem _ hd)) (time - used c time)
    have hused := hb c List.mem_cons_self time
    omega

end Schedule

/-! ### Attempts -/

variable {targets : Store} {roots : List Handle} {depth : Nat}

/-- One attempt: the counters, and what the result has for the cluster. -/
structure Attempted (cluster : List Nat) (answer : Option (Store × List Handle)) (used : Nat) (s s' : Synthesizer)
    (r r' : Synthesized) : Prop where
  workshop_eq : s'.workshop = s.workshop
  catalog_eq : s'.catalog = s.catalog
  clock_eq : s'.verifier.clock = s.verifier.clock + used
  attempts_eq : s'.attempts = s.attempts + 1
  successes_eq : s'.successes = s.successes + answer.isSome.toNat
  store : r.store.Extends r'.store
  length_eq : r'.models.length = r.models.length
  others : ∀ i, i ∉ cluster → r'.models[i]? = r.models[i]?
  unchanged : answer = none → r' = r
  adopted : ∀ out, answer = some out →
    ∃ c, r'.store = c.store ∧ Synthesized.Adopts out cluster r.store.size c r'

theorem exists_attempt {s : Synthesizer} {cluster : List Nat} {answer : Option (Store × List Handle)}
    {used deadline : Nat}
    (hfinds : Finds s.workshop s.catalog targets (rootsAt roots cluster) depth (deadline - s.verifier.clock) answer
      used)
    (hout : ∀ out, answer = some out → Probe.Assembled cluster.length out) (hnodup : cluster.Nodup) {r : Synthesized}
    (hlt : ∀ i ∈ cluster, i < r.models.length) :
    ∃ s' r', s.attempt targets roots depth deadline r cluster = .ok (s', r') ∧
      Attempted cluster answer used s s' r r' := by
  obtain ⟨v, hclock, hattempt⟩ := attempt_of_finds hfinds r
  cases answer with
  | none => exact ⟨_, _, hattempt, rfl, rfl, hclock, rfl, rfl, .refl _, rfl, (fun i _ => rfl), (fun _ => rfl), nofun⟩
  | some out =>
    obtain ⟨c, ms, hadopt, hadopts, hext, hlen, hothers⟩ := Synthesized.exists_adopts (hout out rfl) hnodup hlt
    refine ⟨_, _, hattempt.trans (bind_eq_ok.mpr ⟨_, hadopt, rfl⟩), rfl, rfl, hclock, rfl, rfl, hext, hlen, hothers,
      nofun, ?_⟩
    rintro _ ⟨⟩
    exact ⟨c, rfl, hadopts⟩

theorem Attempted.settles {cluster : List Nat} {answer : Option (Store × List Handle)} {used : Nat} {s s' : Synthesizer}
    {r r' : Synthesized} (h : Attempted cluster answer used s s' r r')
    (hnone : ∀ i ∈ cluster, r.models[i]? = some none) : r'.Settles cluster answer := by
  cases answer with
  | none =>
    intro i hi
    rw [h.unchanged rfl]
    exact hnone i hi
  | some out =>
    obtain ⟨c, -, hadopts⟩ := h.adopted out rfl
    exact ⟨_, c, hadopts⟩

section

variable {answer : List Nat → Nat → Option (Store × List Handle)} {used : List Nat → Nat → Nat}

/-- What is so after the clusters of a request have had their turns: each is settled by its answer for the time that was
left for it. -/
structure AttemptedAll (answer : List Nat → Nat → Option (Store × List Handle)) (used : List Nat → Nat → Nat)
    (time : Nat) (cs : List (List Nat)) (s s' : Synthesizer) (r r' : Synthesized) : Prop where
  clock_eq : s'.verifier.clock + remaining used time cs = s.verifier.clock + time
  attempts_eq : s'.attempts = s.attempts + cs.length
  successes_eq : s'.successes = s.successes + (schedule used time cs).countP fun e => (answer e.1 e.2).isSome
  store : r.store.Extends r'.store
  length_eq : r'.models.length = r.models.length
  others : ∀ i, (∀ c ∈ cs, i ∉ c) → r'.models[i]? = r.models[i]?
  settles : ∀ e ∈ schedule used time cs, r'.Settles e.1 (answer e.1 e.2)

theorem exists_attemptAll {s : Synthesizer} {cs : List (List Nat)}
    (hfinds : ∀ c ∈ cs, ∀ t, Finds s.workshop s.catalog targets (rootsAt roots c) depth t (answer c t) (used c t))
    (hout : ∀ c ∈ cs, ∀ t out, answer c t = some out → Probe.Assembled c.length out) (hnodup : ∀ c ∈ cs, c.Nodup)
    (hdisjoint : cs.Pairwise List.Disjoint) {r : Synthesized}
    (hnone : ∀ c ∈ cs, ∀ i ∈ c, r.models[i]? = some none) (deadline : Nat) :
    ∃ s' r', s.attemptAll targets roots depth deadline r cs = .ok (s', r') ∧
      AttemptedAll answer used (deadline - s.verifier.clock) cs s s' r r' := by
  induction cs generalizing s r with
  | nil => exact ⟨s, r, rfl, rfl, rfl, rfl, .refl _, rfl, (fun i _ => rfl), (fun e he => by cases he)⟩
  | cons cluster cs ih =>
    obtain ⟨hfirst, hdisjoint⟩ := List.pairwise_cons.mp hdisjoint
    have hlt : ∀ i ∈ cluster, i < r.models.length := fun i hi =>
      (List.getElem?_eq_some_iff.mp (hnone cluster List.mem_cons_self i hi)).1
    have hfound := hfinds cluster List.mem_cons_self (deadline - s.verifier.clock)
    have hused := hfound.used_le
    obtain ⟨s₁, r₁, hattempt, h₁⟩ := exists_attempt hfound (hout cluster List.mem_cons_self _)
      (hnodup cluster List.mem_cons_self) hlt
    have hfinds₁ : ∀ c ∈ cs, ∀ t,
        Finds s₁.workshop s₁.catalog targets (rootsAt roots c) depth t (answer c t) (used c t) := by
      rw [h₁.workshop_eq, h₁.catalog_eq]
      exact fun c hc => hfinds c (List.mem_cons_of_mem _ hc)
    have hnone₁ : ∀ c ∈ cs, ∀ i ∈ c, r₁.models[i]? = some none := by
      intro c hc i hi
      rw [h₁.others i fun hmem => hfirst c hc hmem hi]
      exact hnone c (List.mem_cons_of_mem _ hc) i hi
    obtain ⟨s', r', hall, h⟩ :=
      ih hfinds₁ (fun c hc => hout c (List.mem_cons_of_mem _ hc)) (fun c hc => hnodup c (List.mem_cons_of_mem _ hc))
        hdisjoint hnone₁
    have hclock := h₁.clock_eq
    have hleft : deadline - s₁.verifier.clock =
        deadline - s.verifier.clock - used cluster (deadline - s.verifier.clock) := by omega
    rw [hleft] at h
    refine ⟨s', r', bind_eq_ok.mpr ⟨(s₁, r₁), hattempt, hall⟩, ?_, ?_, ?_, h₁.store.trans h.store,
      h.length_eq.trans h₁.length_eq, ?_, ?_⟩
    · have hrest := h.clock_eq
      rw [remaining]
      omega
    · rw [h.attempts_eq, h₁.attempts_eq, List.length_cons]
      omega
    · have hone : (answer cluster (deadline - s.verifier.clock)).isSome.toNat =
          if (answer cluster (deadline - s.verifier.clock)).isSome then 1 else 0 := by
        cases answer cluster (deadline - s.verifier.clock) <;> rfl
      rw [h.successes_eq, h₁.successes_eq, schedule, List.countP_cons, hone]
      dsimp only
      omega
    · intro i hi
      obtain ⟨hhead, htail⟩ := List.forall_mem_cons.mp hi
      rw [h.others i htail, h₁.others i hhead]
    · refine List.forall_mem_cons.mpr ⟨?_, h.settles⟩
      -- The later clusters have other positions.
      refine (h₁.settles (hnone cluster List.mem_cons_self)).mono h.store fun i hi => h.others i fun c hc hmem => ?_
      exact hfirst c hc hi hmem

/-- If there is an answer for every cluster and any time, synthesis settles the clusters by them, and counts them. -/
theorem exists_synthesizeWithin_of_finds {s : Synthesizer} (hs : s.switch.enabled = true)
    {cs : List (List Nat)} (hpart : Cluster.partition targets roots = .ok cs)
    (hfinds : ∀ c ∈ cs, ∀ t, Finds s.workshop s.catalog targets (rootsAt roots c) depth t (answer c t) (used c t))
    (hout : ∀ c ∈ cs, ∀ t out, answer c t = some out → Probe.Assembled c.length out) (time : Nat) :
    ∃ s' r, s.synthesizeWithin targets roots depth time = .ok (s', r) ∧
      AttemptedAll answer used time cs s s' { models := roots.map fun _ => none } r := by
  obtain ⟨hparts, -⟩ := Cluster.partition_spec hpart
  have hnone : ∀ c ∈ cs, ∀ i ∈ c, (roots.map fun _ => (none : Option Handle))[i]? = some none :=
    fun c hc i hi => Synthesized.getElem?_unmade.mpr ⟨hparts.lt hc hi, rfl⟩
  obtain ⟨s', r, hall, h⟩ :=
    exists_attemptAll (r := { models := roots.map fun _ => none }) hfinds hout (fun c hc => hparts.nodup hc)
      hparts.disjoint hnone (s.verifier.clock + time)
  rw [Nat.add_sub_cancel_left] at h
  refine ⟨s', r, ?_, h⟩
  unfold synthesizeWithin
  rw [if_pos hs, hpart]
  exact hall

end

end Synthesizer

end Symex
