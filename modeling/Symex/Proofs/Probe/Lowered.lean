import Symex.Proofs.Plan.Reach
import Symex.Proofs.Probe.Steps

/-!
# How plans are lowered

Plans without containers are lowered one after the other: a hole to a parameter, null to a statement, a call to the
statements of its operands and one of its own. A container is lowered through the plans of what it contains. A draft
whose leaves all have plans is lowered without fault, to a probe with a local and a recipe for each root.
-/

namespace Symex

namespace Plan

/-- Lowering the plans `ps` in order from `w` gives the names `xs` and the recipes `rs` and ends in `w'`. -/
inductive Lowered : List Plan → Lowering → List String → List Recipe → Lowering → Prop
  | nil (w : Lowering) : Lowered [] w [] [] w
  | hole {t : Ty} {ps : List Plan} {w w' : Lowering} {xs : List String} {rs : List Recipe}
      (h : Lowered ps (w.param t).2 xs rs w') :
      Lowered (hole t :: ps) w ((w.param t).1.1 :: xs) ((w.param t).1.2 :: rs) w'
  | null {t : Ty} {ps : List Plan} {w w' : Lowering} {xs : List String} {rs : List Recipe}
      (h : Lowered ps (w.null t).2 xs rs w') :
      Lowered (null t :: ps) w ((w.null t).1.1 :: xs) ((w.null t).1.2 :: rs) w'
  | create {m : Method} {as ps : List Plan} {w u w' : Lowering} {ys xs : List String} {ss rs : List Recipe}
      (hm : m.kind ≠ .modifier) (ha : Lowered as w ys ss u) (h : Lowered ps (u.create m ys ss).2 xs rs w') :
      Lowered (call m as :: ps) w ((u.create m ys ss).1.1 :: xs) ((u.create m ys ss).1.2 :: rs) w'
  | change {m : Method} {p : Plan} {as ps : List Plan} {w u w' : Lowering} {y : String} {ys xs : List String}
      {s : Recipe} {ss rs : List Recipe} (hm : m.kind = .modifier) (ha : Lowered (p :: as) w (y :: ys) (s :: ss) u)
      (h : Lowered ps (u.emit (.invoke y m ys)) xs rs w') :
      Lowered (call m (p :: as) :: ps) w (y :: xs) (.change y m s ss :: rs) w'

theorem Lowered.append {ps qs : List Plan} {u v w : Lowering} {xs ys : List String} {rs ss : List Recipe}
    (hp : Lowered ps u xs rs v) (hq : Lowered qs v ys ss w) : Lowered (ps ++ qs) u (xs ++ ys) (rs ++ ss) w := by
  induction hp with
  | nil w => exact hq
  | hole _ ih => exact .hole (ih hq)
  | null _ ih => exact .null (ih hq)
  | create hm ha _ _ ih => exact .create hm ha (ih hq)
  | change hm ha _ _ ih => exact .change hm ha (ih hq)

variable {c : Catalog} {inside : Handle → Except Fault Lowering.Making}

theorem lowerAllVia_of_forall {ps : List Plan}
    (hps : ∀ p ∈ ps, ∀ w, ∃ x r w', p.lowerVia inside none w = .ok ((x, r), w') ∧ Lowered [p] w [x] [r] w')
    (w : Lowering) :
    ∃ xs rs w', lowerAllVia inside ps w = .ok ((xs, rs), w') ∧ Lowered ps w xs rs w' := by
  induction ps generalizing w with
  | nil => exact ⟨[], [], w, rfl, .nil w⟩
  | cons p ps ih =>
    obtain ⟨x, r, u, hp, hl⟩ := hps p List.mem_cons_self w
    obtain ⟨xs, rs, w', hall, hls⟩ := ih (fun q hq => hps q (List.mem_cons_of_mem _ hq)) u
    exact ⟨x :: xs, r :: rs, w', lowerAllVia_cons hp hall, hl.append hls⟩

/-- A plan that fits a type is lowered, whatever is known of the models in containers. -/
theorem Fits.lowered {t : Ty} {p : Plan} (hp : Fits c t p) (self : Option Nat) (w : Lowering) :
    ∃ x r w', p.lowerVia inside self w = .ok ((x, r), w') ∧ Lowered [p] w [x] [r] w' := by
  induction hp generalizing self w with
  | null _ => exact ⟨_, _, _, rfl, .null (.nil _)⟩
  | hole _ => exact ⟨_, _, _, rfl, .hole (.nil _)⟩
  | @call m ps _ _ hlen _ ih =>
    have hps : ∀ p ∈ ps, ∀ w, ∃ x r w', p.lowerVia inside none w = .ok ((x, r), w') ∧ Lowered [p] w [x] [r] w' := by
      intro p hp w
      obtain ⟨i, hi, rfl⟩ := List.mem_iff_getElem.mp hp
      refine ih (m.operands[i], ps[i]) ?_ none w
      exact List.mem_iff_getElem.mpr ⟨i, by simp; omega, by simp⟩
    by_cases hm : m.kind = .modifier
    · cases ps with
      | nil => simp [Method.operands, hm] at hlen
      | cons p ps =>
        obtain ⟨x, r, u, hp, hl⟩ := hps p List.mem_cons_self w
        obtain ⟨xs, rs, v, hall, hls⟩ := lowerAllVia_of_forall (fun q hq => hps q (List.mem_cons_of_mem _ hq)) u
        exact ⟨x, _, _, lowerVia_change hm hp hall, .change hm (hl.append hls) (.nil _)⟩
    · obtain ⟨xs, rs, u, hall, hls⟩ := lowerAllVia_of_forall hps w
      refine ⟨_, _, _, ?_, .create hm hls (.nil _)⟩
      rw [lowerVia_create hm, hall]
      rfl

end Plan

/-! ### Recipes and locals -/

/-- Recipes that refer to roots below `n` only. -/
inductive Recipe.Grounded (n : Nat) : Recipe → Prop
  | param (i : Nat) : Grounded n (.param i)
  | null (x : String) (t : Ty) : Grounded n (.null x t)
  | root (x : String) (t : Ty) {i : Nat} (h : i < n) : Grounded n (.root x t i)
  | create (x : String) (m : Method) {args : List Recipe} (h : ∀ r ∈ args, Grounded n r) :
      Grounded n (.create x m args)
  | change (x : String) (m : Method) {r : Recipe} {args : List Recipe} (hr : Grounded n r)
      (h : ∀ r ∈ args, Grounded n r) : Grounded n (.change x m r args)
  | container (x : String) (k : ContainerKind) (t : Ty) {l : Recipe} {es : List (Recipe × Recipe)}
      (hl : Grounded n l) (hk : ∀ e ∈ es, Grounded n e.1) (hv : ∀ e ∈ es, Grounded n e.2) :
      Grounded n (.container x k t l es)

theorem Plan.Lowered.grounded {ps : List Plan} {w w' : Lowering} {xs : List String} {rs : List Recipe}
    (h : Lowered ps w xs rs w') (n : Nat) : ∀ r ∈ rs, r.Grounded n := by
  induction h with
  | nil => exact fun r hr => by cases hr
  | hole _ ih =>
    intro r hr
    rcases List.mem_cons.mp hr with rfl | hr
    · exact .param _
    · exact ih r hr
  | null _ ih =>
    intro r hr
    rcases List.mem_cons.mp hr with rfl | hr
    · exact .null _ _
    · exact ih r hr
  | create _ _ _ iha ih =>
    intro r hr
    rcases List.mem_cons.mp hr with rfl | hr
    · exact .create _ _ iha
    · exact ih r hr
  | change _ _ _ iha ih =>
    intro r hr
    rcases List.mem_cons.mp hr with rfl | hr
    · exact .change _ _ (iha _ List.mem_cons_self) fun q hq => iha q (List.mem_cons_of_mem _ hq)
    · exact ih r hr

theorem Plan.Lowered.locals_eq {ps : List Plan} {w w' : Lowering} {xs : List String} {rs : List Recipe}
    (h : Lowered ps w xs rs w') : w'.locals = w.locals := by
  induction h with
  | nil => rfl
  | hole _ ih => exact ih
  | null _ ih => exact ih
  | create _ _ _ iha ih => exact ih.trans iha
  | change _ _ _ iha ih => exact ih.trans iha

theorem Plan.Lowered.grows {ps : List Plan} {w w' : Lowering} {xs : List String} {rs : List Recipe}
    (h : Lowered ps w xs rs w') : w.params <+: w'.params ∧ w.body <+: w'.body ∧ xs.length = rs.length := by
  induction h with
  | nil w => exact ⟨List.prefix_rfl, List.prefix_rfl, rfl⟩
  | hole _ ih => exact ⟨(List.prefix_append _ _).trans ih.1, ih.2.1, congrArg (· + 1) ih.2.2⟩
  | null _ ih => exact ⟨ih.1, (List.prefix_append _ _).trans ih.2.1, congrArg (· + 1) ih.2.2⟩
  | create _ _ _ iha ih =>
    exact ⟨iha.1.trans ih.1, iha.2.1.trans ((List.prefix_append _ _).trans ih.2.1), congrArg (· + 1) ih.2.2⟩
  | change _ _ _ iha ih =>
    exact ⟨iha.1.trans ih.1, iha.2.1.trans ((List.prefix_append _ _).trans ih.2.1), congrArg (· + 1) ih.2.2⟩

/-- No root loses its local, and parameters are only added. -/
structure Lowering.Keeps (w w' : Lowering) : Prop where
  params : w.params <+: w'.params
  length_eq : w'.locals.length = w.locals.length
  isSome : ∀ {i : Nat} {x : String}, w.locals[i]? = some (some x) → ∃ y, w'.locals[i]? = some (some y)

namespace Lowering.Keeps

theorem of_eq {w w' : Lowering} (h : w'.locals = w.locals) (hp : w.params <+: w'.params) : Keeps w w' :=
  ⟨hp, by rw [h], fun {_ x} hx => ⟨x, by rw [h]; exact hx⟩⟩

theorem trans {u v w : Lowering} (h : Keeps u v) (k : Keeps v w) : Keeps u w := by
  refine ⟨h.params.trans k.params, k.length_eq.trans h.length_eq, ?_⟩
  intro i x hx
  obtain ⟨y, hy⟩ := h.isSome hx
  exact k.isSome hy

theorem set {w w' : Lowering} {i : Nat} {x : String} (h : w'.locals = w.locals.set i (some x))
    (hp : w'.params = w.params) : Keeps w w' := by
  refine ⟨by rw [hp], by simp [h], ?_⟩
  intro j y hy
  rw [h]
  by_cases hij : i = j
  · subst hij
    have hlt : i < w.locals.length := (List.getElem?_eq_some_iff.mp hy).1
    exact ⟨x, by simp [hlt]⟩
  · exact ⟨y, by simp [hij, hy]⟩

end Lowering.Keeps

/-- A step that succeeds, keeps the locals of the roots and makes a recipe about roots there are. -/
def Lowering.Works (n : Nat) (make : Lowering.Making) : Prop :=
  ∀ w : Lowering, w.locals.length = n →
    ∃ x r w', make w = .ok ((x, r), w') ∧ w.Keeps w' ∧ r.Grounded n

/-- The value of another root is made if there is such a root. -/
theorem Plan.works_root {n : Nat} {inside : Handle → Except Fault Lowering.Making} {t : Ty} {i : Nat} (hi : i < n)
    (self : Option Nat) : Lowering.Works n ((root t i).lowerVia inside self) := by
  intro w hw
  rw [lowerVia, lowerOr, Lowering.root]
  cases hl : w.locals[i]? with
  | none =>
    have := List.getElem?_eq_none_iff.mp hl
    omega
  | some o =>
    cases o with
    | none => exact ⟨_, _, _, rfl, .of_eq rfl List.prefix_rfl, .null _ _⟩
    | some src => exact ⟨_, _, _, rfl, .of_eq rfl List.prefix_rfl, .root _ _ hi⟩

namespace Draft

section Works

variable {c : Catalog} {d : Draft} {targets : Store} {roots : List Handle} (hs : Sane c targets roots d)
  (ha : targets.Acyclic)

include hs

/-- The plan of a leaf is lowered. -/
theorem Sane.works_leaf {inside : Handle → Except Fault Lowering.Making} {h : Handle} {p : Plan}
    (hg : ∀ k b, targets.get? h ≠ some (.container k b)) (hp : d.plan h = .ok p) (self : Option Nat) :
    Lowering.Works roots.length (p.lowerVia inside self) := by
  intro w hw
  unfold plan at hp
  split at hp
  next q hq =>
    obtain ⟨t, -, -, hfits⟩ := hs.decided hq
    have hqp : q = p := Except.ok.inj hp
    obtain ⟨x, r, w', hok, hl⟩ := (hqp ▸ hfits).lowered self w
    exact ⟨x, r, w', hok, .of_eq hl.locals_eq hl.grows.1, hl.grounded _ r (List.mem_singleton_self r)⟩
  next =>
    rcases suggested_cases hp with ⟨t, rfl⟩ | ⟨t, rfl⟩ | ⟨t, i, hi, rfl⟩ | ⟨k, b, hk, -⟩
    · exact ⟨_, _, _, rfl, .of_eq rfl List.prefix_rfl, .null _ _⟩
    · exact ⟨_, _, _, rfl, .of_eq rfl (List.prefix_append _ _), .param _⟩
    · exact Plan.works_root (hs.roots_eq ▸ hi) self w hw
    · exact absurd (hs.targets_eq ▸ hk) (hg k b)

omit hs in
theorem works_entries {n : Nat} {inside : Handle → Except Fault Lowering.Making} {es : List (Handle × Handle)}
    (hin : ∀ e ∈ es, (∃ make, inside e.1 = .ok make ∧ Lowering.Works n make) ∧
      ∃ make, inside e.2 = .ok make ∧ Lowering.Works n make)
    (x : String) (w : Lowering) (hw : w.locals.length = n) :
    ∃ rs w', Lowering.entries inside x es w = .ok (rs, w') ∧ w.Keeps w' ∧
      (∀ r ∈ rs, r.1.Grounded n) ∧ ∀ r ∈ rs, r.2.Grounded n := by
  induction es generalizing w with
  | nil => exact ⟨[], w, rfl, .of_eq rfl List.prefix_rfl, (fun r hr => by cases hr), (fun r hr => by cases hr)⟩
  | cons e es ih =>
    obtain ⟨⟨mk, hmk, hwk⟩, mv, hmv, hwv⟩ := hin e List.mem_cons_self
    obtain ⟨y, r, u, hu, hku, hr⟩ := hwk w hw
    obtain ⟨z, s, v, hv, hkv, hs⟩ := hwv u (hku.length_eq.trans hw)
    obtain ⟨rs, w', hrs, hkw, h₁, h₂⟩ := ih (fun f hf => hin f (List.mem_cons_of_mem _ hf))
      (v.emit (.store x y z)) (hkv.length_eq.trans (hku.length_eq.trans hw))
    have hstore : v.Keeps (v.emit (.store x y z)) := .of_eq rfl List.prefix_rfl
    refine ⟨(r, s) :: rs, w', ?_, hku.trans (hkv.trans (hstore.trans hkw)), ?_, ?_⟩
    · show (inside e.1 >>= _) = _
      rw [hmk]
      show (inside e.2 >>= _) = _
      rw [hmv]
      show (mk w >>= _) = _
      rw [hu]
      show (mv u >>= _) = _
      rw [hv]
      show (Lowering.entries inside x es (v.emit (.store x y z)) >>= _) = _
      rw [hrs]
      rfl
    · intro q hq
      rcases List.mem_cons.mp hq with rfl | hq
      · exact hr
      · exact h₁ q hq
    · intro q hq
      rcases List.mem_cons.mp hq with rfl | hq
      · exact hs
      · exact h₂ q hq

omit hs in
theorem works_container {n : Nat} {inside : Handle → Except Fault Lowering.Making} {k : ContainerKind} {b : Container}
    (hin : ∀ x ∈ (Model.container k b).children, ∃ make, inside x = .ok make ∧ Lowering.Works n make)
    (t : Ty) (self : Option Nat) :
    Lowering.Works n ((Plan.container k t b.length b.entries).lowerVia inside self) := by
  intro w hw
  obtain ⟨ml, hml, hwl⟩ := hin b.length List.mem_cons_self
  obtain ⟨x, r, u, hu, hku, hr⟩ := hwl w hw
  have hkeep : u.Keeps (u.allocate self k t x).2 := by
    cases self with
    | none => exact .of_eq rfl List.prefix_rfl
    | some i => exact .set rfl rfl
  have hentries : ∀ e ∈ b.entries, (∃ make, inside e.1 = .ok make ∧ Lowering.Works n make) ∧
      ∃ make, inside e.2 = .ok make ∧ Lowering.Works n make := by
    intro e he
    exact ⟨hin e.1 (List.mem_cons_of_mem _ (List.mem_flatMap.mpr ⟨e, he, List.mem_cons_self⟩)),
      hin e.2 (List.mem_cons_of_mem _ (List.mem_flatMap.mpr ⟨e, he, List.mem_cons_of_mem _ List.mem_cons_self⟩))⟩
  obtain ⟨rs, w', hrs, hkw, h₁, h₂⟩ := works_entries hentries (u.allocate self k t x).1 (u.allocate self k t x).2
    (hkeep.length_eq.trans (hku.length_eq.trans hw))
  refine ⟨(u.allocate self k t x).1, .container (u.allocate self k t x).1 k t r rs, w', ?_,
    hku.trans (hkeep.trans hkw), .container _ _ _ hr h₁ h₂⟩
  rw [Plan.lowerVia, Plan.lowerOr, hml]
  show (ml w >>= _) = _
  rw [hu]
  show (Lowering.entries inside (u.allocate self k t x).1 b.entries (u.allocate self k t x).2 >>= _) = _
  rw [hrs]
  rfl

include ha

/-- A model is lowered if every leaf inside it has a plan. -/
theorem Sane.works_within {n : Nat} {h : Handle} (hn : targets.rank h < n)
    (hr : ∀ x ∈ targets.leaves h, ∃ p, d.suggested x = .ok p) :
    ∃ p, d.plan h = .ok p ∧ ∀ self, Lowering.Works roots.length (p.lowerVia (d.lowerWithin (n - 1)) self) := by
  induction n generalizing h with
  | zero => exact absurd hn (Nat.not_lt_zero _)
  | succ n ih =>
    by_cases hc : ∃ k b, targets.get? h = some (.container k b)
    · obtain ⟨k, b, hg⟩ := hc
      refine ⟨_, hs.plan_container hg, fun self => works_container ?_ _ self⟩
      intro x hx
      have hlt := Store.rank_lt ha ⟨k, b, hg, hx⟩
      obtain ⟨p, hp, hw⟩ := ih (h := x) (by omega) fun y hy => hr y (by
        rw [Store.leaves_container ha hg]
        exact List.mem_flatMap.mpr ⟨x, hx, hy⟩)
      cases n with
      | zero => omega
      | succ n =>
        refine ⟨p.lowerVia (d.lowerWithin n) none, ?_, hw none⟩
        show d.lowerWithin (n + 1) x = _
        rw [lowerWithin, lowerWithinOr, hp]
        rfl
    · have hne : ∀ k b, targets.get? h ≠ some (.container k b) := fun k b hg => hc ⟨k, b, hg⟩
      obtain ⟨p, hp⟩ := hr h (by rw [Store.leaves_of_not_container hne]; exact List.mem_singleton_self h)
      exact ⟨_, plan_of_suggested hp, fun self => hs.works_leaf hne (plan_of_suggested hp) self⟩

omit hs ha in
/-- Roots are lowered in any order, and each has a local and a recipe then. -/
theorem works_roots {n : Nat} {ps : List (Nat × Plan)}
    (hps : ∀ e ∈ ps, e.1 < n ∧ ∀ self, Lowering.Works n (e.2.lowerVia (d.lowerWithin d.nesting) self)) (w : Lowering)
    (hw : w.locals.length = n) :
    ∃ rs w', d.lowerRoots ps w = .ok (rs, w') ∧ w.Keeps w' ∧
      (∀ e ∈ ps, ∃ x, w'.locals[e.1]? = some (some x)) ∧
      (∀ e ∈ ps, ∃ r, rs.find? e.1 = some r) ∧ ∀ i r, rs.find? i = some r → r.Grounded n := by
  induction ps generalizing w with
  | nil =>
    exact ⟨{}, w, rfl, .of_eq rfl List.prefix_rfl, (fun e he => by cases he), (fun e he => by cases he),
      (fun i r hr => by cases hr)⟩
  | cons e ps ih =>
    obtain ⟨hlt, hwork⟩ := hps e List.mem_cons_self
    obtain ⟨x, r, u, hu, hku, hr⟩ := hwork (some e.1) w hw
    have hset : u.Keeps { u with locals := u.locals.set e.1 (some x) } := .set rfl rfl
    obtain ⟨rs, w', hrs, hkw, hloc, hrec, hgr⟩ := ih (fun f hf => hps f (List.mem_cons_of_mem _ hf))
      { u with locals := u.locals.set e.1 (some x) } (hset.length_eq.trans (hku.length_eq.trans hw))
    have hself : ∃ y, w'.locals[e.1]? = some (some y) := by
      have hlen : e.1 < u.locals.length := by rw [hku.length_eq, hw]; exact hlt
      have hx : (u.locals.set e.1 (some x))[e.1]? = some (some x) := by simp [hlen]
      exact hkw.isSome hx
    refine ⟨rs.insert e.1 r, w', ?_, hku.trans (hset.trans hkw), ?_, ?_, ?_⟩
    · show (e.2.lowerVia (d.lowerWithin d.nesting) (some e.1) w >>= _) = _
      rw [hu]
      show (d.lowerRoots ps { u with locals := u.locals.set e.1 (some x) } >>= _) = _
      rw [hrs]
      rfl
    · intro f hf
      rcases List.mem_cons.mp hf with rfl | hf
      · exact hself
      · exact hloc f hf
    · intro f hf
      rw [Table.find?_insert]
      split
      · exact ⟨r, rfl⟩
      next hne =>
        rcases List.mem_cons.mp hf with rfl | hf
        · exact absurd rfl hne
        · exact hrec f hf
    · intro i q hq
      rw [Table.find?_insert] at hq
      split at hq
      · exact Option.some.inj hq ▸ hr
      · exact hgr i q hq

end Works

theorem mem_order {ps : List Plan} {e : Nat × Plan} : e ∈ order ps ↔ ps[e.1]? = some e.2 := by
  have hall : e ∈ (ps.mapIdx fun i p => (i, p)) ↔ ps[e.1]? = some e.2 := by
    rw [List.mem_mapIdx]
    constructor
    · rintro ⟨i, hi, rfl⟩
      simp
    · intro h
      obtain ⟨hi, he⟩ := List.getElem?_eq_some_iff.mp h
      exact ⟨e.1, hi, by rw [he]⟩
  rw [order, List.mem_append, List.mem_filter, List.mem_filter, hall]
  cases e.2.isRoot <;> simp

/-- The probe of a draft with one root. -/
theorem probe_of_single {d : Draft} {plan : Plan} {x : String} {r : Recipe} {w : Lowering}
    (hplans : d.rootPlans = .ok [plan])
    (hlow : plan.lowerVia (d.lowerWithin d.nesting) (some 0) { locals := [none] } = .ok ((x, r), w))
    (hlen : w.locals.length = 1) (name : String) : d.probe name = .ok ⟨name, w.params, w.body, [x], [r]⟩ := by
  have horder : order [plan] = [(0, plan)] := by
    cases hroot : plan.isRoot <;> simp [order, hroot]
  have hlocals : w.locals.set 0 (some x) = [some x] := by
    obtain ⟨y, hy⟩ := List.length_eq_one_iff.mp hlen
    rw [hy]
    rfl
  have hroots : d.lowerRoots (order [plan]) { locals := [none] } =
      .ok (({} : Table Nat Recipe).insert 0 r, { w with locals := [some x] }) := by
    rw [horder]
    show (plan.lowerVia (d.lowerWithin d.nesting) (some 0) { locals := [none] } >>= _) = _
    rw [hlow]
    show Except.ok (_, { w with locals := w.locals.set 0 (some x) }) = _
    rw [hlocals]
  rw [probe, probeOr, hplans]
  show (d.lowerRoots (order [plan]) { locals := [none] } >>= _) = _
  rw [hroots]
  rfl

theorem Sane.exists_plan {c : Catalog} {d : Draft} {targets : Store} {roots : List Handle}
    (hs : Sane c targets roots d) (ha : targets.Acyclic) (hr : Ready targets roots) {h : Handle} (hh : h ∈ roots) :
    ∃ p, d.plan h = .ok p ∧ ∀ self, Lowering.Works roots.length (p.lowerVia (d.lowerWithin d.nesting) self) :=
  hs.works_within ha (hs.rank_lt h) (hs.suggested_of_ready hr hh)

theorem Sane.exists_rootPlans {c : Catalog} {d : Draft} {targets : Store} {roots : List Handle}
    (hs : Sane c targets roots d) (ha : targets.Acyclic) (hr : Ready targets roots) :
    ∃ plans, d.rootPlans = .ok plans ∧ plans.length = roots.length ∧ ∀ e ∈ order plans, e.1 < roots.length ∧
      ∀ self, Lowering.Works roots.length (e.2.lowerVia (d.lowerWithin d.nesting) self) := by
  obtain ⟨plans, hplans⟩ : ∃ plans, d.rootPlans = .ok plans := by
    rw [rootPlans, hs.roots_eq]
    exact exists_mapM fun h hh => (hs.exists_plan ha hr hh).imp fun p hp => hp.1
  have hall : List.Forall₂ (fun h p => d.plan h = .ok p) roots plans := by
    rw [rootPlans, hs.roots_eq] at hplans
    exact mapM_eq_ok.mp hplans
  refine ⟨plans, hplans, hall.length_eq.symm, ?_⟩
  intro e he
  obtain ⟨hi, hget⟩ := List.getElem?_eq_some_iff.mp (mem_order.mp he)
  have hi' : e.1 < roots.length := hall.length_eq ▸ hi
  obtain ⟨p, hp, hw⟩ := hs.exists_plan ha hr (List.getElem_mem hi')
  have hplan : d.plan roots[e.1] = .ok plans[e.1] := hall.get hi' hi
  have hpe : p = e.2 := by
    rw [hplan] at hp
    rw [← hget]
    exact (Except.ok.inj hp).symm
  exact ⟨hi', hpe ▸ hw⟩

/-- A draft whose leaves have plans has a probe, with a local and a recipe for each root. -/
theorem Sane.exists_probe {c : Catalog} {d : Draft} {targets : Store} {roots : List Handle}
    (hs : Sane c targets roots d) (ha : targets.Acyclic) (hr : Ready targets roots) :
    ∃ ps bs ls rs, (∀ name, d.probe name = .ok ⟨name, ps, bs, ls, rs⟩) ∧ ls.length = roots.length ∧
      rs.length = roots.length ∧ ∀ r ∈ rs, r.Grounded roots.length := by
  obtain ⟨plans, hplans, hcount, hwork⟩ := hs.exists_rootPlans ha hr
  obtain ⟨rs, w, hlow, hkeep, hloc, hrec, hgr⟩ := works_roots hwork { locals := plans.map fun _ => none }
    (by simp [hcount])
  have hlen : w.locals.length = roots.length := hkeep.length_eq.trans (by simp [hcount])
  have hmem : ∀ i, (hi : i < plans.length) → (i, plans[i]) ∈ order plans :=
    fun i hi => mem_order.mpr (List.getElem?_eq_getElem hi)
  refine ⟨w.params, w.body, w.locals.filterMap id, (List.range plans.length).filterMap rs.find?, ?_, ?_, ?_, ?_⟩
  · intro name
    rw [probe, probeOr, hplans]
    show (d.lowerRoots (order plans) { locals := plans.map fun _ => none } >>= _) = _
    rw [hlow]
    rfl
  · rw [length_filterMap_of_isSome, hlen]
    intro o ho
    obtain ⟨i, hi, rfl⟩ := List.mem_iff_getElem.mp ho
    have hi' : i < plans.length := by rw [hcount, ← hlen]; exact hi
    obtain ⟨x, hx⟩ := hloc _ (hmem i hi')
    rw [List.getElem?_eq_getElem hi] at hx
    rw [Option.some.inj hx]
    rfl
  · rw [length_filterMap_of_isSome, List.length_range, hcount]
    intro i hi
    obtain ⟨r, hr'⟩ := hrec _ (hmem i (List.mem_range.mp hi))
    rw [hr']
    rfl
  · intro r hr'
    obtain ⟨i, -, hi⟩ := List.mem_filterMap.mp hr'
    exact hgr i r hi

end Draft

end Symex
