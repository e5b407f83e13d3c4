import Symex.Proofs.Model.Aliases
import Symex.Proofs.Plan.Enumeration
import Symex.Proofs.Probe.Rooted

/-!
# Copies of roots

Where a plan is another root's value, the probe copies the local of that root if there is one by then, and has null
otherwise. Roots that are other roots' values come last, so that they are always copies. What is inside a container is
made together with the container, when the roots listed before it have locals, and the container itself, but none of
those listed after it. So a value inside a container is shared with an earlier root and not with a later one.
-/

namespace Symex

/-- The two parts of an entry. -/
inductive Side where
  | key
  | value
  deriving DecidableEq

def Side.of {α : Type} : Side → α × α → α
  | key, e => e.1
  | value, e => e.2

/-- The model at a place inside a model. A place is given by the numbers of the entries that lead there. -/
def Draft.modelAt (d : Draft) : Handle → List (Nat × Side) → Option Handle
  | h, [] => some h
  | h, (n, s) :: place =>
    match d.plan h with
    | .ok (.container _ _ _ es) => es[n]?.bind fun e => d.modelAt (s.of e) place
    | _ => none

/-- The recipe at a place inside a recipe. -/
def Recipe.partAt : Recipe → List (Nat × Side) → Option Recipe
  | r, [] => some r
  | container _ _ _ _ es, (n, s) :: place => es[n]?.bind fun e => (s.of e).partAt place
  | _, _ :: _ => none

/-- The value of root `j`, lowered where the roots have the locals `locals`. -/
def Recipe.Stands (locals : List (Option String)) (body : List Stmt) (t : Ty) (j : Nat) (r : Recipe) : Prop :=
  match locals[j]? with
  | some (some l) => ∃ x, r = .root x t j ∧ .copy x l ∈ body
  | _ => ∃ x, r = .null x t ∧ .assignNull x t ∈ body

namespace Draft

/-- Everything inside a model that is another root's value is lowered with the same locals. -/
def Shares (d : Draft) (locals : List (Option String)) (body : List Stmt) (h : Handle) (r : Recipe) : Prop :=
  ∀ place g t j, d.modelAt h place = some g → d.plan g = .ok (.root t j) →
    ∃ q, r.partAt place = some q ∧ q.Stands locals body t j

variable {c : Catalog} {d : Draft} {targets : Store} {roots : List Handle}

theorem Shares.mono {locals : List (Option String)} {body body' : List Stmt} (hb : body ⊆ body') {h : Handle}
    {r : Recipe} (hr : d.Shares locals body h r) : d.Shares locals body' h r := by
  intro place g t j hg hp
  obtain ⟨q, hq, hstands⟩ := hr place g t j hg hp
  refine ⟨q, hq, ?_⟩
  unfold Recipe.Stands at hstands ⊢
  split at hstands
  · exact hstands.imp fun x hx => ⟨hx.1, hb hx.2⟩
  · exact hstands.imp fun x hx => ⟨hx.1, hb hx.2⟩

/-- A model that is neither a container nor another root's value has no such value in it. -/
theorem shares_of_plan {p : Plan} {h : Handle} (hp : d.plan h = .ok p) (hroot : p.isRoot = false)
    (hc : ∀ k t n es, p ≠ .container k t n es) (locals : List (Option String)) (body : List Stmt) (r : Recipe) :
    d.Shares locals body h r := by
  intro place g t j hg hpg
  cases place with
  | nil =>
    cases hg
    rw [hp] at hpg
    cases hpg
    cases hroot
  | cons e place =>
    rw [modelAt, hp] at hg
    cases p with
    | container k t n es => exact absurd rfl (hc k t n es)
    | _ => cases hg

/-- What lowering a model leaves as it was, and what it adds. -/
structure Lowers (d : Draft) (h : Handle) (w : Lowering) (r : Recipe) (w' : Lowering) : Prop where
  locals_eq : w'.locals = w.locals
  body : w.body <+: w'.body
  shares : d.Shares w.locals w'.body h r

theorem shares_root {h : Handle} {t : Ty} {j : Nat} (hp : d.plan h = .ok (.root t j))
    {locals : List (Option String)} {body : List Stmt} {r : Recipe} (hr : r.Stands locals body t j) :
    d.Shares locals body h r := by
  intro place g t' j' hg hpg
  cases place with
  | nil =>
    cases hg
    rw [hp] at hpg
    cases hpg
    exact ⟨r, rfl, hr⟩
  | cons e place =>
    rw [modelAt, hp] at hg
    cases hg

theorem stands_root {t : Ty} {j : Nat} {w w' : Lowering} {x : String} {r : Recipe}
    (hw : w.root t j = .ok ((x, r), w')) :
    w'.locals = w.locals ∧ w.body <+: w'.body ∧ r.Stands w.locals w'.body t j := by
  unfold Lowering.root at hw
  unfold Recipe.Stands
  cases hl : w.locals[j]? with
  | none =>
    rw [hl] at hw
    cases hw
  | some o =>
    rw [hl] at hw
    cases o with
    | none =>
      cases hw
      exact ⟨rfl, List.prefix_append _ _, _, rfl, List.mem_append_right _ List.mem_cons_self⟩
    | some l =>
      cases hw
      exact ⟨rfl, List.prefix_append _ _, _, rfl, List.mem_append_right _ List.mem_cons_self⟩

/-- The entries of a container are lowered one after the other, with the same locals. -/
theorem lowers_entries {inside : Handle → Except Fault Lowering.Making} {es : List (Handle × Handle)}
    (hin : ∀ h make w x r w', inside h = .ok make → make w = .ok ((x, r), w') → d.Lowers h w r w') {y : String}
    {w w' : Lowering} {rs : List (Recipe × Recipe)} (hw : Lowering.entries inside y es w = .ok (rs, w')) :
    w'.locals = w.locals ∧ w.body <+: w'.body ∧
      ∀ (n : Nat) (e : Handle × Handle), es[n]? = some e →
        ∃ f, rs[n]? = some f ∧ ∀ s : Side, d.Shares w.locals w'.body (s.of e) (s.of f) := by
  induction es generalizing w rs with
  | nil =>
    cases hw
    exact ⟨rfl, List.prefix_rfl, nofun⟩
  | cons e es ih =>
    obtain ⟨k, v⟩ := e
    obtain ⟨makeKey, hk, hw⟩ := bind_eq_ok.mp hw
    obtain ⟨makeValue, hv, hw⟩ := bind_eq_ok.mp hw
    obtain ⟨⟨⟨key, kr⟩, u⟩, hu, hw⟩ := bind_eq_ok.mp hw
    obtain ⟨⟨⟨value, vr⟩, z⟩, hz, hw⟩ := bind_eq_ok.mp hw
    obtain ⟨⟨rest, w₁⟩, hrest, hend⟩ := bind_eq_ok.mp hw
    cases hend
    have hkey := hin k makeKey w key kr u hk hu
    have hvalue := hin v makeValue u value vr z hv hz
    obtain ⟨hlocals, hbody, hall⟩ := ih hrest
    have hzw : z.locals = w.locals := hvalue.locals_eq.trans hkey.locals_eq
    have hstored : z.body <+: w'.body := (List.prefix_append _ _).trans hbody
    refine ⟨hlocals.trans hzw, hkey.body.trans (hvalue.body.trans hstored), ?_⟩
    intro n e he
    cases n with
    | zero =>
      cases he
      refine ⟨(kr, vr), rfl, fun s => ?_⟩
      cases s with
      | key => exact hkey.shares.mono (hvalue.body.trans hstored).subset
      | value =>
        have hshares := hvalue.shares.mono hstored.subset
        rw [hkey.locals_eq] at hshares
        exact hshares
    | succ n =>
      obtain ⟨f, hf, hshares⟩ := hall n e he
      refine ⟨f, hf, fun s => ?_⟩
      rw [← hzw]
      exact hshares s

/-- The locals of the roots when a container has its own, which is that of a root if the container is one. -/
def known (self : Option Nat) (x : String) (locals : List (Option String)) : List (Option String) :=
  match self with
  | some i => locals.set i (some x)
  | none => locals

/-- A container has its local before its entries are lowered. -/
theorem lowers_container {inside : Handle → Except Fault Lowering.Making}
    (hin : ∀ h make w x r w', inside h = .ok make → make w = .ok ((x, r), w') → d.Lowers h w r w') {h n : Handle}
    {k : ContainerKind} {t : Ty} {es : List (Handle × Handle)} (hp : d.plan h = .ok (.container k t n es))
    {self : Option Nat} {w w' : Lowering} {x : String} {r : Recipe}
    (hw : (Plan.container k t n es).lowerVia inside self w = .ok ((x, r), w')) :
    w'.locals = known self x w.locals ∧ w.body <+: w'.body ∧ d.Shares (known self x w.locals) w'.body h r := by
  rw [Plan.lowerVia, Plan.lowerOr] at hw
  obtain ⟨make, hmake, hw⟩ := bind_eq_ok.mp hw
  obtain ⟨⟨⟨length, lr⟩, u⟩, hu, hw⟩ := bind_eq_ok.mp hw
  obtain ⟨⟨rs, w₁⟩, hrs, hend⟩ := bind_eq_ok.mp hw
  cases hend
  have hlength := hin n make w length lr u hmake hu
  obtain ⟨hlocals, hbody, hall⟩ := lowers_entries hin hrs
  have hallocate : (u.allocate self k t length).2.locals = known self (u.allocate self k t length).1 w.locals ∧
      u.body <+: (u.allocate self k t length).2.body := by
    rw [← hlength.locals_eq]
    cases self with
    | none => exact ⟨rfl, List.prefix_append _ _⟩
    | some i => exact ⟨rfl, List.prefix_append _ _⟩
  refine ⟨hlocals.trans hallocate.1, hlength.body.trans (hallocate.2.trans hbody), ?_⟩
  intro place g t' j hg hpg
  cases place with
  | nil =>
    cases hg
    rw [hp] at hpg
    cases hpg
  | cons e place =>
    obtain ⟨m, s⟩ := e
    rw [modelAt, hp] at hg
    obtain ⟨e, he, hg⟩ := Option.bind_eq_some_iff.mp hg
    obtain ⟨f, hf, hshares⟩ := hall m e he
    obtain ⟨q, hq, hstands⟩ := hshares s place g t' j hg hpg
    refine ⟨q, ?_, hallocate.1 ▸ hstands⟩
    rw [Recipe.partAt, hf]
    exact hq

section Sane

variable (hs : Sane c targets roots d)

include hs

/-- A plan is another root's value, a container, or flat. -/
theorem Sane.lowers_leaf {inside : Handle → Except Fault Lowering.Making} {h : Handle} {p : Plan}
    (hp : d.plan h = .ok p) (hc : ∀ k t n es, p ≠ .container k t n es) {self : Option Nat} {w w' : Lowering}
    {x : String} {r : Recipe} (hw : p.lowerVia inside self w = .ok ((x, r), w')) : d.Lowers h w r w' := by
  have hplan := hp
  unfold plan at hp
  split at hp
  next q hq =>
    obtain ⟨t, -, -, hfits⟩ := hs.decided hq
    cases hp
    obtain ⟨x', r', w₁, hok, hl⟩ := hfits.lowered self w
    rw [hw] at hok
    cases hok
    exact ⟨hl.locals_eq, hl.grows.2.1, shares_of_plan hplan (by cases hfits <;> rfl) hc _ _ _⟩
  next =>
    rcases suggested_cases hp with ⟨t, rfl⟩ | ⟨t, rfl⟩ | ⟨t, i, hi, rfl⟩ | ⟨k, b, hk, rfl⟩
    · cases hw
      exact ⟨rfl, List.prefix_append _ _, shares_of_plan hplan rfl hc _ _ _⟩
    · cases hw
      exact ⟨rfl, List.prefix_rfl, shares_of_plan hplan rfl hc _ _ _⟩
    · obtain ⟨hlocals, hbody, hstands⟩ := stands_root hw
      exact ⟨hlocals, hbody, shares_root hplan hstands⟩
    · exact absurd rfl (hc _ _ _ _)

theorem Sane.lowers_within {n : Nat} {h : Handle} {make : Lowering.Making} (hm : d.lowerWithin n h = .ok make)
    {w w' : Lowering} {x : String} {r : Recipe} (hw : make w = .ok ((x, r), w')) : d.Lowers h w r w' := by
  induction n generalizing h make w w' x r with
  | zero => cases hm
  | succ n ih =>
    obtain ⟨p, hp, he⟩ := bind_eq_ok.mp hm
    cases he
    cases p with
    | container k t l es =>
      obtain ⟨hlocals, hbody, hshares⟩ := lowers_container (fun _ _ _ _ _ _ hm hw => ih hm hw) hp hw
      exact ⟨hlocals, hbody, hshares⟩
    | _ => exact hs.lowers_leaf hp nofun hw

/-- A root is lowered with the locals of the roots before it and its own. -/
theorem Sane.lowers_asRoot {h : Handle} {p : Plan} {i : Nat} (hp : d.plan h = .ok p)
    (hself : ∀ t, p ≠ .root t i) {n : Nat} {u v : Lowering} {x : String} {r : Recipe}
    (hu : p.lowerVia (d.lowerWithin n) (some i) u = .ok ((x, r), v)) :
    v.locals.set i (some x) = u.locals.set i (some x) ∧ u.body <+: v.body ∧
      d.Shares (u.locals.set i (some x)) v.body h r := by
  have hinside : ∀ h make w x r w', d.lowerWithin n h = .ok make → make w = .ok ((x, r), w') → d.Lowers h w r w' :=
    fun _ _ _ _ _ _ hm hw => hs.lowers_within hm hw
  cases p with
  | container k t l es =>
    obtain ⟨hlocals, hbody, hshares⟩ := lowers_container hinside hp hu
    refine ⟨?_, hbody, hshares⟩
    rw [hlocals]
    exact List.set_set (some x)
  | root t j =>
    obtain ⟨hlocals, hbody, hstands⟩ := stands_root hu
    have hij : i ≠ j := fun he => hself t (by rw [he])
    refine ⟨by rw [hlocals], hbody, shares_root hp ?_⟩
    unfold Recipe.Stands at hstands ⊢
    rwa [List.getElem?_set_ne hij]
  | _ =>
    have hl := hs.lowers_leaf hp nofun hu
    exact ⟨by rw [hl.locals_eq], hl.body, shares_of_plan hp rfl nofun _ _ _⟩

/-- A root keeps its local while other roots are lowered. -/
theorem Sane.locals_lowerRoots {ps : List (Nat × Plan)}
    (hps : ∀ e ∈ ps, ∃ h, d.plan h = .ok e.2 ∧ ∀ t, e.2 ≠ .root t e.1) {w w' : Lowering} {rs : Table Nat Recipe}
    (hw : d.lowerRoots ps w = .ok (rs, w')) :
    w.body <+: w'.body ∧ ∀ k ∉ ps.map Prod.fst, w'.locals[k]? = w.locals[k]? := by
  induction ps generalizing w rs with
  | nil =>
    cases hw
    exact ⟨List.prefix_rfl, fun k _ => rfl⟩
  | cons e ps ih =>
    obtain ⟨x, r, v, rs', hv, hrest, rfl⟩ := lowerRoots_cons_cases hw
    obtain ⟨h, hplan, hself⟩ := hps e List.mem_cons_self
    obtain ⟨hlocals, hbody, -⟩ := hs.lowers_asRoot hplan hself hv
    obtain ⟨hbody', hkept⟩ := ih (fun f hf => hps f (List.mem_cons_of_mem _ hf)) hrest
    refine ⟨hbody.trans hbody', fun k hk => ?_⟩
    rw [List.map_cons, List.mem_cons, not_or] at hk
    rw [hkept k hk.2]
    show (v.locals.set e.1 (some x))[k]? = w.locals[k]?
    rw [hlocals, List.getElem?_set_ne fun he => hk.1 he.symm]

omit hs in
theorem lowerRoots_append {l₁ l₂ : List (Nat × Plan)} {w w' : Lowering} {rs : Table Nat Recipe}
    (hw : d.lowerRoots (l₁ ++ l₂) w = .ok (rs, w')) :
    ∃ rs₁ u rs₂, d.lowerRoots l₁ w = .ok (rs₁, u) ∧ d.lowerRoots l₂ u = .ok (rs₂, w') ∧
      ∀ k ∉ l₁.map Prod.fst, rs.find? k = rs₂.find? k := by
  induction l₁ generalizing w rs with
  | nil => exact ⟨{}, w, rs, rfl, hw, fun k _ => rfl⟩
  | cons e l₁ ih =>
    obtain ⟨x, r, v, rs', hv, hrest, rfl⟩ := lowerRoots_cons_cases hw
    obtain ⟨rs₁, u, rs₂, h₁, h₂, hfind⟩ := ih hrest
    refine ⟨rs₁.insert e.1 r, u, rs₂, ?_, h₂, ?_⟩
    · exact bind_eq_ok.mpr ⟨((x, r), v), hv, bind_eq_ok.mpr ⟨(rs₁, u), h₁, rfl⟩⟩
    · intro k hk
      rw [List.map_cons, List.mem_cons, not_or] at hk
      rw [Table.find?_insert, if_neg hk.1, hfind k hk.2]

/-- A plan that is another root's value is about a root that is not. -/
theorem Sane.exists_root_of_plan {g : Handle} {t : Ty} {j : Nat} (hg : d.plan g = .ok (.root t j)) :
    ∃ h, roots[j]? = some h ∧ ∀ q, d.plan h = .ok q → q.isRoot = false := by
  have hsug : d.suggested g = .ok (.root t j) := by
    unfold plan at hg
    split at hg
    next q hq =>
      obtain ⟨u, -, -, hfits⟩ := hs.decided hq
      cases hg
      cases hfits
    next => exact hg
  unfold suggested at hsug
  rw [hs.targets_eq, hs.roots_eq] at hsug
  obtain ⟨m, hm, hsug⟩ := bind_eq_ok.mp hsug
  cases m with
  | sameAs u k =>
    obtain ⟨a, ha, hsug⟩ := bind_eq_ok.mp hsug
    cases hfind : roots.findIdx? (· = a) with
    | none =>
      rw [hfind] at hsug
      cases hsug
    | some i =>
      rw [hfind] at hsug
      cases hsug
      obtain ⟨hlt, hroot, -⟩ := List.findIdx?_eq_some_iff_getElem.mp hfind
      obtain ⟨m, hma, hne⟩ := Store.get_of_derefWithin ha
      refine ⟨a, ?_, fun q hq => hs.not_isRoot (Store.get_eq_ok.mp hma) hne hq⟩
      rw [List.getElem?_eq_getElem hlt, of_decide_eq_true hroot]
  | _ => cases hsug

/-- No root is its own value. -/
theorem Sane.ne_root_self {g : Handle} {i : Nat} (hg : roots[i]? = some g) {q : Plan} (hq : d.plan g = .ok q) (t : Ty) :
    q ≠ .root t i := by
  rintro rfl
  obtain ⟨g', hg', hnot⟩ := hs.exists_root_of_plan hq
  rw [hg] at hg'
  cases hg'
  cases hnot _ hq

end Sane

/-! ### The order of the roots -/

/-- Roots that are not other roots' values are lowered as they are listed. -/
theorem pairwise_lt_order (ps : List Plan) :
    (order ps).Pairwise fun e f => e.2.isRoot = false → f.2.isRoot = false → e.1 < f.1 := by
  have hall : (ps.mapIdx fun i p => (i, p)).Pairwise fun e f => e.1 < f.1 := by
    rw [List.pairwise_iff_getElem]
    intro i j hi hj hij
    simpa using hij
  refine List.pairwise_append.mpr ⟨?_, ?_, ?_⟩
  · exact (hall.filter _).imp fun h _ _ => h
  · exact (hall.filter _).imp fun h _ _ => h
  · intro e _ f hf _ hroot
    rw [(List.mem_filter.mp hf).2] at hroot
    cases hroot

/-- Where a root that is not another root's value stands in the order. -/
theorem mem_order_split {ps : List Plan} {l₁ l₂ : List (Nat × Plan)} {e f : Nat × Plan}
    (h : order ps = l₁ ++ e :: l₂) (hf : f ∈ order ps) (hroot : f.2.isRoot = false) :
    (e.2.isRoot = true ∨ f.1 < e.1 → f ∈ l₁) ∧ (e.2.isRoot = false → e.1 < f.1 → f ∈ l₂) := by
  by_cases he : e.2.isRoot = true
  · exact ⟨fun _ => mem_of_order_eq h he hf hroot, fun hn => by simp [he] at hn⟩
  · have hsorted := pairwise_lt_order ps
    rw [h] at hsorted hf
    obtain ⟨-, hafter, hbefore⟩ := List.pairwise_append.mp hsorted
    have he' : e.2.isRoot = false := Bool.eq_false_iff.mpr he
    rcases List.mem_append.mp hf with hf | hf
    · have hlt := hbefore f hf e List.mem_cons_self hroot he'
      exact ⟨fun _ => hf, fun _ hgt => absurd hgt (by omega)⟩
    · rcases List.mem_cons.mp hf with rfl | hf
      · exact ⟨fun hor => absurd hor (by simp [he]), fun _ hgt => absurd hgt (by omega)⟩
      · have hlt := (List.pairwise_cons.mp hafter).1 f hf he' hroot
        refine ⟨fun hor => ?_, fun _ _ => hf⟩
        rcases hor with hor | hor
        · exact absurd hor he
        · omega

/-! ### The probe -/

/-- The locals that there are when a root is lowered: those of the roots listed up to it, or of all roots if it is
another root's value itself. In the end these roots still have them. -/
theorem Sane.exists_shares (hs : Sane c targets roots d) (ha : targets.Acyclic) (hr : Ready targets roots)
    {name : String} {p : Probe} (hp : d.probe name = .ok p) {i : Nat} {h : Handle} {plan : Plan}
    (hi : roots[i]? = some h) (hplan : d.plan h = .ok plan) :
    ∃ r locals, p.recipes[i]? = some r ∧ d.Shares locals p.body h r ∧
      ∀ (j : Nat) (g : Handle) (q : Plan), roots[j]? = some g → d.plan g = .ok q → q.isRoot = false →
        (plan.isRoot = true ∨ j ≤ i → ∃ l, locals[j]? = some (some l) ∧ p.locals[j]? = some l) ∧
        (plan.isRoot = false → i < j → locals[j]? = some none) := by
  obtain ⟨plans, rs, w, hlow, hcount, hwork, hmem, -, hbody, hrecipes, hlocals⟩ := hs.exists_lowering ha hr hp
  have hlen : (plans.map fun _ => (none : Option String)).length = roots.length := by rw [List.length_map, hcount]
  have hplans : ∀ e ∈ order plans, ∃ h, d.plan h = .ok e.2 ∧ ∀ t, e.2 ≠ .root t e.1 := by
    intro e he
    obtain ⟨g, hg, hgp⟩ := (hmem e).mp he
    exact ⟨g, hgp, hs.ne_root_self hg hgp⟩
  obtain ⟨l₁, l₂, hsplit⟩ := List.append_of_mem ((hmem (i, plan)).mpr ⟨h, hi, hplan⟩)
  have hnodup := nodup_order plans
  rw [hsplit] at hlow hnodup hwork hplans
  obtain ⟨rs₁, u, rs₂, hlow₁, hlow₂, hfind⟩ := lowerRoots_append hlow
  obtain ⟨x, r, v, rs₃, hv, hlow₃, rfl⟩ := lowerRoots_cons_cases hlow₂
  rw [List.map_append, List.map_cons, List.nodup_append] at hnodup
  obtain ⟨hnodup₁, hnodup₂, hdisjoint⟩ := hnodup
  have hi₁ : i ∉ l₁.map Prod.fst := fun hmem₁ => hdisjoint i hmem₁ i List.mem_cons_self rfl
  obtain ⟨hi₂, -⟩ := List.nodup_cons.mp hnodup₂
  obtain ⟨-, hself⟩ := (hplans (i, plan) (List.mem_append_right _ List.mem_cons_self)).choose_spec
  obtain ⟨hset, -, hshares⟩ := hs.lowers_asRoot hplan hself hv
  obtain ⟨-, hkept₁⟩ := hs.locals_lowerRoots (fun e he => hplans e (List.mem_append_left _ he)) hlow₁
  obtain ⟨hbody₃, hkept₃⟩ :=
    hs.locals_lowerRoots (fun e he => hplans e (List.mem_append_right _ (List.mem_cons_of_mem _ he))) hlow₃
  obtain ⟨rs₁', u', hlow₁', hkeeps, hloc, -⟩ :=
    works_roots (fun e he => hwork e (List.mem_append_left _ he)) { locals := plans.map fun _ => none } hlen
  rw [hlow₁] at hlow₁'
  cases hlow₁'
  have hlt := (List.getElem?_eq_some_iff.mp hi).1
  refine ⟨r, u.locals.set i (some x), ?_, ?_, ?_⟩
  · rw [hrecipes i hlt, hfind i hi₁]
    exact Table.find?_insert_self _ _ _
  · rw [hbody]
    exact hshares.mono hbody₃.subset
  · intro j g q hj hq hqroot
    have hlast : ∀ k, k ∉ l₂.map Prod.fst → w.locals[k]? = (u.locals.set i (some x))[k]? := by
      intro k hk
      rw [hkept₃ k hk, ← hset]
    obtain ⟨hbefore, hafter⟩ := mem_order_split hsplit ((hmem (j, q)).mpr ⟨g, hj, hq⟩) hqroot
    constructor
    · intro hor
      by_cases hji : j = i
      · subst hji
        have hx : (u.locals.set j (some x))[j]? = some (some x) :=
          List.getElem?_set_self (by rw [hkeeps.length_eq, hlen]; exact hlt)
        exact ⟨x, hx, hlocals j x ((hlast j hi₂).trans hx)⟩
      · have hmem₁ := hbefore (hor.imp_right fun hle => by omega)
        obtain ⟨y, hy⟩ := hloc (j, q) hmem₁
        have hy' : (u.locals.set i (some x))[j]? = some (some y) := by
          rw [List.getElem?_set_ne fun he => hji he.symm]
          exact hy
        have hj₂ : j ∉ l₂.map Prod.fst := fun hmem₂ =>
          hdisjoint j (List.mem_map_of_mem hmem₁) j (List.mem_cons_of_mem _ hmem₂) rfl
        exact ⟨y, hy', hlocals j y ((hlast j hj₂).trans hy')⟩
    · intro hnot hij
      have hmem₂ := hafter hnot hij
      have hj₁ : j ∉ l₁.map Prod.fst := fun hmem₁ =>
        hdisjoint j hmem₁ j (List.mem_cons_of_mem _ (List.mem_map_of_mem hmem₂)) rfl
      have hjlt : j < plans.length := by
        rw [hcount]
        exact (List.getElem?_eq_some_iff.mp hj).1
      rw [List.getElem?_set_ne (by omega), hkept₁ j hj₁, List.getElem?_map, List.getElem?_eq_getElem hjlt]
      rfl

/-- Exactly the values that are roots, or are inside a root listed no earlier than the one they are taken from, are
copies of it. The others are null. -/
theorem probe_shares (c : Catalog) (targets : Store) (roots : List Handle) (ha : targets.Acyclic) {d : Draft}
    (hreach : Reaches c { targets, roots } d) (hd : d.isComplete = .ok true) (name : String) :
    ∃ p, d.probe name = .ok p ∧
      ∀ (i : Nat) (h : Handle) (place : List (Nat × Side)) (g : Handle) (t : Ty) (j : Nat), roots[i]? = some h →
        d.modelAt h place = some g → d.plan g = .ok (.root t j) →
        ∃ r q, p.recipes[i]? = some r ∧ r.partAt place = some q ∧
          (place = [] ∨ j ≤ i → ∃ x l, q = .root x t j ∧ p.locals[j]? = some l ∧ .copy x l ∈ p.body) ∧
          (¬ (place = [] ∨ j ≤ i) → ∃ x, q = .null x t ∧ .assignNull x t ∈ p.body) := by
  have hs := (sane_start c targets roots).of_reaches hreach
  have hr := hs.ready_of_isComplete ha hd
  obtain ⟨ps, bs, ls, rs, hprobe, -⟩ := hs.exists_probe ha hr
  refine ⟨⟨name, ps, bs, ls, rs⟩, hprobe name, ?_⟩
  intro i h place g t j hi hg hplan
  obtain ⟨f, hf, hnot⟩ := hs.exists_root_of_plan hplan
  obtain ⟨q, hq, -⟩ := hs.exists_plan ha hr (List.mem_of_getElem? hf)
  obtain ⟨plan, hh, -⟩ := hs.exists_plan ha hr (List.mem_of_getElem? hi)
  obtain ⟨r, locals, hrec, hshares, hlocals⟩ := hs.exists_shares ha hr (hprobe name) hi hh
  obtain ⟨hcopied, hnull⟩ := hlocals j f q hf hq (hnot q hq)
  obtain ⟨s, hsr, hstands⟩ := hshares place g t j hg hplan
  -- A model that has something inside is a container, so its plan is not another root's value.
  have hroot : place = [] ↔ plan.isRoot = true := by
    cases place with
    | nil =>
      cases hg
      rw [hh] at hplan
      cases hplan
      exact ⟨fun _ => rfl, fun _ => rfl⟩
    | cons e place =>
      rw [modelAt, hh] at hg
      cases plan with
      | root t j => cases hg
      | _ => exact ⟨nofun, nofun⟩
  refine ⟨r, s, hrec, hsr, ?_, ?_⟩
  · intro hor
    obtain ⟨l, hl, hpl⟩ := hcopied (hor.imp_left hroot.mp)
    unfold Recipe.Stands at hstands
    rw [hl] at hstands
    obtain ⟨x, hx, hbody⟩ := hstands
    exact ⟨x, l, hx, hpl, hbody⟩
  · intro hnor
    rw [not_or, hroot] at hnor
    unfold Recipe.Stands at hstands
    rw [hnull (Bool.eq_false_iff.mpr hnor.1) (by omega)] at hstands
    exact hstands

/-- A draft for the crate in which the box is made with some number. -/
def boxed (roots : List Handle) : Draft :=
  decide { targets := crate, roots } ⟨0⟩ (.call (.constructor "Box" [.int]) [.hole .int])

/-- The box comes before the crate that it is in, so it is made once and is what is in the crate. -/
theorem probe_shares_boxed :
    (crate.Acyclic ∧ Reaches boxes { targets := crate, roots := [⟨0⟩, ⟨1⟩] } (boxed [⟨0⟩, ⟨1⟩]) ∧
      (boxed [⟨0⟩, ⟨1⟩]).isComplete = .ok true) ∧
    (boxed [⟨0⟩, ⟨1⟩]).modelAt ⟨1⟩ [(0, .value)] = some ⟨4⟩ ∧
    (boxed [⟨0⟩, ⟨1⟩]).plan ⟨4⟩ = .ok (.root (.object "Box") 0) ∧
    ∃ p r x l, (boxed [⟨0⟩, ⟨1⟩]).probe "crate" = .ok p ∧ p.recipes[1]? = some r ∧
      r.partAt [(0, .value)] = some (.root x (.object "Box") 0) ∧ p.locals[0]? = some l ∧ .copy x l ∈ p.body := by
  have hreach : Reaches boxes { targets := crate, roots := [⟨0⟩, ⟨1⟩] } (boxed [⟨0⟩, ⟨1⟩]) :=
    .step .refl rfl (List.mem_cons_of_mem _ List.mem_cons_self)
  have hd : (boxed [⟨0⟩, ⟨1⟩]).isComplete = .ok true := rfl
  obtain ⟨p, hp, hshared⟩ := probe_shares boxes crate [⟨0⟩, ⟨1⟩] acyclic_crate hreach hd "crate"
  obtain ⟨r, q, hr, hq, hcopied, -⟩ := hshared 1 ⟨1⟩ [(0, .value)] ⟨4⟩ (.object "Box") 0 rfl rfl rfl
  obtain ⟨x, l, rfl, hl, hbody⟩ := hcopied (Or.inr (Nat.zero_le 1))
  exact ⟨⟨acyclic_crate, hreach, hd⟩, rfl, rfl, p, r, x, l, hp, hr, hq, hl, hbody⟩

/-- If the crate comes first, then null is in it, although the box is made afterwards. -/
theorem probe_forgets_later_root :
    (crate.Acyclic ∧ Reaches boxes { targets := crate, roots := [⟨1⟩, ⟨0⟩] } (boxed [⟨1⟩, ⟨0⟩]) ∧
      (boxed [⟨1⟩, ⟨0⟩]).isComplete = .ok true) ∧
    (boxed [⟨1⟩, ⟨0⟩]).modelAt ⟨1⟩ [(0, .value)] = some ⟨4⟩ ∧
    (boxed [⟨1⟩, ⟨0⟩]).plan ⟨4⟩ = .ok (.root (.object "Box") 1) ∧
    ∃ p r, (boxed [⟨1⟩, ⟨0⟩]).probe "crate" = .ok p ∧ p.recipes[0]? = some r ∧
      r.partAt [(0, .value)] = some (.null "r1" (.object "Box")) ∧
      p.body =
        [.allocate "r0" .list (.object "List") "p0", .assignNull "r1" (.object "Box"), .store "r0" "p1" "r1",
          .construct "r2" (.constructor "Box" [.int]) ["p2"]] ∧
      p.locals = ["r0", "r2"] := by
  refine ⟨⟨acyclic_crate, ?_, rfl⟩, rfl, rfl, _, _, rfl, rfl, rfl, rfl, rfl⟩
  exact .step .refl rfl (List.mem_cons_of_mem _ List.mem_cons_self)

end Draft

end Symex
