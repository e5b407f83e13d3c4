import Symex.Proofs.Plan.Typed
import Symex.Proofs.Probe.Assembled
import Symex.Proofs.Probe.Scoped
import Symex.Proofs.Probe.Sharing

/-!
# The calls on a local

A plan for a value that is made by calls is nested inside out: the last modifier is outermost. Its statements come in
the order of execution, between those of the arguments, and all of them are about one local. No other statement calls
anything on this local, since whatever is lowered before or afterwards has locals of its own. The model that is
assembled for the value lists the same calls in the same order.
-/

namespace Symex

namespace Stmt

/-- The local that a call makes or changes the value of. -/
def calledOn? : Stmt → Option String
  | construct x _ _ => some x
  | produce x _ _ => some x
  | invoke x _ _ => some x
  | _ => none

/-- The call that makes the value of a local. -/
def making (x : String) (m : Method) (args : List String) : Stmt :=
  if m.kind = .constructor then construct x m args else produce x m args

theorem calledOn?_making (x : String) (m : Method) (args : List String) : (making x m args).calledOn? = some x := by
  unfold making
  split <;> rfl

/-- The calls on a local. -/
def callsOn (body : List Stmt) (x : String) : List Stmt := body.filter fun s => s.calledOn? = some x

theorem callsOn_append (body more : List Stmt) (x : String) :
    callsOn (body ++ more) x = callsOn body x ++ callsOn more x := List.filter_append ..

end Stmt

open Stmt (callsOn)

/-! ### The statements that lowering adds -/

namespace Lowering

/-- A local or parameter that is named between `w` and `w'`. -/
def Names (w w' : Lowering) (x : String) : Prop :=
  (∃ k, w.named ≤ k ∧ k < w'.named ∧ x = localName k) ∨
    ∃ i, w.params.length ≤ i ∧ i < w'.params.length ∧ x = paramName i

/-- From `w` to `w'`, some statements are added, and all calls among them are on new names. -/
structure Emits (w : Lowering) (added : List Stmt) (w' : Lowering) : Prop where
  body : w'.body = w.body ++ added
  named : w.named ≤ w'.named
  params : w.params.length ≤ w'.params.length
  calls : ∀ s ∈ added, ∀ x, s.calledOn? = some x → w.Names w' x

variable {u v w w' : Lowering} {added more : List Stmt} {x : String}

theorem Names.disjoint (h : u.Names v x) : ¬ v.Names w x := by
  rintro (⟨k, hk, -, rfl⟩ | ⟨i, hi, -, rfl⟩)
  · obtain ⟨j, -, hj, he⟩ | ⟨i, -, -, he⟩ := h
    · have := localName_inj he
      omega
    · exact paramName_ne_localName i k he.symm
  · obtain ⟨j, -, -, he⟩ | ⟨j, -, hj, he⟩ := h
    · exact paramName_ne_localName i j he
    · have := paramName_inj he
      omega

theorem Names.later (h : u.Names v x) (he : v.Emits added w) : u.Names w x := by
  have hnamed := he.named
  have hparams := he.params
  refine h.imp ?_ ?_
  · rintro ⟨k, hk, hlt, rfl⟩
    exact ⟨k, hk, by omega, rfl⟩
  · rintro ⟨i, hi, hlt, rfl⟩
    exact ⟨i, hi, by omega, rfl⟩

theorem Names.earlier (he : u.Emits added v) (h : v.Names w x) : u.Names w x := by
  have hnamed := he.named
  have hparams := he.params
  refine h.imp ?_ ?_
  · rintro ⟨k, hk, hlt, rfl⟩
    exact ⟨k, by omega, hlt, rfl⟩
  · rintro ⟨i, hi, hlt, rfl⟩
    exact ⟨i, by omega, hlt, rfl⟩

theorem Emits.refl (w : Lowering) : w.Emits [] w :=
  ⟨(List.append_nil _).symm, Nat.le_refl _, Nat.le_refl _, nofun⟩

theorem Emits.trans (h : u.Emits added v) (k : v.Emits more w) : u.Emits (added ++ more) w := by
  refine ⟨by rw [k.body, h.body, List.append_assoc], h.named.trans k.named, h.params.trans k.params, ?_⟩
  intro s hs x hx
  rcases List.mem_append.mp hs with hs | hs
  · exact (h.calls s hs x hx).later k
  · exact .earlier h (k.calls s hs x hx)

theorem Emits.callsOn_eq_nil (h : u.Emits added v) (hx : ¬ u.Names v x) : callsOn added x = [] := by
  refine List.filter_eq_nil_iff.mpr fun s hs he => hx (h.calls s hs x ?_)
  exact of_decide_eq_true he

/-! ### Single steps -/

theorem names_fresh (w : Lowering) : w.Names w.fresh.2 w.fresh.1 :=
  Or.inl ⟨w.named, Nat.le_refl _, Nat.lt_succ_self _, rfl⟩

/-- A statement for a new local. -/
theorem emits_fresh (w : Lowering) {s : Stmt} (hs : ∀ x, s.calledOn? = some x → x = w.fresh.1) :
    w.Emits [s] (w.fresh.2.emit s) := by
  refine ⟨rfl, Nat.le_succ _, Nat.le_refl _, List.forall_mem_singleton.mpr fun x hx => ?_⟩
  rw [hs x hx]
  exact w.names_fresh

theorem emits_null (w : Lowering) (t : Ty) : w.Emits [.assignNull (w.null t).1.1 t] (w.null t).2 :=
  w.emits_fresh nofun

theorem emits_param (w : Lowering) (t : Ty) : w.Emits [] (w.param t).2 :=
  ⟨(List.append_nil _).symm, Nat.le_refl _, by simp [Lowering.param], nofun⟩

theorem names_param (w : Lowering) (t : Ty) : w.Names (w.param t).2 (w.param t).1.1 :=
  Or.inr ⟨w.params.length, Nat.le_refl _, by simp [Lowering.param], rfl⟩

theorem emits_create (w : Lowering) (m : Method) (ys : List String) (rs : List Recipe) :
    w.Emits [.making (w.create m ys rs).1.1 m ys] (w.create m ys rs).2 := by
  refine w.emits_fresh (s := .making w.fresh.1 m ys) fun x hx => ?_
  rw [Stmt.calledOn?_making] at hx
  exact (Option.some.inj hx).symm

theorem emits_allocate (w : Lowering) (self : Option Nat) (k : ContainerKind) (t : Ty) (length : String) :
    ∃ added, w.Emits added (w.allocate self k t length).2 ∧
      w.Names (w.allocate self k t length).2 (w.allocate self k t length).1 := by
  have hmade := w.emits_fresh (s := .allocate w.fresh.1 k t length) nofun
  refine ⟨[.allocate w.fresh.1 k t length], ?_⟩
  cases self <;> exact ⟨⟨hmade.body, hmade.named, hmade.params, hmade.calls⟩, w.names_fresh⟩

theorem emits_root {t : Ty} {i : Nat} {r : Recipe} (h : w.root t i = .ok ((x, r), w')) :
    ∃ added, w.Emits added w' ∧ w.Names w' x := by
  unfold Lowering.root at h
  split at h
  · cases h
  · cases h
    exact ⟨_, w.emits_null t, w.names_fresh⟩
  · cases h
    exact ⟨_, w.emits_fresh (fun x hx => by cases hx), w.names_fresh⟩

/-! ### Plans -/

/-- A step that adds statements for a new name, if it succeeds. -/
def Emitting (make : Making) : Prop :=
  ∀ ⦃w w' : Lowering⦄ ⦃x : String⦄ ⦃r : Recipe⦄, make w = .ok ((x, r), w') → ∃ added, w.Emits added w' ∧ w.Names w' x

theorem emits_entries {inside : Handle → Except Fault Making} (hin : ∀ {h make}, inside h = .ok make → Emitting make)
    {es : List (Handle × Handle)} {rs : List (Recipe × Recipe)} (h : w.entries inside x es = .ok (rs, w')) :
    ∃ added, w.Emits added w' := by
  induction es generalizing w rs with
  | nil =>
    cases h
    exact ⟨[], .refl _⟩
  | cons e es ih =>
    obtain ⟨makeKey, makeValue, key, kr, u, value, vr, v, ss, hk, hv, hu, hz, hrest, -⟩ := entries_cons_cases h
    obtain ⟨_, hkey, -⟩ := hin hk hu
    obtain ⟨_, hvalue, -⟩ := hin hv hz
    obtain ⟨_, hthen⟩ := ih hrest
    have hstore : v.Emits [.store x key value] (v.emit (.store x key value)) :=
      ⟨rfl, Nat.le_refl _, Nat.le_refl _, List.forall_mem_singleton.mpr nofun⟩
    exact ⟨_, ((hkey.trans hvalue).trans hstore).trans hthen⟩

end Lowering

namespace Plan

open Lowering (Emitting)

variable {inside : Handle → Except Fault Lowering.Making}

theorem emits_invoke {u w : Lowering} {added : List Stmt} {x : String} (h : w.Emits added u) (hx : w.Names u x)
    (m : Method) (ys : List String) : w.Emits (added ++ [.invoke x m ys]) (u.emit (.invoke x m ys)) := by
  refine ⟨?_, h.named, h.params, ?_⟩
  · rw [Lowering.emit, h.body, List.append_assoc]
  · intro s hs y hy
    rcases List.mem_append.mp hs with hs | hs
    · exact h.calls s hs y hy
    · rw [List.mem_singleton.mp hs] at hy
      cases hy
      exact hx

mutual

theorem emitting_lowerVia (hin : ∀ {h make}, inside h = .ok make → Emitting make) :
    ∀ (p : Plan) (self : Option Nat), Emitting (p.lowerVia inside self)
  | null t, self => by
    intro w w' x r h
    cases h
    exact ⟨_, w.emits_null t, w.names_fresh⟩
  | hole t, self => by
    intro w w' x r h
    cases h
    exact ⟨_, w.emits_param t, w.names_param t⟩
  | root t i, self => by
    intro w w' x r h
    exact Lowering.emits_root h
  | call m ps, self => by
    intro w w' x r h
    rcases lowerVia_call_cases h with ⟨-, -, hnull⟩ | ⟨s, ys, ss, u, -, hops, -, rfl⟩ | ⟨ys, ss, u, -, hops, hmade⟩
    · cases hnull
      exact ⟨_, w.emits_null _, w.names_fresh⟩
    · obtain ⟨added, hadded, hnames⟩ := emits_lowerAllVia hin ps hops
      have hx := hnames x List.mem_cons_self
      exact ⟨_, emits_invoke hadded hx m ys, hx⟩
    · obtain ⟨added, hadded, -⟩ := emits_lowerAllVia hin ps hops
      cases hmade
      exact ⟨_, hadded.trans (u.emits_create m ys ss), .earlier hadded u.names_fresh⟩
  | container k t n es, self => by
    intro w w' x r h
    obtain ⟨make, length, lr, u, rs, hmake, hu, rfl, hentries, -⟩ := lowerVia_container_cases h
    obtain ⟨_, hlength, -⟩ := hin hmake hu
    obtain ⟨_, hmade, hx⟩ := u.emits_allocate self k t length
    obtain ⟨_, hfilled⟩ := Lowering.emits_entries hin hentries
    exact ⟨_, (hlength.trans hmade).trans hfilled, .earlier hlength (hx.later hfilled)⟩

theorem emits_lowerAllVia (hin : ∀ {h make}, inside h = .ok make → Emitting make) :
    ∀ (ps : List Plan) {w w' : Lowering} {xs : List String} {rs : List Recipe},
      lowerAllVia inside ps w = .ok ((xs, rs), w') → ∃ added, w.Emits added w' ∧ ∀ x ∈ xs, w.Names w' x
  | [], w, w', xs, rs, h => by
    cases h
    exact ⟨[], .refl w, nofun⟩
  | p :: ps, w, w', xs, rs, h => by
    obtain ⟨x, r, u, ys, ss, hp, hrest, rfl, -⟩ := lowerAllVia_cons_cases h
    obtain ⟨_, hfirst, hx⟩ := emitting_lowerVia hin p none hp
    obtain ⟨_, hthen, hys⟩ := emits_lowerAllVia hin ps hrest
    exact ⟨_, hfirst.trans hthen, List.forall_mem_cons.mpr ⟨hx.later hthen, fun y hy => .earlier hfirst (hys y hy)⟩⟩

end

/-! ### The calls of one value -/

/-- A plan that makes a new value: it is not left open, and taken from nowhere else. -/
def IsMade (p : Plan) : Prop := (∃ t, p = null t) ∨ ∃ m ps, p = call m ps

/-- Each modifier in the plan has a receiver that is made. -/
def Settled (p : Plan) : Prop :=
  ∀ m ps, Part (call m ps) p → m.kind = .modifier → ∃ q qs, ps = q :: qs ∧ q.IsMade

theorem Settled.operand {m : Method} {ps : List Plan} {p : Plan} (h : (call m ps).Settled) (hp : p ∈ ps) : p.Settled :=
  fun m' ps' hpart => h m' ps' (.operand hp hpart)

/-- What is made has a local. -/
theorem exists_localName {self : Option Nat} {w w' : Lowering} {x : String} {r : Recipe} {p : Plan} (hp : p.Settled)
    (hmade : p.IsMade) (h : p.lowerVia inside self w = .ok ((x, r), w')) : ∃ k, x = Lowering.localName k := by
  match p with
  | null t =>
    cases h
    exact ⟨w.named, rfl⟩
  | call m ps =>
    rcases lowerVia_call_cases h with ⟨-, -, hnull⟩ | ⟨s, ys, ss, u, hm, hops, -, -⟩ | ⟨ys, ss, u, -, -, hmade⟩
    · cases hnull
      exact ⟨w.named, rfl⟩
    · obtain ⟨q, qs, rfl, hq⟩ := hp m ps .self hm
      obtain ⟨y, s', v, zs, ss', hy, -, hxs, -⟩ := lowerAllVia_cons_cases hops
      cases hxs
      exact exists_localName (hp.operand List.mem_cons_self) hq hy
    · cases hmade
      exact ⟨u.named, rfl⟩
  | hole t => simp [IsMade] at hmade
  | root t i => simp [IsMade] at hmade
  | container k t n es => simp [IsMade] at hmade
termination_by p

end Plan

/-- The operand is a parameter only if the recipe is. -/
def Recipe.Operand (y : String) (r : Recipe) : Prop := ∀ i, y = Lowering.paramName i → r = .param i

/-- The statements are the calls of the recipe on a local, in the order in which they are made. -/
def Recipe.MadeBy (x : String) : Recipe → List Stmt → Prop
  | .null _ _, ss => ss = []
  | .create _ m args, ss => ∃ ys, ss = [.making x m ys] ∧ List.Forall₂ Recipe.Operand ys args
  | .change _ m r args, ss =>
    ∃ ss' ys, ss = ss' ++ [.invoke x m ys] ∧ r.MadeBy x ss' ∧ List.Forall₂ Recipe.Operand ys args
  | _, _ => False

namespace Plan

variable {inside : Handle → Except Fault Lowering.Making} {w w' : Lowering}

theorem operand_lowerVia {self : Option Nat} {x : String} {r : Recipe} {p : Plan} (hp : p.Settled)
    (h : p.lowerVia inside self w = .ok ((x, r), w')) : r.Operand x := by
  rintro i rfl
  cases p with
  | hole t =>
    have hmade := Except.ok.inj h
    rw [← Lowering.paramName_inj (congrArg (fun z => z.1.1) hmade)]
    exact (congrArg (fun z => z.1.2) hmade).symm
  | null t =>
    obtain ⟨k, hk⟩ := exists_localName hp (Or.inl ⟨t, rfl⟩) h
    exact absurd hk (Lowering.paramName_ne_localName i k)
  | call m ps =>
    obtain ⟨k, hk⟩ := exists_localName hp (Or.inr ⟨m, ps, rfl⟩) h
    exact absurd hk (Lowering.paramName_ne_localName i k)
  | root t j =>
    rw [lowerVia, lowerOr, Lowering.root] at h
    split at h
    · cases h
    · exact absurd (congrArg (fun z => z.1.1) (Except.ok.inj h)).symm (Lowering.paramName_ne_localName i w.named)
    · exact absurd (congrArg (fun z => z.1.1) (Except.ok.inj h)).symm (Lowering.paramName_ne_localName i w.named)
  | container k t n es =>
    obtain ⟨_, _, _, u, _, -, -, hx, -, -⟩ := lowerVia_container_cases h
    exact absurd hx (Lowering.paramName_ne_localName i u.named)

theorem operands_lowerAllVia {ps : List Plan} (hps : ∀ p ∈ ps, p.Settled) {xs : List String} {rs : List Recipe}
    (h : lowerAllVia inside ps w = .ok ((xs, rs), w')) : List.Forall₂ Recipe.Operand xs rs := by
  induction ps generalizing w xs rs with
  | nil =>
    cases h
    exact .nil
  | cons p ps ih =>
    obtain ⟨x, r, u, ys, ss, hp, hrest, rfl, rfl⟩ := lowerAllVia_cons_cases h
    have hrests := ih (fun q hq => hps q (List.mem_cons_of_mem _ hq)) hrest
    exact .cons (operand_lowerVia (hps p List.mem_cons_self) hp) hrests

/-- The calls on the local of a value that is made are those of its recipe. -/
theorem madeBy_lowerVia (hin : ∀ {h make}, inside h = .ok make → Lowering.Emitting make) {self : Option Nat}
    {w w' : Lowering} {x : String} {r : Recipe} {p : Plan} (hp : p.Settled) (hmade : p.IsMade)
    (h : p.lowerVia inside self w = .ok ((x, r), w')) :
    ∃ added, w.Emits added w' ∧ w.Names w' x ∧ r.MadeBy x (callsOn added x) := by
  match p with
  | null t =>
    cases h
    exact ⟨_, w.emits_null t, w.names_fresh, rfl⟩
  | call m ps =>
    rcases lowerVia_call_cases h with ⟨hm, rfl, -⟩ | ⟨s, ys, ss, u, hm, hops, rfl, rfl⟩ | ⟨ys, ss, u, -, hops, hmade⟩
    · obtain ⟨_, _, hnil, -⟩ := hp m [] .self hm
      cases hnil
    · obtain ⟨q, qs, rfl, hq⟩ := hp m ps .self hm
      obtain ⟨y, s', v, zs, ss', hy, hrest, hxs, hrs⟩ := lowerAllVia_cons_cases hops
      cases hxs
      cases hrs
      obtain ⟨added, hadded, hx, hby⟩ := madeBy_lowerVia hin (hp.operand List.mem_cons_self) hq hy
      obtain ⟨more, hmore, -⟩ := emits_lowerAllVia hin qs hrest
      have hx' := hx.later hmore
      refine ⟨_, emits_invoke (hadded.trans hmore) hx' m ys, hx', callsOn added x, ys, ?_, hby, ?_⟩
      · -- The arguments have names of their own.
        rw [Stmt.callsOn_append, Stmt.callsOn_append, hmore.callsOn_eq_nil hx.disjoint, List.append_nil]
        simp [callsOn, Stmt.calledOn?]
      · exact operands_lowerAllVia (fun p hp' => hp.operand (List.mem_cons_of_mem _ hp')) hrest
    · obtain ⟨added, hadded, -⟩ := emits_lowerAllVia hin ps hops
      cases hmade
      refine ⟨_, hadded.trans (u.emits_create m ys ss), .earlier hadded u.names_fresh, ys, ?_, ?_⟩
      · have hnone : callsOn added u.fresh.1 = [] := hadded.callsOn_eq_nil fun hx => hx.disjoint u.names_fresh
        show callsOn (added ++ [.making u.fresh.1 m ys]) u.fresh.1 = [.making u.fresh.1 m ys]
        rw [Stmt.callsOn_append, hnone]
        simp [callsOn, Stmt.calledOn?_making]
      · exact operands_lowerAllVia (fun p hp' => hp.operand hp') hops
  | hole t => simp [IsMade] at hmade
  | root t i => simp [IsMade] at hmade
  | container k t n es => simp [IsMade] at hmade
termination_by p

theorem recipe_ne_null {self : Option Nat} {x : String} {r : Recipe} {m : Method} {ps : List Plan}
    (hp : (call m ps).Settled) (h : (call m ps).lowerVia inside self w = .ok ((x, r), w')) (y : String) (t : Ty) :
    r ≠ .null y t := by
  rcases lowerVia_call_cases h with ⟨hm, rfl, -⟩ | ⟨_, _, _, _, -, -, rfl, -⟩ | ⟨_, _, _, -, -, hmade⟩
  · obtain ⟨_, _, hnil, -⟩ := hp m [] .self hm
    cases hnil
  · exact nofun
  · cases hmade
    exact nofun

theorem holes_le_of_mem {p : Plan} {ps : List Plan} (hp : p ∈ ps) : p.holes ≤ holesAll ps := by
  induction ps with
  | nil => cases hp
  | cons q ps ih =>
    rw [holesAll]
    rcases List.mem_cons.mp hp with rfl | hp
    · exact Nat.le_add_right _ _
    · exact (ih hp).trans (Nat.le_add_left _ _)

theorem Part.holes_le {p q : Plan} (h : Part q p) : q.holes ≤ p.holes := by
  induction h with
  | self => exact Nat.le_refl _
  | operand hp _ ih => exact ih.trans (holes_le_of_mem hp)

/-- Without open holes no receiver is one, since it is an object. -/
theorem Fits.settled {c : Catalog} {t : Ty} {p : Plan} (hp : Fits c t p) (hholes : p.holes = 0) : p.Settled := by
  intro m ps hpart hm
  obtain ⟨u, hcall⟩ := hp.of_part hpart
  have htakes := hcall.takes
  rw [Method.Takes, hm] at htakes
  obtain ⟨q, qs, rfl, hq, -⟩ := htakes
  have hqpart : Part q (.call m (q :: qs)) := .operand List.mem_cons_self .self
  obtain ⟨v, hv⟩ := hcall.of_part hqpart
  have hqholes : q.holes ≤ p.holes := hqpart.holes_le.trans hpart.holes_le
  refine ⟨q, qs, rfl, ?_⟩
  cases hv with
  | null _ => exact Or.inl ⟨_, rfl⟩
  | call => exact Or.inr ⟨_, _, rfl⟩
  | hole t =>
    cases hq
    rw [hholes] at hqholes
    cases hqholes

end Plan

/-! ### Drafts -/

namespace Draft

variable {d : Draft}

theorem emitting_lowerWithin {n : Nat} {h : Handle} {make : Lowering.Making} (hm : d.lowerWithin n h = .ok make) :
    Lowering.Emitting make := by
  induction n generalizing h make with
  | zero => cases hm
  | succ n ih =>
    obtain ⟨_, p, heq, -, rfl⟩ := lowerWithin_eq_ok hm
    cases heq
    exact Plan.emitting_lowerVia ih p none

theorem emits_lowerRoots {ps : List (Nat × Plan)} {w w' : Lowering} {rs : Table Nat Recipe}
    (h : d.lowerRoots ps w = .ok (rs, w')) : ∃ added, w.Emits added w' := by
  induction ps generalizing w rs with
  | nil =>
    cases h
    exact ⟨[], .refl _⟩
  | cons e ps ih =>
    obtain ⟨x, r, u, ss, hu, hrest, -⟩ := lowerRoots_cons_cases h
    obtain ⟨added, hadded, -⟩ := Plan.emitting_lowerVia emitting_lowerWithin e.2 (some e.1) hu
    obtain ⟨more, hmore⟩ := ih hrest
    -- The local of the root is noted in between.
    exact ⟨_, hadded.trans ⟨hmore.body, hmore.named, hmore.params, hmore.calls⟩⟩

section Sane

variable {c : Catalog} {targets : Store} {roots : List Handle} (hs : Sane c targets roots d)

include hs

theorem Sane.fits_call {h : Handle} {m : Method} {ps : List Plan} (hp : d.plan h = .ok (.call m ps)) :
    ∃ t, Plan.Fits c t (.call m ps) := by
  unfold plan at hp
  split at hp
  next q hq =>
    obtain ⟨t, -, -, hfits⟩ := hs.decided hq
    cases hp
    exact ⟨t, hfits⟩
  next =>
    rcases suggested_cases hp with ⟨t, he⟩ | ⟨t, he⟩ | ⟨t, i, -, he⟩ | ⟨k, b, -, he⟩ <;> cases he

theorem Sane.settled (hcomplete : d.isComplete = .ok true) {h : Handle} (hh : h ∈ roots) {m : Method} {ps : List Plan}
    (hp : d.plan h = .ok (.call m ps)) : Plan.Settled (.call m ps) := by
  obtain ⟨t, hfits⟩ := hs.fits_call hp
  rw [isComplete, hs.roots_eq] at hcomplete
  have hdefined := forall_of_allM hcomplete h hh
  rw [definedWithin, hp] at hdefined
  have hholes := (Plan.isDefinedVia_of_flat (d.definedWithin d.nesting) _ hfits.isFlat).symm.trans hdefined
  rw [Except.ok.injEq, beq_iff_eq] at hholes
  exact hfits.settled hholes

/-- A root that is made by calls has a local, and the calls on this are those of its recipe. -/
theorem Sane.exists_madeBy (ha : targets.Acyclic) (hcomplete : d.isComplete = .ok true) {name : String} {p : Probe}
    (hprobe : d.probe name = .ok p) {i : Nat} {h : Handle} (hi : roots[i]? = some h) {m : Method} {ps : List Plan}
    (hplan : d.plan h = .ok (.call m ps)) :
    ∃ x r, p.locals[i]? = some x ∧ p.recipes[i]? = some r ∧ r.MadeBy x (callsOn p.body x) ∧ ∀ y t, r ≠ .null y t := by
  have hr := hs.ready_of_isComplete ha hcomplete
  have hsettled := hs.settled hcomplete (List.mem_of_getElem? hi) hplan
  obtain ⟨plans, rs, w, hlow, hcount, hwork, hmem, -, hbody, hrecipes, hlocals⟩ := hs.exists_lowering ha hr hprobe
  obtain ⟨l₁, l₂, hsplit⟩ := List.append_of_mem ((hmem (i, .call m ps)).mpr ⟨h, hi, hplan⟩)
  have hplans : ∀ e ∈ l₂, ∃ g, d.plan g = .ok e.2 ∧ ∀ t, e.2 ≠ .root t e.1 := by
    intro e he
    have he' : e ∈ order plans := hsplit ▸ List.mem_append_right _ (List.mem_cons_of_mem _ he)
    obtain ⟨g, hg, hgp⟩ := (hmem e).mp he'
    exact ⟨g, hgp, hs.ne_root_self hg hgp⟩
  have hnodup := nodup_order plans
  rw [hsplit] at hlow hnodup hwork
  obtain ⟨rs₁, u, rs₂, hlow₁, hlow₂, hfind⟩ := lowerRoots_append hlow
  obtain ⟨x, r, v, rs₃, hv, hlow₃, rfl⟩ := lowerRoots_cons_cases hlow₂
  rw [List.map_append, List.map_cons, List.nodup_append] at hnodup
  obtain ⟨-, hnodup₂, hdisjoint⟩ := hnodup
  have hi₁ : i ∉ l₁.map Prod.fst := fun hmem₁ => hdisjoint i hmem₁ i List.mem_cons_self rfl
  obtain ⟨hi₂, -⟩ := List.nodup_cons.mp hnodup₂
  obtain ⟨before, hbefore⟩ := emits_lowerRoots hlow₁
  obtain ⟨own, hown, hx, hby⟩ := Plan.madeBy_lowerVia emitting_lowerWithin hsettled (Or.inr ⟨m, ps, rfl⟩) hv
  obtain ⟨after, hafter⟩ := emits_lowerRoots hlow₃
  have hcalls : callsOn p.body x = callsOn own x := by
    have hbefore' : callsOn before x = [] := hbefore.callsOn_eq_nil fun hb => hb.disjoint hx
    have hafter' : callsOn after x = [] := hafter.callsOn_eq_nil hx.disjoint
    rw [hbody, hafter.body, hown.body, hbefore.body, Stmt.callsOn_append, Stmt.callsOn_append, Stmt.callsOn_append,
      hbefore', hafter']
    simp [callsOn]
  refine ⟨x, r, hlocals i x ?_, ?_, hcalls ▸ hby, Plan.recipe_ne_null hsettled hv⟩
  · obtain ⟨-, hkept⟩ := hs.locals_lowerRoots hplans hlow₃
    have hlen : v.locals.length = roots.length := by
      obtain ⟨_, _, hlow₁', hkeeps, -⟩ := works_roots (fun e he => hwork e (List.mem_append_left _ he))
        { locals := plans.map fun _ => none } (by rw [List.length_map, hcount])
      rw [hlow₁] at hlow₁'
      cases hlow₁'
      have hu : u.locals.length = roots.length := hkeeps.length_eq.trans (by rw [List.length_map, hcount])
      obtain ⟨_, _, _, hv', hkeeps', -⟩ :=
        (hwork (i, .call m ps) (List.mem_append_right _ List.mem_cons_self)).2 (some i) u hu
      rw [hv] at hv'
      cases hv'
      exact hkeeps'.length_eq.trans hu
    rw [hkept i hi₂]
    exact List.getElem?_set_self (hlen ▸ (List.getElem?_eq_some_iff.mp hi).1)
  · rw [hrecipes i (List.getElem?_eq_some_iff.mp hi).1, hfind i hi₁]
    exact Table.find?_insert_self _ _ _

end Sane

end Draft

/-! ### Models -/

namespace Model

/-- The call that made the value. -/
def creation : Model → Option Call
  | assembly _ c _ => c
  | _ => none

/-- The calls that changed the value. -/
def changes : Model → List Call
  | assembly _ _ cs => cs
  | _ => []

end Model

theorem Recipe.changed_eq (t : Term) (receiver : Model) (call : Call) :
    changed t receiver call = .assembly t receiver.creation (receiver.changes ++ [call]) := by
  cases receiver <;> rfl

namespace Probe

/-- If the operand is a parameter, then the model is that of the parameter. -/
def Passes (p : Probe) (source : Store) (params : List Handle) (store : Store) (h : Handle) (y : String) : Prop :=
  ∀ (j : Nat) (q : Param), p.params[j]? = some q → y = q.name →
    ∃ k m, params[j]? = some k ∧ source.get? k = some m ∧ store.get? h = some m

/-- A call of a model is that of a statement: with the same method and with as many arguments, and parameters are passed
on. -/
def Replays (p : Probe) (source : Store) (params : List Handle) (store : Store) (make : Method → List String → Stmt)
    (call : Call) (s : Stmt) : Prop :=
  ∃ ys, s = make call.method ys ∧ List.Forall₂ (p.Passes source params store) call.args ys

/-- There is one primitive model for each parameter. -/
structure Supplied (p : Probe) (source : Store) (params : List Handle) : Prop where
  length_eq : params.length = p.params.length
  primitive : ∀ h ∈ params, ∃ t v as, source.get? h = some (.primitive t v as)

variable {p : Probe} {source : Store} {params : List Handle}

theorem Passes.mono {s s' : Store} (he : ∀ (k : Handle) (x : Model), s.get? k = some x → s'.get? k = some x)
    {h : Handle} {y : String} (hpass : p.Passes source params s h y) : p.Passes source params s' h y := by
  intro j q hq hy
  obtain ⟨k, m, hk, hm, hstore⟩ := hpass j q hq hy
  exact ⟨k, m, hk, hm, he h m hstore⟩

theorem Replays.mono {s s' : Store} (he : ∀ (k : Handle) (x : Model), s.get? k = some x → s'.get? k = some x)
    {make : Method → List String → Stmt} {call : Call} {t : Stmt} (h : p.Replays source params s make call t) :
    p.Replays source params s' make call t := by
  obtain ⟨ys, ht, hargs⟩ := h
  exact ⟨ys, ht, hargs.imp fun _ _ hpass => hpass.mono he⟩

theorem Supplied.closedOn (hp : p.Supplied source params) : source.ClosedOn (· ∈ params) := by
  intro h hh
  obtain ⟨t, v, as, hm⟩ := hp.primitive h hh
  exact ⟨_, hm, nofun⟩

section Assembling

variable (hp : p.Supplied source params)
  (hnames : ∀ (j : Nat) (q : Param), p.params[j]? = some q → q.name = Lowering.paramName j)
  {roots : List Handle} {spare : Handle → Prop} {c c' : Copying}
  (hc : Supplies.Building { source, params, roots } spare c)

include hp hnames hc

/-- A parameter becomes a copy of its model, which refers to nothing. -/
theorem passes_place {r : Recipe} {y : String} (hy : r.Operand y) {h : Handle}
    (hplace : r.place { source, params, roots } (fun c => r.model { source, params, roots } c) c = .ok (h, c')) :
    p.Passes source params c'.store h y := by
  intro j q hq hname
  obtain rfl := hy j (hname.trans (hnames j q hq))
  have hj : j < params.length := hp.length_eq ▸ (List.getElem?_eq_some_iff.mp hq).1
  have hk : params[j]? = some params[j] := List.getElem?_eq_getElem hj
  have hcopy : c.copy source params[j] = .ok (h, c') := by
    rw [Recipe.place, Supplies.param] at hplace
    simpa only [hk] using hplace
  obtain ⟨-, hfaithful, himage⟩ := Copying.copy_spec hcopy hc.faithful
  obtain ⟨m, hm, hstore, -⟩ := hfaithful.copied himage List.not_mem_nil
  obtain ⟨t, v, as, hprim⟩ := hp.primitive _ (List.getElem_mem hj)
  rw [hprim] at hm
  cases hm
  exact ⟨params[j], _, hk, hprim, hstore⟩

theorem passes_placeAll {rs : List Recipe} {ys : List String} (hys : List.Forall₂ Recipe.Operand ys rs)
    (hrs : ∀ r ∈ rs, r.Grounded roots.length) {hs : List Handle}
    (hplace : Recipe.placeAll { source, params, roots } rs c = .ok (hs, c')) :
    List.Forall₂ (p.Passes source params c'.store) hs ys := by
  induction hys generalizing c hs with
  | nil =>
    cases hplace
    exact .nil
  | @cons y r ys rs hy _ ih =>
    have hcomplete : Supplies.Complete { source, params, roots } := ⟨_, hp.closedOn, fun h hh => hh⟩
    obtain ⟨h, c₁, h₁, -, hc₁, -⟩ := Recipe.exists_place hcomplete ((hrs r List.mem_cons_self).assembles hcomplete) hc
    have hrest : ∀ r ∈ rs, r.Grounded roots.length := fun q hq => hrs q (List.mem_cons_of_mem _ hq)
    obtain ⟨hs', c₂, h₂, hg₂, -, -⟩ :=
      Recipe.exists_placeAll hcomplete (fun q hq => (hrest q hq).assembles hcomplete) hc₁
    have hboth : Recipe.placeAll { source, params, roots } (r :: rs) c = .ok (h :: hs', c₂) := by
      rw [Recipe.placeAll]
      exact bind_eq_ok.mpr ⟨_, h₁, bind_eq_ok.mpr ⟨_, h₂, rfl⟩⟩
    rw [hboth] at hplace
    cases hplace
    exact .cons ((passes_place hp hnames hc hy h₁).mono fun k x hk => hg₂.store.get?_some hk) (ih hc₁ hrest h₂)

/-- The model of a recipe lists the calls on its local. -/
theorem replays_model {r : Recipe} {x : String} {ss : List Stmt} (hby : r.MadeBy x ss)
    (hr : r.Grounded roots.length) {m : Model} (hm : r.model { source, params, roots } c = .ok (m, c')) :
    ∃ made changed, ss = made ++ changed ∧
      List.Forall₂ (p.Replays source params c'.store (.making x)) m.creation.toList made ∧
      List.Forall₂ (p.Replays source params c'.store (.invoke x)) m.changes changed := by
  induction hr generalizing ss c' m with
  | null y t =>
    cases hm
    exact ⟨[], [], hby, .nil, .nil⟩
  | create y method hargs =>
    obtain ⟨ys, rfl, hys⟩ := hby
    rw [Recipe.model] at hm
    obtain ⟨⟨hs, c₁⟩, hplace, hm⟩ := bind_eq_ok.mp hm
    cases hm
    exact ⟨[.making x method ys], [], rfl, .cons ⟨ys, rfl, passes_placeAll hp hnames hc hys hargs hplace⟩ .nil, .nil⟩
  | @change y method r args hr hargs ih _ =>
    obtain ⟨ss', ys, rfl, hby, hys⟩ := hby
    rw [Recipe.model] at hm
    obtain ⟨⟨receiver, c₁⟩, hreceiver, hm⟩ := bind_eq_ok.mp hm
    obtain ⟨⟨hs, c₂⟩, hplace, hm⟩ := bind_eq_ok.mp hm
    cases hm
    have hcomplete : Supplies.Complete { source, params, roots } := ⟨_, hp.closedOn, fun h hh => hh⟩
    obtain ⟨_, _, hreceiver', -, hc₁, -⟩ := hr.assembles hcomplete hc
    rw [hreceiver] at hreceiver'
    cases hreceiver'
    obtain ⟨_, _, hplace', hg, -⟩ :=
      Recipe.exists_placeAll hcomplete (fun q hq => (hargs q hq).assembles hcomplete) hc₁
    rw [hplace] at hplace'
    cases hplace'
    have hkept : ∀ (k : Handle) (x : Model), c₁.store.get? k = some x → c'.store.get? k = some x :=
      fun k x hk => hg.store.get?_some hk
    obtain ⟨made, changed, rfl, hmade, hchanged⟩ := ih hby hreceiver
    refine ⟨made, changed ++ [.invoke x method ys], List.append_assoc .., ?_, ?_⟩
    · rw [Recipe.changed_eq]
      exact hmade.imp fun _ _ h => h.mono hkept
    · rw [Recipe.changed_eq]
      refine List.rel_append (hchanged.imp fun _ _ h => h.mono hkept) (.cons ⟨ys, rfl, ?_⟩ .nil)
      exact passes_placeAll hp hnames hc₁ hys hargs hplace
  | _ => exact hby.elim

end Assembling

theorem exists_assembly {supplies : Supplies} {r : Recipe} {x : String} {ss : List Stmt} (hby : r.MadeBy x ss)
    (hne : ∀ y t, r ≠ .null y t) {c c' : Copying} {m : Model} (hm : r.model supplies c = .ok (m, c')) :
    ∃ t, m = .assembly t m.creation m.changes := by
  cases r with
  | null y t => exact absurd rfl (hne y t)
  | create y method args =>
    rw [Recipe.model] at hm
    obtain ⟨_, -, hm⟩ := bind_eq_ok.mp hm
    cases hm
    exact ⟨_, rfl⟩
  | change y method r args =>
    rw [Recipe.model] at hm
    obtain ⟨_, -, hm⟩ := bind_eq_ok.mp hm
    obtain ⟨_, -, hm⟩ := bind_eq_ok.mp hm
    cases hm
    rw [Recipe.changed_eq]
    exact ⟨_, rfl⟩
  | _ => exact hby.elim

end Probe

namespace Draft

/-- The models of a complete draft replay its probe: a root that is made by calls becomes an assembly, and this lists
the calls on the local of the root as they are in the body. -/
theorem assemble_replays {c : Catalog} {targets : Store} {roots : List Handle} {d : Draft} (ha : targets.Acyclic)
    (hreach : Reaches c { targets, roots } d) (hcomplete : d.isComplete = .ok true) (name : String) :
    ∃ p, d.probe name = .ok p ∧ ∀ source params, p.Supplied source params →
      ∃ store handles, p.assemble source params = .ok (store, handles) ∧
        (∀ h : Handle, h.index < store.size → (store.get? h).isSome) ∧ handles.length = roots.length ∧
        ∀ (i : Nat) (h : Handle) (m : Method) (ps : List Plan), roots[i]? = some h → d.plan h = .ok (.call m ps) →
          ∃ k x t creation changes made changed, handles[i]? = some k ∧ p.locals[i]? = some x ∧
            store.get? k = some (.assembly t creation changes) ∧ callsOn p.body x = made ++ changed ∧
            List.Forall₂ (p.Replays source params store (.making x)) creation.toList made ∧
            List.Forall₂ (p.Replays source params store (.invoke x)) changes changed := by
  have hs := (sane_start c targets roots).of_reaches hreach
  obtain ⟨ps, bs, ls, rs, hprobe, -, hcount, hgrounded⟩ := hs.exists_probe ha (hs.ready_of_isComplete ha hcomplete)
  rw [← hcount] at hgrounded
  have hscoped := scoped_probe (hprobe name)
  refine ⟨_, hprobe name, fun source params hp => ?_⟩
  obtain ⟨⟨store, handles⟩, hout, hassembled, hfills⟩ :=
    Probe.exists_assemble (p := ⟨name, ps, bs, ls, rs⟩) hp.closedOn (fun h hh => hh) hgrounded
  have hhandles : handles = (List.range rs.length).map Handle.mk := hassembled.handles_eq
  refine ⟨store, handles, hout, ?_, by simp [hhandles, hcount], ?_⟩
  · exact fun h hh => hassembled.whole.built hh nofun
  · intro i h m ps' hi hplan
    obtain ⟨x, r, hx, hr, hby, hne⟩ := hs.exists_madeBy ha hcomplete (hprobe name) hi hplan
    obtain ⟨_, c₀, model, c₁, hc, hm, hstore, hkept⟩ := hfills i r hr
    obtain ⟨made, changed, hbody, hmade, hchanged⟩ :=
      Probe.replays_model hp hscoped.params hc hby (by simpa using hgrounded r (List.mem_of_getElem? hr)) hm
    obtain ⟨t, ht⟩ := Probe.exists_assembly hby hne hm
    refine ⟨⟨i⟩, x, t, model.creation, model.changes, made, changed, ?_, hx, ht ▸ hstore, hbody, ?_, ?_⟩
    · rw [hhandles, List.getElem?_map, List.getElem?_range (List.getElem?_eq_some_iff.mp hr).1]
      rfl
    · exact hmade.imp fun _ _ h => h.mono hkept
    · exact hchanged.imp fun _ _ h => h.mono hkept

/-- A box is made with one number and then filled with a box that is made with another. -/
theorem assemble_replays_lone :
    let box : Method := .constructor "Box" [.int]
    let fill : Method := .modifier "Box" "fill" [.object "Box"] .void
    let d : Draft :=
      decide { targets := lone, roots := [⟨0⟩] } ⟨0⟩ (.call fill [.call box [.hole .int], .call box [.hole .int]])
    let source : Store := .ofSlots
      [some (.primitive (.param "p1" .int) (.int 5) .empty), some (.primitive (.param "p0" .int) (.int 7) .empty)]
    lone.Acyclic ∧ Reaches boxes { targets := lone, roots := [⟨0⟩] } d ∧ d.isComplete = .ok true ∧
      ∃ p, d.probe "box" = .ok p ∧ p.Supplied source [⟨1⟩, ⟨0⟩] ∧
        callsOn p.body "r0" = [.construct "r0" box ["p0"], .invoke "r0" fill ["r1"]] ∧
        ∃ store k t creation changes made changed, p.assemble source [⟨1⟩, ⟨0⟩] = .ok (store, [k]) ∧
          store.get? k = some (.assembly t creation changes) ∧
          [.construct "r0" box ["p0"], .invoke "r0" fill ["r1"]] = made ++ changed ∧
          List.Forall₂ (p.Replays source [⟨1⟩, ⟨0⟩] store (.making "r0")) creation.toList made ∧
          List.Forall₂ (p.Replays source [⟨1⟩, ⟨0⟩] store (.invoke "r0")) changes changed := by
  intro box fill d source
  have hreach : Reaches boxes { targets := lone, roots := [⟨0⟩] } d :=
    .step (.step (.step .refl rfl (List.mem_of_getElem? (i := 2) rfl)) rfl (List.mem_of_getElem? (i := 1) rfl)) rfl
      (List.mem_of_getElem? (i := 1) rfl)
  obtain ⟨p, hp, hall⟩ := assemble_replays acyclic_lone hreach rfl "box"
  have hshape : (d.probe "box").map (fun p => (p.params, callsOn p.body "r0", p.locals)) =
      .ok ([⟨"p0", .int⟩, ⟨"p1", .int⟩], [.construct "r0" box ["p0"], .invoke "r0" fill ["r1"]], ["r0"]) := by
    decide +kernel
  rw [hp] at hshape
  obtain ⟨hparams, hcalls, hlocals⟩ := by simpa only [Except.map, Except.ok.injEq, Prod.mk.injEq] using hshape
  have hsupplied : p.Supplied source [⟨1⟩, ⟨0⟩] := by
    refine ⟨by rw [hparams]; rfl, fun h hh => ?_⟩
    rcases List.mem_pair.mp hh with rfl | rfl <;> exact ⟨_, _, _, rfl⟩
  obtain ⟨store, handles, hout, -, hcount, hroots⟩ := hall source [⟨1⟩, ⟨0⟩] hsupplied
  obtain ⟨k, x, t, creation, changes, made, changed, hk, hx, hget, hbody, hmade, hchanged⟩ :=
    hroots 0 ⟨0⟩ fill [.call box [.hole .int], .call box [.hole .int]] rfl rfl
  obtain ⟨k', rfl⟩ := List.length_eq_one_iff.mp hcount
  cases hk
  rw [hlocals] at hx
  cases hx
  exact ⟨acyclic_lone, hreach, rfl, p, hp, hsupplied, hcalls, store, k, t, creation, changes, made, changed, hout, hget,
    hcalls.symm.trans hbody, hmade, hchanged⟩

end Draft

end Symex
