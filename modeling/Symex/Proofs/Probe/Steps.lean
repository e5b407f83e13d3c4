import Symex.Probe.Lower
import Symex.Proofs.Data.Outcome

/-!
# What lowering did

Where lowering succeeds, its steps have succeeded: operands are made from left to right and then the statement of the
call is added, a container is allocated once its length is made and then filled entry by entry, and the roots are made
in the order they are given in. Locals and parameters are named by counting, and all names are different.
-/

namespace Symex

namespace Lowering

def localName (k : Nat) : String := "r" ++ toString k

def paramName (i : Nat) : String := "p" ++ toString i

theorem append_toString_inj (base : String) {j k : Nat} (h : base ++ toString j = base ++ toString k) : j = k := by
  have hl := congrArg String.toList h
  rw [String.toList_append, String.toList_append] at hl
  have hdigits := congrArg (Nat.ofDigitChars 10 · 0) (List.append_cancel_left hl)
  simpa [Nat.toString_eq_ofList_toDigits] using hdigits

theorem localName_inj {j k : Nat} (h : localName j = localName k) : j = k := append_toString_inj "r" h

theorem paramName_inj {j k : Nat} (h : paramName j = paramName k) : j = k := append_toString_inj "p" h

theorem paramName_ne_localName (i k : Nat) : paramName i ≠ localName k := by
  intro h
  have hl := congrArg (fun s => s.toList.head?) h
  simp [localName, paramName, String.toList_append] at hl

end Lowering

variable {inside : Handle → Except Fault Lowering.Making} {self : Option Nat} {w w' : Lowering} {x : String}
  {r : Recipe}

namespace Plan

theorem lowerVia_create {m : Method} (hm : m.kind ≠ .modifier) (ps : List Plan) :
    (call m ps).lowerVia inside self w = (lowerAllVia inside ps w >>= fun z => pure (z.2.create m z.1.1 z.1.2)) := by
  cases ps <;> rw [lowerVia, lowerOr, if_neg hm, lowerAllVia]

theorem lowerAllVia_cons {p : Plan} {ps : List Plan} {u : Lowering} {xs : List String} {rs : List Recipe}
    (hp : p.lowerVia inside none w = .ok ((x, r), u)) (hps : lowerAllVia inside ps u = .ok ((xs, rs), w')) :
    lowerAllVia inside (p :: ps) w = .ok ((x :: xs, r :: rs), w') :=
  bind_eq_ok.mpr ⟨_, hp, bind_eq_ok.mpr ⟨_, hps, rfl⟩⟩

theorem lowerVia_change {m : Method} (hm : m.kind = .modifier) {p : Plan} {ps : List Plan} {u v : Lowering}
    {xs : List String} {rs : List Recipe} (hp : p.lowerVia inside none w = .ok ((x, r), u))
    (hps : lowerAllVia inside ps u = .ok ((xs, rs), v)) :
    (call m (p :: ps)).lowerVia inside self w = .ok ((x, .change x m r rs), v.emit (.invoke x m xs)) := by
  rw [lowerVia, lowerOr, if_pos hm]
  exact bind_eq_ok.mpr ⟨_, hp, bind_eq_ok.mpr ⟨_, hps, rfl⟩⟩

/-- The operands are made first. A modifier changes the first of them, any other call makes a new value; a modifier
without receiver gives null. -/
theorem lowerVia_call_cases {m : Method} {ps : List Plan} (h : (call m ps).lowerVia inside self w = .ok ((x, r), w')) :
    (m.kind = .modifier ∧ ps = [] ∧ w.null m.produced = ((x, r), w')) ∨
    (∃ s ys ss u, m.kind = .modifier ∧ lowerAllVia inside ps w = .ok ((x :: ys, s :: ss), u) ∧ r = .change x m s ss ∧
      w' = u.emit (.invoke x m ys)) ∨
    ∃ ys ss u, m.kind ≠ .modifier ∧ lowerAllVia inside ps w = .ok ((ys, ss), u) ∧ u.create m ys ss = ((x, r), w') := by
  by_cases hm : m.kind = .modifier
  · cases ps with
    | nil =>
      rw [lowerVia, lowerOr, if_pos hm] at h
      exact Or.inl ⟨hm, rfl, pure_eq_ok.mp h⟩
    | cons p ps =>
      rw [lowerVia, lowerOr, if_pos hm] at h
      obtain ⟨⟨⟨y, s⟩, u⟩, hp, h⟩ := bind_eq_ok.mp h
      obtain ⟨⟨⟨ys, ss⟩, v⟩, hps, h⟩ := bind_eq_ok.mp h
      cases h
      exact Or.inr (Or.inl ⟨s, ys, ss, v, hm, lowerAllVia_cons hp hps, rfl, rfl⟩)
  · rw [lowerVia_create hm] at h
    obtain ⟨⟨⟨ys, ss⟩, u⟩, hps, h⟩ := bind_eq_ok.mp h
    exact Or.inr (Or.inr ⟨ys, ss, u, hm, hps, pure_eq_ok.mp h⟩)

theorem lowerVia_container_cases {k : ContainerKind} {t : Ty} {n : Handle} {es : List (Handle × Handle)}
    (h : (container k t n es).lowerVia inside self w = .ok ((x, r), w')) :
    ∃ make length lr u rs, inside n = .ok make ∧ make w = .ok ((length, lr), u) ∧ x = (u.allocate self k t length).1 ∧
      (u.allocate self k t length).2.entries inside x es = .ok (rs, w') ∧ r = .container x k t lr rs := by
  rw [lowerVia, lowerOr] at h
  obtain ⟨make, hmake, h⟩ := bind_eq_ok.mp h
  obtain ⟨⟨⟨length, lr⟩, u⟩, hu, h⟩ := bind_eq_ok.mp h
  obtain ⟨⟨rs, v⟩, hrs, h⟩ := bind_eq_ok.mp h
  cases h
  exact ⟨make, length, lr, u, rs, hmake, hu, rfl, hrs, rfl⟩

theorem lowerAllVia_cons_cases {p : Plan} {ps : List Plan} {xs : List String} {rs : List Recipe}
    (h : lowerAllVia inside (p :: ps) w = .ok ((xs, rs), w')) :
    ∃ x r u ys ss, p.lowerVia inside none w = .ok ((x, r), u) ∧ lowerAllVia inside ps u = .ok ((ys, ss), w') ∧
      xs = x :: ys ∧ rs = r :: ss := by
  rw [lowerAllVia, lowerAllOr] at h
  obtain ⟨⟨⟨x, r⟩, u⟩, hp, h⟩ := bind_eq_ok.mp h
  obtain ⟨⟨⟨ys, ss⟩, v⟩, hps, h⟩ := bind_eq_ok.mp h
  cases h
  exact ⟨x, r, u, ys, ss, hp, hps, rfl, rfl⟩

end Plan

theorem Lowering.entries_cons_cases {e : Handle × Handle} {es : List (Handle × Handle)} {rs : List (Recipe × Recipe)}
    (h : w.entries inside x (e :: es) = .ok (rs, w')) :
    ∃ makeKey makeValue key kr u value vr v ss, inside e.1 = .ok makeKey ∧ inside e.2 = .ok makeValue ∧
      makeKey w = .ok ((key, kr), u) ∧ makeValue u = .ok ((value, vr), v) ∧
      (v.emit (.store x key value)).entries inside x es = .ok (ss, w') ∧ rs = (kr, vr) :: ss := by
  obtain ⟨k, v⟩ := e
  rw [entries] at h
  obtain ⟨makeKey, hk, h⟩ := bind_eq_ok.mp h
  obtain ⟨makeValue, hv, h⟩ := bind_eq_ok.mp h
  obtain ⟨⟨⟨key, kr⟩, u⟩, hu, h⟩ := bind_eq_ok.mp h
  obtain ⟨⟨⟨value, vr⟩, v⟩, hv', h⟩ := bind_eq_ok.mp h
  obtain ⟨⟨ss, z⟩, hss, h⟩ := bind_eq_ok.mp h
  cases h
  exact ⟨makeKey, makeValue, key, kr, u, value, vr, v, ss, hk, hv, hu, hv', hss, rfl⟩

namespace Draft

variable {d : Draft}

theorem lowerWithin_eq_ok {n : Nat} {h : Handle} {make : Lowering.Making} (hm : d.lowerWithin n h = .ok make) :
    ∃ k p, n = k + 1 ∧ d.plan h = .ok p ∧ make = p.lowerVia (d.lowerWithin k) none := by
  cases n with
  | zero => cases hm
  | succ k =>
    rw [lowerWithin, lowerWithinOr] at hm
    obtain ⟨p, hp, hm⟩ := bind_eq_ok.mp hm
    exact ⟨k, p, rfl, hp, (pure_eq_ok.mp hm).symm⟩

theorem lowerRoots_cons_cases {e : Nat × Plan} {ps : List (Nat × Plan)} {rs : Table Nat Recipe}
    (h : d.lowerRoots (e :: ps) w = .ok (rs, w')) :
    ∃ x r u ss, e.2.lowerVia (d.lowerWithin d.nesting) (some e.1) w = .ok ((x, r), u) ∧
      d.lowerRoots ps { u with locals := u.locals.set e.1 (some x) } = .ok (ss, w') ∧ rs = ss.insert e.1 r := by
  obtain ⟨i, p⟩ := e
  rw [lowerRoots, lowerRootsOr] at h
  obtain ⟨⟨⟨x, r⟩, u⟩, hu, h⟩ := bind_eq_ok.mp h
  obtain ⟨⟨ss, v⟩, hss, h⟩ := bind_eq_ok.mp h
  cases h
  exact ⟨x, r, u, ss, hu, hss, rfl⟩

theorem probe_eq_ok {name : String} {p : Probe} (h : d.probe name = .ok p) :
    ∃ plans rs w, d.rootPlans = .ok plans ∧
      d.lowerRoots (order plans) { locals := plans.map fun _ => none } = .ok (rs, w) ∧
      p = ⟨name, w.params, w.body, w.locals.filterMap id, (List.range plans.length).filterMap rs.find?⟩ := by
  rw [probe, probeOr] at h
  obtain ⟨plans, hplans, h⟩ := bind_eq_ok.mp h
  obtain ⟨⟨rs, w⟩, hlow, h⟩ := bind_eq_ok.mp h
  exact ⟨plans, rs, w, hplans, hlow, (pure_eq_ok.mp h).symm⟩

end Draft

end Symex
