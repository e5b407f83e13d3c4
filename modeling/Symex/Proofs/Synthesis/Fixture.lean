import Symex.Proofs.Plan.Language
import Symex.Proofs.Solver.Decides
import Symex.Proofs.Synthesis.Accepted
import Symex.Proofs.Synthesis.Wished

/-!
# The demonstration makes its objects

An object with the number zero is made by the constructor, any other one by the constructor and the setter. Both ways
are accepted by the verifier, and nothing is accepted that has fewer calls, so they are what the search finds once the
depth allows for them.
-/

namespace Symex

open Draft (Sane Reaches)

/-! ### Plans of objects -/

namespace Plan

/-- Somewhere the plan is lowered to a recipe that makes an object, for some values of the parameters. -/
def MakesObject (m : Machine) (p : Plan) : Prop :=
  ∃ ps w w' x xs r rs values fs, Lowered (p :: ps) w (x :: xs) (r :: rs) w' ∧ Makes m values r (.object fs)

variable {m : Machine} {p : Plan}

/-- Only calls make objects. -/
theorem MakesObject.count_pos (h : MakesObject m p) : 0 < p.count := by
  obtain ⟨ps, w, w', x, xs, r, rs, values, fs, hlow, hmakes⟩ := h
  cases hlow with
  | hole _ => cases hmakes
  | null _ => cases hmakes
  | create _ _ _ =>
    rw [count]
    omega
  | change _ _ _ =>
    rw [count]
    omega

/-- The receiver of a modifier is an object. -/
theorem MakesObject.receiver {f : Method} {as : List Plan} (hf : f.kind = .modifier)
    (h : MakesObject m (call f (p :: as))) : MakesObject m p := by
  obtain ⟨ps, w, w', x, xs, r, rs, values, fs, hlow, hmakes⟩ := h
  cases hlow with
  | create hcreate _ _ => exact absurd hf hcreate
  | change _ hargs _ =>
    cases hmakes with
    | change hreceiver _ _ _ => exact ⟨_, _, _, _, _, _, _, values, _, hargs, hreceiver⟩

end Plan

namespace Demo

def creator : Method := .constructor className []

def setter : Method := .modifier className "setX" [.int] .void

/-- The plan to call the constructor. -/
def created : Plan := .call creator []

/-- The plan to set the number of what is made by another plan. -/
def altered (p : Plan) : Plan := .call setter [p, .hole .int]

theorem mem_methods {m : Method} (h : m ∈ machine.catalog.methods) : m = creator ∨ m = setter := by
  simpa [machine, Machine.catalog, creator, setter] using h

theorem fits_int {p : Plan} (h : p.Fits machine.catalog .int) : p = .hole .int := by
  generalize ht : Ty.int = t at h
  cases h with
  | null hprim =>
    subst ht
    cases hprim
  | hole => rfl
  | call hm =>
    rcases mem_methods hm with rfl | rfl <;> cases ht

theorem fits_cases {p : Plan} (h : p.Fits machine.catalog (.object className)) :
    p.count = 0 ∨ p = created ∨ ∃ q, q.Fits machine.catalog (.object className) ∧ p = altered q := by
  generalize ht : Ty.object className = t at h
  cases h with
  | null => exact Or.inl rfl
  | hole => exact Or.inl rfl
  | @call m ps hm _ hlen hps =>
    rcases mem_methods hm with rfl | rfl
    · obtain rfl : ps = [] := List.eq_nil_of_length_eq_zero hlen.symm
      exact Or.inr (Or.inl rfl)
    · obtain ⟨q, r, rfl⟩ : ∃ q r, ps = [q, r] := List.length_eq_two.mp hlen.symm
      have hr : r = .hole .int := fits_int (hps (.int, r) (List.mem_cons_of_mem _ List.mem_cons_self))
      refine Or.inr (Or.inr ⟨q, hps (.object className, q) List.mem_cons_self, ?_⟩)
      rw [hr, altered]

theorem count_altered (p : Plan) : (altered p).count = p.count + 1 := by
  simp [altered, Plan.count, Plan.countAll, Nat.add_comm]

/-- The plans that make objects, by the number of their calls. -/
theorem eq_of_makesObject {p : Plan} (hfits : p.Fits machine.catalog (.object className))
    (h : p.MakesObject machine) : p = created ∨ p.count ≠ 1 ∧ (p.count = 2 → p = altered created) := by
  rcases fits_cases hfits with hzero | rfl | ⟨q, hq, rfl⟩
  · have hpos := h.count_pos
    omega
  · exact Or.inl rfl
  · have hq' : q.MakesObject machine := h.receiver rfl
    have hpos := hq'.count_pos
    refine Or.inr ⟨?_, ?_⟩
    · rw [count_altered]
      omega
    · intro hcount
      rw [count_altered] at hcount
      rcases fits_cases hq with hzero | rfl | ⟨q', hfits', rfl⟩
      · omega
      · rfl
      · have hpos' := (hq'.receiver rfl).count_pos
        rw [count_altered] at hcount
        omega

/-! ### Wishes for a number -/

/-- The wish for an object whose number is `v`. -/
def wish (name : String) (v : Int) : Wish where
  name
  cls := className
  atoms := .ofList [.eq (.field (.param name (.object className)) field) (.int v)]
  own := by
    intro a ha
    rw [List.mem_singleton.mp (OrderedSet.mem_ofList.mp ha)]
    exact ⟨.eq, field, v, rfl⟩

theorem asks_wish_iff {name : String} {v n : Int} {r : Relation} {f : Field} :
    (wish name v).Asks r f n ↔ r = .eq ∧ f = field ∧ n = v := by
  have hmem : (wish name v).Asks r f n ↔ (⟨r, .field (.param name (.object className)) f, .int n⟩ : Atom) ∈
      [Atom.eq (.field (.param name (.object className)) field) (.int v)] := OrderedSet.mem_ofList
  rw [hmem]
  simp [Atom.eq, Term.int]

theorem granted_wish_iff {name : String} {v : Int} {fs : List (Field × Item)} :
    (wish name v).Granted fs ↔ fs.lookup field = some (.value (.int v)) := by
  constructor
  · intro h
    obtain ⟨u, hlookup, hu⟩ := h .eq field v (asks_wish_iff.mpr ⟨rfl, rfl, rfl⟩)
    rw [hlookup, eq_of_beq hu]
  · intro h r f n hask
    obtain ⟨rfl, rfl, rfl⟩ := asks_wish_iff.mp hask
    exact ⟨_, h, beq_self_eq_true _⟩

theorem disciplined (v : Int) (name : String) :
    machine.Disciplined (· ∈ [field]) ∧ ∀ r f n, (wish name v).Asks r f n → f ∈ [field] := by
  refine ⟨by decide, ?_⟩
  intro r f n hask
  rw [(asks_wish_iff.mp hask).2.1]
  exact List.mem_singleton_self _

/-! ### What is found -/

/-- An object with the number `v`: it is constructed, and set to `v` unless that is zero. -/
def Made (s : Store) (h : Handle) (v : Int) : Prop :=
  ∃ t changes, s.get? h = some (.assembly t (some ⟨creator, []⟩) changes) ∧
    if v = 0 then changes = []
    else ∃ a u as, changes = [⟨setter, [a]⟩] ∧ s.get? a = some (.primitive u (.int v) as)

/-- The calls that it takes to make an object with the number `v`. -/
def callsFor (v : Int) : Nat := if v = 0 then 1 else 2

def creation : Probe := ⟨"", [], [.construct "r0" creator []], ["r0"], [.create "r0" creator []]⟩

def alteration : Probe :=
  ⟨"", [⟨"p0", .int⟩], [.construct "r0" creator [], .invoke "r0" setter ["p0"]], ["r0"],
    [.change "r0" setter (.create "r0" creator []) [.param 0]]⟩

theorem lowered_created {x : String} {r : Recipe} {u : Lowering}
    (h : Plan.Lowered [created] { locals := [none] } [x] [r] u) (name : String) :
    (⟨name, u.params, u.body, [x], [r]⟩ : Probe) = { creation with name } := by
  cases h with
  | create _ hargs hrest =>
    cases hargs
    cases hrest
    rfl

theorem lowered_altered {x : String} {r : Recipe} {u : Lowering}
    (h : Plan.Lowered [altered created] { locals := [none] } [x] [r] u) (name : String) :
    (⟨name, u.params, u.body, [x], [r]⟩ : Probe) = { alteration with name } := by
  cases h with
  | create hkind _ _ => exact absurd rfl hkind
  | change _ hargs hrest =>
    cases hrest
    cases hargs with
    | create _ hnone hrest =>
      cases hnone
      cases hrest with
      | hole hrest =>
        cases hrest
        rfl

section Found

variable {w : Workshop} {name : String} {v : Int} {found : Store × List Handle} {x : String} {r : Recipe}
  {u : Lowering} {source : Store} {params : List Handle} {values : List Value} {fs : List (Field × Item)}
  (hw : w.machine = machine)

include hw

theorem found_created (h : w.Realizes (wish name v) created found x r u source params values fs) :
    v = 0 ∧ ∃ t, found.1.get? ⟨0⟩ = some (.assembly t (some ⟨creator, []⟩) []) := by
  obtain ⟨probe, hassemble⟩ := h.assembled
  have hprobe := lowered_created h.lowered probe
  have hr : r = .create "r0" creator [] := by
    injection hprobe with _ _ _ _ hrecipes
    exact List.cons.inj hrecipes |>.1
  have hmakes := h.makes
  rw [hr, hw] at hmakes
  refine ⟨?_, ?_⟩
  · cases hmakes with
    | @create _ _ _ items fs hlen _ hperform =>
      obtain rfl : items = [] := List.eq_nil_of_length_eq_zero hlen.symm
      cases hperform
      have hgranted := granted_wish_iff.mp h.granted
      cases hgranted
      rfl
  · obtain ⟨m, c, hmodel, -, hroot, -⟩ := Probe.assemble_single rfl hassemble
    rw [hr] at hmodel
    cases hmodel
    exact ⟨_, hroot⟩

theorem found_altered (h : w.Realizes (wish name v) (altered created) found x r u source params values fs) :
    ∃ t a b as, found.1.get? ⟨0⟩ = some (.assembly t (some ⟨creator, []⟩) [⟨setter, [a]⟩]) ∧
      found.1.get? a = some (.primitive b (.int v) as) := by
  obtain ⟨probe, hassemble⟩ := h.assembled
  have hprobe := lowered_altered h.lowered probe
  have hr : r = .change "r0" setter (.create "r0" creator []) [.param 0] := by
    injection hprobe with _ _ _ _ hrecipes
    exact List.cons.inj hrecipes |>.1
  have hmakes := h.makes
  rw [hr, hw] at hmakes
  -- The argument is what the field is set to, so it is the number that is wished for.
  have hvalue : values[0]? = some (.int v) := by
    cases hmakes with
    | @change _ _ _ _ items _ _ _ hlen hargs hperform =>
      obtain ⟨item, rfl⟩ : ∃ item, items = [item] := List.length_eq_one_iff.mp hlen.symm
      have harg := hargs (.param 0, item) List.mem_cons_self
      cases harg with
      | @param _ value hvalue =>
        cases hperform
        have hgranted := granted_wish_iff.mp h.granted
        cases hgranted
        exact hvalue
  obtain ⟨m, c, hmodel, -, hroot, hkept⟩ := Probe.assemble_single rfl hassemble
  rw [hr] at hmodel
  obtain ⟨⟨receiver, c₁⟩, hreceiver, hmodel⟩ := bind_eq_ok.mp hmodel
  cases hreceiver
  obtain ⟨⟨hs, c₂⟩, hall, hend⟩ := bind_eq_ok.mp hmodel
  cases hend
  obtain ⟨⟨a, c₃⟩, hplace, hall⟩ := bind_eq_ok.mp hall
  cases hall
  obtain ⟨-, -, b, as, hprimitive⟩ :=
    Makes.param_spec h.gives hvalue (Copying.faithful_of_no_images source _) hplace
  exact ⟨_, a, b, as, hroot, hkept hprimitive⟩

end Found

section Drafts

variable {targets : Store} {h : Handle} {name : String} {v : Int} (hg : targets.get? h = some (target name v))
  {d : Draft} (hs : Sane machine.catalog targets [h] d)

include hg hs

/-- An object with the number `v` takes so many calls, and with no more it is made in one way. -/
theorem found_of_verify {w : Workshop} (hw : w.machine = machine) {verifier verifier' : Verifier}
    {found : Store × List Handle} (hv : w.verify d none verifier = .ok (some found, verifier')) :
    ∃ plan, d.plan h = .ok plan ∧ callsFor v ≤ plan.count ∧ (plan.count = callsFor v → Made found.1 ⟨0⟩ v) := by
  obtain ⟨hdisciplined, hfields⟩ := disciplined v name
  obtain ⟨plan, x, r, u, source, params, values, fs, hplan, hfits, hreal⟩ :=
    Workshop.verify_realizes (q := wish name v) (hw ▸ hdisciplined) hfields (fun m hm => hw ▸ hm) hs hg hv
  refine ⟨plan, hplan, ?_⟩
  have hobject : plan.MakesObject machine := ⟨_, _, _, _, _, _, _, values, fs, hreal.lowered, hw ▸ hreal.makes⟩
  have hpos := hobject.count_pos
  rcases eq_of_makesObject hfits hobject with rfl | ⟨hne, htwo⟩
  · obtain ⟨rfl, t, hget⟩ := found_created hw hreal
    exact ⟨Nat.le_refl _, fun _ => ⟨t, [], hget, rfl⟩⟩
  · unfold callsFor
    split
    next hv => exact ⟨by omega, fun hcount => by omega⟩
    next hv =>
      refine ⟨by omega, fun hcount => ?_⟩
      obtain rfl := htwo hcount
      obtain ⟨t, a, b, as, hget, harg⟩ := found_altered hw hreal
      refine ⟨t, _, hget, ?_⟩
      rw [if_neg hv]
      exact ⟨a, b, as, rfl, harg⟩

end Drafts

/-! ### What is accepted -/

/-- The object that the probes make. -/
def object : Term := .localVar "r0" (.object className)

/-- Values with which the object is there and every parameter has the number `v`. -/
def valued (v : Int) : Term → Value
  | .const c => c
  | .localVar _ _ => .addr ⟨1⟩
  | _ => .int v

section Solver

variable {v : Int} {written : Term} {as : List Atom}
  (hwritten : written = .int v ∨ written = .param "p0" .int)
  (has : ∀ a ∈ as, a = .ne object .null ∨ a = .eq written (.int v))

include hwritten has

theorem mem_termsOf_wanted {t : Term} (ht : t ∈ Solver.termsOf as) :
    t = object ∨ t.isConst = true ∨ t = .param "p0" .int ∧ .eq t (.int v) ∈ as := by
  obtain ⟨a, ha, hta⟩ := Solver.mem_termsOf.mp ht
  rcases has a ha with rfl | rfl
  · rcases List.mem_append.mp hta with hta | hta
    · exact Or.inl (List.mem_singleton.mp hta)
    · rw [List.mem_singleton.mp hta]
      exact Or.inr (Or.inl rfl)
  · rcases List.mem_append.mp hta with hta | hta
    · rcases hwritten with rfl | rfl
      · rw [List.mem_singleton.mp hta]
        exact Or.inr (Or.inl rfl)
      · rw [List.mem_singleton.mp hta]
        exact Or.inr (Or.inr ⟨rfl, ha⟩)
    · rw [List.mem_singleton.mp hta]
      exact Or.inr (Or.inl rfl)

/-- That the object is there and has the number `v` can be satisfied. -/
theorem solve_wanted {limit : Nat} (hlimit : 1 ≤ limit) : (Solver.solve limit as).isSome := by
  have hrel : ∀ a ∈ as, a.relation = .eq ∨ a.relation = .ne := by
    intro a ha
    rcases has a ha with rfl | rfl
    · exact Or.inr rfl
    · exact Or.inl rfl
  have hpinned : Solver.Pinned as := by
    intro t ht
    have hself : (Solver.Classes.ofAtoms as).Same t t := by
      obtain ⟨l, hl⟩ := Solver.Classes.exists_label ht
      exact ⟨l, hl, hl⟩
    rcases mem_termsOf_wanted hwritten has ht with rfl | hconst | ⟨-, heq⟩
    · exact ⟨object, hself, Or.inr rfl⟩
    · exact ⟨t, hself, Or.inl hconst⟩
    · exact ⟨.int v, Solver.Classes.same_of_eq heq rfl, Or.inl rfl⟩
  -- Nothing is read, so that only the atoms have to be true.
  have hread : ∀ t ∈ Solver.termsOf as,
      (∀ b f, t ≠ .field b f) ∧ (∀ a i s, t ≠ .element a i s) ∧ ∀ a, t ≠ .length a := by
    intro t ht
    rcases mem_termsOf_wanted hwritten has ht with rfl | hconst | ⟨rfl, -⟩
    · exact ⟨nofun, nofun, nofun⟩
    · cases t with
      | const => exact ⟨nofun, nofun, nofun⟩
      | _ => cases hconst
    · exact ⟨nofun, nofun, nofun⟩
  refine (Solver.solve_isSome_iff hlimit hrel hpinned).mpr ⟨valued v, fun _ => rfl, ?_, ?_, ?_, ?_⟩
  · intro a ha
    rcases has a ha with rfl | rfl
    · rfl
    · rcases hwritten with rfl | rfl <;> exact beq_self_eq_true (Value.int v)
  · exact fun ht => absurd rfl ((hread _ ht).1 _ _)
  · exact fun ht => absurd rfl ((hread _ ht).2.1 _ _ _)
  · exact fun ht => absurd rfl ((hread _ ht).2.2 _)

end Solver

/-- A probe runs on a line, and in the end its object is in the local, with `written` in its field. -/
structure Ended (p : Probe) (n : Nat) (s : State) (written : Term) : Prop where
  line : ∀ visit : State → Ends → Except Fault (Ends × Bool), Explore.Setup.Line
    { limit := Solver.defaultLimit, step := machine.step p, visit } 1 n (Machine.enter p 0) s
  returned : s.status = .returned
  bound : s.find? "r0" = some (.ref object none)
  hard : s.path.hard = [.ne object .null]
  last : s.memory.lastField object field = some written

/-- The state after the constructor. -/
def afterCreator (p : Probe) : State := (machine.step p 1 (Machine.enter p 0)).1.headD {}

/-- The state after the setter. -/
def afterSetter : State := (machine.step alteration 2 { afterCreator alteration with pending := false }).1.headD {}

theorem feasible_of_hard {p : Path} (h : p.hard = [.ne object .null]) :
    Solver.feasible Solver.defaultLimit p = true := by
  rw [Solver.feasible, Solver.check_hard, h]
  exact solve_wanted (v := 0) (Or.inl rfl) (fun a ha => Or.inl (List.mem_singleton.mp ha)) (by decide)

theorem ended_creation : Ended creation 1 { afterCreator creation with pending := false } (.int 0) := by
  refine ⟨fun visit => .step nofun rfl (t := afterCreator creation) rfl ?_, rfl, rfl, rfl, rfl⟩
  exact .stop (fun _ => feasible_of_hard rfl) rfl

theorem ended_alteration : Ended alteration 2 { afterSetter with pending := false } (.param "p0" .int) := by
  refine ⟨fun visit => .step nofun rfl (t := afterCreator alteration) rfl ?_, rfl, rfl, rfl, rfl⟩
  refine .step (fun _ => feasible_of_hard rfl) rfl (t := afterSetter) rfl ?_
  exact .stop (fun _ => feasible_of_hard rfl) rfl

/-- What a goal asks for at the end of a probe: that the object is there, and what was written is the number. -/
theorem Ended.exists_atoms {p : Probe} {n : Nat} {s : State} {written : Term} (h : Ended p n s written)
    {targets : Store} {root : Handle} {name : String} {v : Int} (hg : targets.get? root = some (target name v)) :
    ∃ atoms, Goal.atoms ⟨targets, [root], ["r0"]⟩ s = .ok (some atoms) ∧
      ∀ a ∈ atoms, a = .ne object .null ∨ a = .eq written (.int v) := by
  refine ⟨_, Goal.atoms_single hg h.bound rfl, ?_⟩
  intro a ha
  obtain ⟨b, hb, rfl⟩ := List.mem_map.mp ha
  rcases List.mem_cons.mp hb with rfl | hb
  · exact Or.inl rfl
  · obtain ⟨e, he, rfl⟩ := List.mem_map.mp hb
    have hasked : e ∈ (wish name v).atoms.toList := he
    rw [List.mem_singleton.mp (OrderedSet.mem_ofList.mp hasked)]
    exact Or.inr (Goal.readAtom_field h.last .eq v)

section Accepts

variable {targets : Store} {h : Handle} {name : String} {v : Int} (hg : targets.get? h = some (target name v))
  {d : Draft} (hs : Sane machine.catalog targets [h] d)

include hg hs

/-- A draft is accepted if its probe runs to an end at which the number is written. -/
theorem accepts_of_ended {plan : Plan} (hplan : d.plan h = .ok plan) (hholes : plan.holes = 0) {p : Probe}
    (hlowered : ∀ {x r u}, Plan.Lowered [plan] { locals := [none] } [x] [r] u →
      ∀ name, (⟨name, u.params, u.body, [x], [r]⟩ : Probe) = { p with name })
    (hlocals : p.locals = ["r0"]) {n : Nat} (hn : n ≤ 2) {s : State} {written : Term} (hend : Ended p n s written)
    (hwritten : written = .int v ∨ written = .param "p0" .int) : Synthesizer.Accepts { machine } d := by
  obtain ⟨plan', x, r, u, hplan', -, hcomplete, hlow, hprobe⟩ := hs.lowered_object hg
  rw [hplan] at hplan'
  cases hplan'
  rw [hholes] at hcomplete
  have hsame := hlowered hlow
  have hrecipes : p.recipes = [r] := (congrArg Probe.recipes (hsame "")).symm
  obtain ⟨atoms, hatoms, hasked⟩ := hend.exists_atoms hg
  refine Workshop.accepts_of_line hs (Draft.ready_object hg) (Draft.measured_object hg) (p := p) hcomplete
    (fun name => (hprobe name).trans (congrArg _ (hsame name))) (by rw [hlocals]; rfl) ?_
    (hend.line _) (hn.trans (by decide)) hend.returned (by rw [hlocals]; exact hatoms) ?_
  · rw [hrecipes]
    exact hlow.grounded 1
  · refine solve_wanted hwritten ?_ (by decide)
    intro a ha
    rcases Path.mem_foldl_addHard.mp ha with ha | ha
    · rw [hend.hard] at ha
      exact Or.inl (List.mem_singleton.mp ha)
    · exact hasked a ha

end Accepts

theorem closed_created : created.Closed Plan.Nullable machine.catalog (.object className) :=
  .call ⟨List.mem_cons_self, className, rfl, rfl⟩ rfl nofun

theorem closed_altered : (altered created).Closed Plan.Nullable machine.catalog (.object className) := by
  refine .call ⟨List.mem_cons_of_mem _ List.mem_cons_self, className, rfl, rfl⟩ rfl ?_
  exact List.forall_mem_cons.mpr ⟨closed_created, List.forall_mem_cons.mpr ⟨.hole rfl, nofun⟩⟩

section Search

variable {targets : Store} (ha : targets.Acyclic) (hl : targets.PrimitiveLengths) {h : Handle} {name : String}
  {v : Int} (hg : targets.get? h = some (target name v))

include ha hl hg

theorem exists_draft {plan : Plan} (hclosed : plan.Closed Plan.Nullable machine.catalog (.object className)) :
    ∃ d, Reaches machine.catalog { targets, roots := [h] } d ∧ Sane machine.catalog targets [h] d ∧
      d.plan h = .ok plan := by
  have hs := Draft.sane_start machine.catalog targets [h]
  have hsuggested := Draft.suggested_object hg [h]
  have hleaves : [h].flatMap targets.leaves = [] ++ h :: [] := Draft.leaves_object hg
  obtain ⟨d, hreach, hplan, -⟩ := hs.exists_reaches_of_derives ha hl (Draft.ready_object hg) hleaves nofun nofun
    (Draft.planAt_of_find?_eq_none rfl hsuggested) hclosed.derives.1
  have hsane := hs.of_reaches hreach
  rw [← hsane.suggested_eq] at hsuggested
  exact ⟨d, hreach, hsane, (Draft.plan_of_suggested hsuggested).trans (congrArg _ hplan)⟩

/-- There is a draft that is accepted, with as many calls as it takes. -/
theorem exists_accepted : ∃ d, Reaches machine.catalog { targets, roots := [h] } d ∧
    Synthesizer.Accepts { machine } d ∧ d.cost = callsFor v := by
  by_cases hv : v = 0
  · obtain ⟨d, hreach, hs, hplan⟩ := exists_draft ha hl hg closed_created
    have haccepts := accepts_of_ended hg hs hplan (Plan.closed_iff_derives.mp closed_created).2 lowered_created rfl
      (by decide) ended_creation (Or.inl (by rw [hv]))
    refine ⟨d, hreach, haccepts, ?_⟩
    rw [hs.cost_object hg hplan, callsFor, if_pos hv]
    rfl
  · obtain ⟨d, hreach, hs, hplan⟩ := exists_draft ha hl hg closed_altered
    have haccepts := accepts_of_ended hg hs hplan (Plan.closed_iff_derives.mp closed_altered).2 lowered_altered rfl
      (by decide) ended_alteration (Or.inr rfl)
    refine ⟨d, hreach, haccepts, ?_⟩
    rw [hs.cost_object hg hplan, callsFor, if_neg hv]
    rfl

/-- No more drafts are looked at for one object. -/
def drafts (depth : Nat) : Nat :=
  (machine.catalog.breadth + 1) ^ (1 + (machine.catalog.width + 1) * depth)

/-- Time that is enough for one object. -/
def enough (depth : Nat) : Nat := drafts depth * (({ machine } : Workshop).allowance + 1)

omit ha hl in
theorem weight_start (depth : Nat) : Draft.weight machine.catalog depth { targets, roots := [h] } = drafts depth := by
  have hplan : Draft.planAt { targets, roots := [h] } h = .hole (.object className) :=
    Draft.planAt_of_find?_eq_none rfl (Draft.suggested_object hg [h])
  have hcost : Draft.cost { targets, roots := [h] } = 0 := by
    rw [Draft.cost, Draft.leaves_object hg, List.map_singleton, List.sum_singleton, hplan]
    rfl
  have hopen : Draft.openHoles { targets, roots := [h] } = 1 := by
    rw [Draft.openHoles, Draft.leaves_object hg, List.map_singleton, List.sum_singleton, hplan]
    rfl
  rw [Draft.weight, Draft.potential, hcost, hopen, Nat.sub_zero, drafts]

/-- The search finds an object exactly if the depth allows for the calls that it takes. -/
theorem found_of_finds {depth time used : Nat} (htime : enough depth < time) {answer : Option (Store × List Handle)}
    (hfinds : Synthesizer.Finds { machine } machine.catalog targets [h] depth time answer used) :
    (callsFor v ≤ depth → ∃ out, answer = some out ∧ Made out.1 ⟨0⟩ v) ∧ (depth < callsFor v → answer = none) := by
  obtain ⟨e, hreach, haccepts, hcost⟩ := exists_accepted ha hl hg
  obtain ⟨hnone, hsome⟩ := hfinds.fewest ha hl (Draft.ready_object hg) (weight_start hg depth ▸ htime)
  have hmade : ∀ out, answer = some out → callsFor v ≤ depth ∧ Made out.1 ⟨0⟩ v := by
    intro out hout
    obtain ⟨d, u, u', hd, hdepth, hverify, hleast⟩ := hsome out hout
    have hs := (Draft.sane_start machine.catalog targets [h]).of_reaches hd
    obtain ⟨plan, hplan, hle, hshape⟩ := found_of_verify hg hs rfl hverify
    have hleast := hleast e hreach haccepts
    rw [hs.cost_object hg hplan] at hdepth hleast
    exact ⟨hle.trans hdepth, hshape (by omega)⟩
  refine ⟨?_, ?_⟩
  · intro hdepth
    cases answer with
    | none => exact absurd haccepts (hnone rfl e hreach (hcost ▸ hdepth))
    | some out => exact ⟨out, rfl, (hmade out rfl).2⟩
  · intro hdepth
    rw [Option.eq_none_iff_forall_ne_some]
    intro out hout
    have hle := (hmade out hout).1
    omega

end Search

/-! ### The result -/

/-- What is copied is made in the same way. -/
theorem Made.adopted {out : Store × List Handle} {x k : Handle} {v : Int} (h : Made out.1 x v) {cluster : List Nat}
    {base : Nat} {c : Copying} {r : Synthesized} (hadopts : r.Adopts out cluster base c)
    (hk : c.images.find? x = some k) : Made r.store k v := by
  obtain ⟨t, changes, hget, hchanges⟩ := h
  refine ⟨t, _, hadopts.get?_image hk hget, ?_⟩
  by_cases hv : v = 0
  · rw [if_pos hv] at hchanges ⊢
    rw [hchanges]
    rfl
  · rw [if_neg hv] at hchanges ⊢
    obtain ⟨a, u, as, rfl, harg⟩ := hchanges
    obtain ⟨m, hm, -, hchildren⟩ := hadopts.faithful.copied hk List.not_mem_nil
    rw [hget] at hm
    cases hm
    obtain ⟨b, hb⟩ := Option.isSome_iff_exists.mp (hchildren a List.mem_cons_self)
    refine ⟨b, u, as, ?_, hadopts.get?_image hb harg⟩
    rw [← Copying.image_of_find? hb]
    rfl

/-- The targets for some numbers, by the names of parameters. -/
def fixture (wanted : List (String × Int)) : Store := .ofSlots (wanted.map fun e => some (target e.1 e.2))

section Result

variable (wanted : List (String × Int))

theorem get?_fixture (h : Handle) : (fixture wanted).get? h = wanted[h.index]?.map fun e => target e.1 e.2 := by
  rw [fixture, Store.ofSlots, Store.get?, Array.getD_eq_getD_getElem?, List.getElem?_toArray, List.getElem?_map]
  cases wanted[h.index]? <;> rfl

theorem not_container_fixture (h : Handle) (k : ContainerKind) (b : Container) :
    (fixture wanted).get? h ≠ some (.container k b) := by
  rw [get?_fixture]
  cases wanted[h.index]? <;> exact nofun

theorem acyclic_fixture : (fixture wanted).Acyclic := by
  apply Store.acyclic_of_index_lt
  rintro a b ⟨k, c, hg, -⟩
  exact absurd hg (not_container_fixture wanted a k c)

theorem primitiveLengths_fixture : (fixture wanted).PrimitiveLengths :=
  fun hg => absurd hg (not_container_fixture wanted _ _ _)

theorem forall₂_fixture :
    List.Forall₂ (fun h (q : Wish) => (fixture wanted).get? h = some q.model)
      ((List.range wanted.length).map Handle.mk) (wanted.map fun e => wish e.1 e.2) := by
  rw [List.forall₂_map_left_iff, List.forall₂_map_right_iff, List.forall₂_iff_get]
  refine ⟨List.length_range, ?_⟩
  intro i _ hi
  rw [get?_fixture, List.get_eq_getElem, List.get_eq_getElem, List.getElem_range, List.getElem?_eq_getElem hi]
  rfl

theorem nodup_terms {wanted : List (String × Int)} (hnames : (wanted.map Prod.fst).Nodup) :
    ((wanted.map fun e => wish e.1 e.2).map Wish.term).Nodup := by
  have hterms : (wanted.map fun e => wish e.1 e.2).map Wish.term =
      (wanted.map Prod.fst).map fun name => .param name (.object className) := by
    rw [List.map_map, List.map_map]
    rfl
  rw [hterms]
  exact hnames.map fun a b hab => by cases hab; rfl

end Result

/-- The demonstration makes every object that the depth allows for: with no call none, with one call those with the
number zero, and with two calls all. It counts an attempt for each, and a success for each that is made. The time that
it takes for all of them is bounded by their number. -/
theorem synthesizeWithin_fixture (depth : Nat) : ∃ bound, ∀ (wanted : List (String × Int)) (time : Nat),
    (wanted.map Prod.fst).Nodup → bound * wanted.length ≤ time → ∃ s r,
      (synthesizer {} Solver.defaultLimit).synthesizeWithin (fixture wanted) ((List.range wanted.length).map Handle.mk)
        depth time = .ok (s, r) ∧
      r.models.length = wanted.length ∧ s.attempts = wanted.length ∧ s.successes = r.models.countP Option.isSome ∧
      ∀ (i : Nat) (name : String) (v : Int), wanted[i]? = some (name, v) →
        (callsFor v ≤ depth → ∃ h, r.models[i]? = some (some h) ∧ Made r.store h v) ∧
        (depth < callsFor v → r.models[i]? = some none) := by
  refine ⟨enough depth + 1, ?_⟩
  intro wanted time hnames htime
  have hlen : ((List.range wanted.length).map Handle.mk).length = wanted.length := by
    rw [List.length_map, List.length_range]
  have hroot : ∀ {i : Nat}, i < wanted.length → ((List.range wanted.length).map Handle.mk)[i]? = some ⟨i⟩ := by
    intro i hi
    rw [List.getElem?_map, List.getElem?_range hi]
    rfl
  have hg : ∀ {i : Nat} {name : String} {v : Int}, wanted[i]? = some (name, v) →
      (fixture wanted).get? ⟨i⟩ = some (target name v) := by
    intro i name v hi
    rw [get?_fixture, hi]
    rfl
  have hbound : ∀ h ∈ (List.range wanted.length).map Handle.mk, ∀ t answer used,
      Synthesizer.Finds { machine } machine.catalog (fixture wanted) [h] depth t answer used → used ≤ enough depth := by
    intro h hh t answer used hfinds
    obtain ⟨i, hi, rfl⟩ := List.mem_map.mp hh
    have htarget := hg (List.getElem?_eq_getElem (List.mem_range.mp hi))
    have hle := hfinds.used_le_weight (acyclic_fixture wanted) (primitiveLengths_fixture wanted)
      (Draft.ready_object htarget)
    rwa [weight_start htarget] at hle
  obtain ⟨s, r, hsynth, hmodels, hattempts, hsuccesses, hsettled⟩ :=
    (synthesizer {} Solver.defaultLimit).exists_synthesizeWithin_wishes (forall₂_fixture wanted) depth rfl
      (nodup_terms hnames) hbound (hlen.symm ▸ htime)
  rw [hlen] at hmodels hattempts
  refine ⟨s, r, hsynth, hmodels, hattempts.trans (Nat.zero_add _), hsuccesses.trans (Nat.zero_add _), ?_⟩
  intro i name v hi
  have hlt : i < wanted.length := (List.getElem?_eq_some_iff.mp hi).1
  obtain ⟨t, answer, used, ht, hfinds, hout, hsettles⟩ := hsettled i ⟨i⟩ (hroot hlt)
  obtain ⟨hsome, hnone⟩ := found_of_finds (acyclic_fixture wanted) (primitiveLengths_fixture wanted) (hg hi) ht hfinds
  refine ⟨?_, ?_⟩
  · intro hdepth
    obtain ⟨out, rfl, hmade⟩ := hsome hdepth
    obtain ⟨base, c, hadopts⟩ := hsettles
    obtain ⟨k, hk, hmodel⟩ := hadopts.exists_single (hout out rfl)
    exact ⟨k, hmodel, hmade.adopted hadopts hk⟩
  · intro hdepth
    rw [hnone hdepth] at hsettles
    exact hsettles i List.mem_cons_self

/-- One call is enough for the object with zero, and not for the others. -/
theorem synthesizeWithin_fixture_zero : ∃ bound, ∀ time, bound ≤ time → ∃ s r h,
    (synthesizer {} Solver.defaultLimit).synthesizeWithin (fixture [("p0", 0), ("p1", 7), ("p2", -3)])
      [⟨0⟩, ⟨1⟩, ⟨2⟩] 1 time = .ok (s, r) ∧
    r.models = [some h, none, none] ∧ Made r.store h 0 ∧ s.attempts = 3 ∧ s.successes = 1 := by
  obtain ⟨bound, hall⟩ := synthesizeWithin_fixture 1
  refine ⟨bound * 3, ?_⟩
  intro time htime
  obtain ⟨s, r, hsynth, hlen, hattempts, hsuccesses, hmodels⟩ :=
    hall [("p0", 0), ("p1", 7), ("p2", -3)] time (by decide) htime
  obtain ⟨h, hzero, hmade⟩ := (hmodels 0 "p0" 0 rfl).1 (by decide)
  have hseven := (hmodels 1 "p1" 7 rfl).2 (by decide)
  have hthree := (hmodels 2 "p2" (-3) rfl).2 (by decide)
  obtain ⟨a, b, c, habc⟩ := List.length_eq_three.mp hlen
  rw [habc] at hzero hseven hthree hsuccesses
  cases hzero
  cases hseven
  cases hthree
  exact ⟨s, r, h, hsynth, habc, hmade, hattempts, hsuccesses⟩

end Demo

end Symex
