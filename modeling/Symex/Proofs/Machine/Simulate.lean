import Symex.Proofs.Machine.Replay
import Symex.Proofs.Machine.Trace

/-!
# Runs against replays

A run of the statements of a plan assumes what the tests ask for and remembers what is written. If an assignment
satisfies what it assumes, then the recipe of the plan can be replayed with the values that the assignment gives to the
parameters, and an object has in its fields what the terms denote that were written to them last.

This needs tests to be about numbers, and the fields that matter to be written by every constructor and only with
numbers.
-/

namespace Symex

def Effect.field? : Effect → Option Field
  | copyArg f _ => some f
  | setConst f _ => some f
  | require .. => none

/-- A test is about a number, and a field that matters gets a number. -/
def Effect.Numeric (method : Method) (fields : Field → Prop) : Effect → Prop
  | copyArg f i => fields f → method.params[i]? = some .int
  | setConst .. => True
  | require i _ _ => method.params[i]? = some .int

/-- Methods have names of their own, test numbers only, and write only numbers to the fields that matter, which every
constructor and factory does. -/
structure Machine.Disciplined (m : Machine) (fields : Field → Prop) : Prop where
  ids : (m.methods.map fun e => e.1.id).Nodup
  numeric : ∀ e ∈ m.methods, ∀ x ∈ e.2, x.Numeric e.1 fields
  writes : ∀ e ∈ m.methods, e.1.kind ≠ .modifier → ∀ f, fields f → ∃ x ∈ e.2, x.field? = some f

instance (method : Method) (fs : List Field) : DecidablePred (Effect.Numeric method (· ∈ fs))
  | .copyArg f i => inferInstanceAs (Decidable (f ∈ fs → method.params[i]? = some .int))
  | .setConst .. => isTrue trivial
  | .require i _ _ => inferInstanceAs (Decidable (method.params[i]? = some .int))

instance (m : Machine) (fs : List Field) : Decidable (m.Disciplined (· ∈ fs)) :=
  decidable_of_iff ((m.methods.map fun e => e.1.id).Nodup ∧ (∀ e ∈ m.methods, ∀ x ∈ e.2, x.Numeric e.1 (· ∈ fs)) ∧
      ∀ e ∈ m.methods, e.1.kind ≠ .modifier → ∀ f ∈ fs, ∃ x ∈ e.2, x.field? = some f)
    ⟨fun h => ⟨h.1, h.2.1, h.2.2⟩, fun h => ⟨h.ids, h.numeric, h.writes⟩⟩

theorem Machine.Disciplined.mono {m : Machine} {fields fields' : Field → Prop} (hm : m.Disciplined fields)
    (h : ∀ f, fields' f → fields f) : m.Disciplined fields' := by
  refine ⟨hm.ids, ?_, fun e he hk f hf => hm.writes e he hk f (h f hf)⟩
  intro e he x hx
  have hnum := hm.numeric e he x hx
  cases x with
  | copyArg f i => exact fun hf => hnum (h f hf)
  | setConst f n => trivial
  | require i r n => exact hnum

theorem Machine.Disciplined.mem_of_effects {m : Machine} {fields : Field → Prop} (hm : m.Disciplined fields)
    {method : Method} (hc : method ∈ m.catalog.methods) {es : List Effect} (he : m.effects? method = some es) :
    (method, es) ∈ m.methods := by
  obtain ⟨e, hfind, rfl⟩ := Option.map_eq_some_iff.mp he
  have hmem := List.mem_of_find?_eq_some hfind
  have hid : e.1.id = method.id := by simpa using List.find?_some hfind
  obtain ⟨e', hmem', rfl⟩ := List.mem_map.mp hc
  have heq : e = e' := List.inj_on_of_nodup_map hm.ids hmem hmem' hid
  rw [← heq]
  exact hmem

/-- A simulation: the parameters of a probe with the values they are given, an assignment, and the fields that
matter. -/
structure Simulation where
  machine : Machine
  fields : Field → Prop
  params : List Param
  values : List Value
  assignment : Assignment

namespace Simulation

/-- The values are those of the assignment, where it has any. -/
structure Fair (z : Simulation) : Prop where
  disciplined : z.machine.Disciplined z.fields
  length_eq : z.values.length = z.params.length
  value_eq : ∀ {i : Nat} {q : Param} {v u : Value}, z.params[i]? = some q → z.values[i]? = some v →
    z.assignment.eval (.param q.name q.ty) = some u → v = u

/-- A constant denotes itself, a parameter its value. -/
def Denotes (z : Simulation) (t : Term) (v : Value) : Prop :=
  t = .const v ∨ ∃ (i : Nat) (q : Param), z.params[i]? = some q ∧ t = .param q.name q.ty ∧ z.values[i]? = some v

/-- What was written last to a field of `t` is what the field holds. -/
def FieldShown (z : Simulation) (mem : Memory) (t : Term) (fs : List (Field × Item)) (f : Field) : Prop :=
  ∃ u v, mem.lastField t f = some u ∧ fs.lookup f = some (.value v) ∧ z.Denotes u v

/-- A term stands for an item. -/
def Shows (z : Simulation) (mem : Memory) (t : Term) : Item → Prop
  | .value v => z.Denotes t v
  | .null => t = .null
  | .object fs => (∃ x u, t = .localVar x u) ∧ ∀ f, z.fields f → z.FieldShown mem t fs f

/-- All that a state assumes is true. -/
def Satisfies (z : Simulation) (s : State) : Prop := ∀ a ∈ s.path.hard, z.assignment.holds a = some true

theorem Fair.eval_eq {z : Simulation} (hz : z.Fair) {t : Term} {v u : Value} (h : z.Denotes t v)
    (he : z.assignment.eval t = some u) : v = u := by
  rcases h with rfl | ⟨i, q, hq, rfl, hv⟩
  · exact Option.some.inj he
  · exact hz.value_eq hq hv he

theorem Fair.holds {z : Simulation} (hz : z.Fair) {r : Relation} {t : Term} {v c : Value} (h : z.Denotes t v)
    (ha : z.assignment.holds ⟨r, t, .const c⟩ = some true) : r.holds v c = true := by
  unfold Assignment.holds at ha
  cases he : z.assignment.eval t with
  | none => simp [he] at ha
  | some u =>
    have hv := hz.eval_eq h he
    simpa [he, hv] using ha

/-! ### Effects -/

structure Touches (this : Term) (s t : State) : Prop where
  frame : t.frame = s.frame
  other : ∀ {u : Term} {f : Field}, u ≠ this → t.memory.lastField u f = s.memory.lastField u f

theorem Touches.refl (this : Term) (s : State) : Touches this s s := ⟨rfl, fun _ => rfl⟩

theorem Touches.trans {this : Term} {r s t : State} (h : Touches this r s) (k : Touches this s t) : Touches this r t :=
  ⟨k.frame.trans h.frame, fun hu => (k.other hu).trans (h.other hu)⟩

theorem touches_write (this : Term) (s : State) (f : Field) (v : Term) : Touches this s (s.write (.field this f v)) := by
  refine ⟨rfl, ?_⟩
  intro u g hu
  show (s.memory.write (.field this f v)).lastField u g = _
  rw [Memory.lastField_write, if_neg fun h => hu h.1.symm]

theorem FieldShown.write {z : Simulation} {s : State} {this : Term} {f g : Field} {v : Term} {i : Item}
    {fs : List (Field × Item)} (hv : z.fields f → ∃ u, i = .value u ∧ z.Denotes v u) (hg : z.fields g)
    (h : f = g ∨ z.FieldShown s.memory this fs g) :
    z.FieldShown (s.write (.field this f v)).memory this ((f, i) :: fs) g := by
  unfold FieldShown
  show ∃ u w, (s.memory.write (.field this f v)).lastField this g = some u ∧ _
  by_cases hfg : f = g
  · subst hfg
    obtain ⟨u, rfl, hu⟩ := hv hg
    refine ⟨v, u, ?_, ?_, hu⟩
    · rw [Memory.lastField_write, if_pos ⟨rfl, rfl⟩]
    · rw [List.lookup_cons_self]
  · obtain ⟨u, w, hu, hw, hd⟩ := h.resolve_left hfg
    refine ⟨u, w, ?_, ?_, hd⟩
    · rw [Memory.lastField_write, if_neg fun e => hfg e.2]
      exact hu
    · rw [Table.lookup_cons_if, if_neg (Ne.symm hfg)]
      exact hw

/-- The arguments of a call, as terms and as items. A number among them denotes its value. -/
structure Args (z : Simulation) (method : Method) (terms : List Term) (items : List Item) : Prop where
  length_eq : terms.length = items.length
  ints : ∀ {i : Nat} {t : Term}, method.params[i]? = some .int → terms[i]? = some t →
    ∃ v, items[i]? = some (.value v) ∧ z.Denotes t v

theorem Args.get {z : Simulation} {method : Method} {terms : List Term} {items : List Item}
    (h : z.Args method terms items) {i : Nat} {t : Term} (ht : terms[i]? = some t) : ∃ item, items[i]? = some item := by
  have hi : i < items.length := h.length_eq ▸ (List.getElem?_eq_some_iff.mp ht).1
  exact ⟨_, List.getElem?_eq_getElem hi⟩

/-- What an effect does to the fields that matter, and what it leaves alone. -/
structure Effected (z : Simulation) (this : Term) (s t : State) (fs fs' : List (Field × Item)) (f : Field → Prop) :
    Prop where
  touches : Touches this s t
  shown : ∀ {g : Field}, z.fields g → (f g ∨ z.FieldShown s.memory this fs g) → z.FieldShown t.memory this fs' g

section Effects

variable {z : Simulation} (hz : z.Fair) {method : Method} {terms : List Term} {items : List Item}
  (ha : z.Args method terms items) {this : Term} {x y : Exec} (fs : List (Field × Item))

include hz ha

theorem effect_apply {e : Effect} {es : List Effect} (hes : (method, es) ∈ z.machine.methods) (he : e ∈ es)
    (hx : e.apply this terms x = .ok y) (hy : z.Satisfies y.state) :
    ∃ fs', e.perform items fs = some fs' ∧ z.Effected this x.state y.state fs fs' (fun f => e.field? = some f) := by
  cases e with
  | copyArg f i =>
    obtain ⟨t, ht, hx⟩ := Exec.need_eq_ok.mp hx
    cases hx
    obtain ⟨item, hitem⟩ := ha.get ht
    refine ⟨(f, item) :: fs, by rw [Effect.perform, hitem]; rfl, touches_write this x.state f t, ?_⟩
    intro g hg h
    refine FieldShown.write ?_ hg (h.imp_left Option.some.inj)
    intro hf
    obtain ⟨v, hv, hd⟩ := ha.ints (hz.disciplined.numeric _ hes _ he hf) ht
    rw [hitem] at hv
    exact ⟨v, Option.some.inj hv, hd⟩
  | setConst f n =>
    cases hx
    refine ⟨(f, .value (.int n)) :: fs, rfl, touches_write this x.state f (.int n), ?_⟩
    intro g hg h
    exact FieldShown.write (fun _ => ⟨_, rfl, Or.inl rfl⟩) hg (h.imp_left Option.some.inj)
  | require i r n =>
    obtain ⟨t, ht, hx⟩ := Exec.need_eq_ok.mp hx
    cases hx
    obtain ⟨v, hv, hd⟩ := ha.ints (hz.disciplined.numeric _ hes _ he) ht
    have hassumed : (⟨r, t, .int n⟩ : Atom) ∈ (x.state.assume ⟨r, t, .int n⟩).path.hard :=
      Path.mem_addTo.mpr (Or.inr rfl)
    have htest : r.holds v (.int n) = true := hz.holds hd (hy _ hassumed)
    refine ⟨fs, ?_, ⟨rfl, fun _ => rfl⟩, ?_⟩
    · rw [Effect.perform, hv]
      exact if_pos htest
    · intro g _ h
      exact h.resolve_left fun h => by cases h

theorem effects_apply {es es' : List Effect} (hes : (method, es) ∈ z.machine.methods) (hsub : ∀ e ∈ es', e ∈ es)
    (hx : es'.foldlM (fun x e => e.apply this terms x) x = .ok y) (hy : z.Satisfies y.state) :
    ∃ fs', es'.foldlM (fun fs e => e.perform items fs) fs = some fs' ∧
      z.Effected this x.state y.state fs fs' (fun f => ∃ e ∈ es', e.field? = some f) := by
  induction es' generalizing x fs with
  | nil =>
    cases hx
    refine ⟨fs, rfl, .refl this _, ?_⟩
    intro g _ h
    exact h.resolve_left fun ⟨e, he, _⟩ => by cases he
  | cons e es' ih =>
    rw [List.foldlM_cons] at hx
    obtain ⟨x₁, hx₁, hrest⟩ := bind_eq_ok.mp hx
    -- What the first effect assumes is still assumed in the end.
    have hkeep := Effect.leads_applyAll this terms es' x₁
    rw [hrest] at hkeep
    obtain ⟨fs₁, hp₁, he₁⟩ := effect_apply hz ha fs hes (hsub e List.mem_cons_self) hx₁
      fun a h => hy a (hkeep.hard a h)
    obtain ⟨fs₂, hp₂, he₂⟩ := ih fs₁ (fun e he => hsub e (List.mem_cons_of_mem _ he)) hrest
    refine ⟨fs₂, ?_, he₁.touches.trans he₂.touches, ?_⟩
    · rw [List.foldlM_cons, hp₁]
      exact hp₂
    · intro g hg h
      refine he₂.shown hg ?_
      rcases h with ⟨e', he', hf⟩ | h
      · rcases List.mem_cons.mp he' with rfl | he'
        · exact Or.inr (he₁.shown hg (Or.inl hf))
        · exact Or.inl ⟨e', he', hf⟩
      · exact Or.inr (he₁.shown hg (Or.inr h))

/-- A call that is run can be performed. If it is a constructor or a factory, then all fields that matter are
shown. -/
theorem call_apply (hc : method ∈ z.machine.catalog.methods) (hx : z.machine.call method this terms x = .ok y)
    (hy : z.Satisfies y.state) :
    ∃ fs', z.machine.perform method items fs = some fs' ∧
      z.Effected this x.state y.state fs fs' (fun _ => method.kind ≠ .modifier) := by
  obtain ⟨es, he, hx⟩ := Exec.need_eq_ok.mp hx
  have hes := hz.disciplined.mem_of_effects hc he
  obtain ⟨fs', hp, hf⟩ := effects_apply hz ha fs hes (fun e he => he) hx hy
  refine ⟨fs', ?_, hf.touches, ?_⟩
  · rw [Machine.perform, he]
    exact hp
  · intro g hg h
    exact hf.shown hg (h.imp_left fun hk => hz.disciplined.writes _ hes hk g hg)

end Effects

end Simulation

end Symex
