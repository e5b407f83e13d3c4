import Symex.Proofs.Resolve.Named

/-!
# What a call changes in a model

A value is described before the call and after it, each time by the atoms that hold then and under the names that are
known then. If only fields of primitive types are written, through terms that read nothing, then the two descriptions
differ exactly by the writes: no reference reads anything else than before, so the names of a value are the same in
both, and an atom that both have is renamed in the same way.
-/

namespace Symex

/-- A write to a field of a primitive type, whose terms read nothing. -/
def Write.Plain : Write → Prop
  | .field b f x => f.ty.isPrimitive = true ∧ b.parts = [] ∧ x.parts = []
  | .element .. => False

instance : (w : Write) → Decidable w.Plain
  | .field b f x => inferInstanceAs (Decidable (f.ty.isPrimitive = true ∧ b.parts = [] ∧ x.parts = []))
  | .element .. => inferInstanceAs (Decidable False)

namespace Resolve

/-- The atoms of the model of the `i`-th value, unless it is null or an alias. -/
def Resolved.atoms? (r : Resolved) (i : Nat) : Option (OrderedSet Atom) :=
  (r.params[i]?.bind r.store.get?).bind Model.atoms?

/-- The atom reads a place that is written during the call. -/
def Touches (m : Assignment) (s : State) (b : Atom) : Prop :=
  ∃ u ∈ b.terms, ∃ q, placeOf (readBefore m s.path) u = some q ∧ Written m s q

section Called

variable {m : Assignment} {s : State} {v : Solver.Valuation} {h : Heap} (hs : SeesCall m s h)

include hs

theorem overwritten_eq_false_iff {b : Atom} : overwritten h b = false ↔ ¬ Touches m s b := by
  constructor
  · rintro hb ⟨u, hu, q, hq, hwritten⟩
    exact (hs.free (free_of_not_overwritten hs hb u hu q hq)).1 hwritten
  · intro hb
    refine Bool.eq_false_iff.mpr fun htrue => hb ?_
    obtain ⟨u, hu, hplace⟩ := List.any_eq_true.mp htrue
    split at hplace
    next q hq =>
      have hread : placeOf (readBefore m s.path) u = some q := by
        rw [← hq]
        exact placeOf_congr fun k _ => (hs.before_eq k).symm
      obtain ⟨x, hx⟩ := Option.isSome_iff_exists.mp hplace
      exact ⟨u, hu, q, hread, (hs.written hx).1⟩
    next => cases hplace

theorem after_of_leaf {t : Term} (ht : t.parts = []) : h.after {} t = readBefore m s.path t := by
  refine hs.after_of_free fun u hu q hq => ?_
  rw [Term.subterms_of_leaf ht] at hu
  rw [List.mem_singleton.mp hu] at hq
  cases t with
  | field | element | length => cases ht
  | _ => cases hq

/-- A plain write changes no reference, and the terms of its equation that are references read the same. -/
theorem after_of_plain {w : Write} (hw : w.Plain) {u : Term} (hu : u ∈ w.equation.terms) (href : u.isReference = true) :
    h.after {} u = readBefore m s.path u := by
  cases w with
  | element => exact hw.elim
  | field b f x =>
    obtain ⟨hprim, hb, hx⟩ := hw
    have hterms : u ∈ Term.field b f :: b.subterms ++ x.subterms := hu
    rw [Term.subterms_of_leaf hb, Term.subterms_of_leaf hx] at hterms
    simp only [List.cons_append, List.mem_cons, List.nil_append, List.not_mem_nil, or_false] at hterms
    rcases hterms with rfl | rfl | rfl
    · have hfalse := Ty.not_isPrimitive_of_isReference href
      rw [Term.ty, hprim] at hfalse
      cases hfalse
    · exact after_of_leaf hs hb
    · exact after_of_leaf hs hx

end Called

/-- After plain writes the references of the atoms evaluate as before the call. -/
theorem eval_start_current {m : Assignment} {s : State} {v : Solver.Valuation} (sol : Solver.Solution s.path.hard m v)
    (settings : Settings) (hw : ∀ w ∈ s.memory.writes, w.Plain) {u : Term}
    (hu : u ∈ (Pass.start settings s m .current).atoms.flatMap Atom.terms) (href : u.isReference = true) :
    (Pass.start settings s m .current).eval {} u = readBefore m s.path u := by
  have hs := seesCall_start sol settings .current
  obtain ⟨b, hb, hub⟩ := List.mem_flatMap.mp hu
  rcases (mem_atoms_start sol settings).mp hb with ⟨-, hkept⟩ | ⟨w, ⟨q, hlast⟩, rfl⟩
  · exact hs.after_of_free fun k hk => free_of_not_overwritten hs hkept k (Atom.mem_terms_of_subterm hub hk)
  · exact after_of_plain hs (hw w (List.mem_reverse.mp (List.mem_of_find?_eq_some hlast))) hub href

theorem Resolved.mem_atoms?_iff {r : Resolved} {i : Nat} {as : OrderedSet Atom} (has : r.atoms? i = some as)
    {P : Atom → Prop} (h : ∃ k model, r.params[i]? = some k ∧ r.store.get? k = some model ∧
      ∀ as, model.atoms? = some as → ∀ c, c ∈ as ↔ P c) (c : Atom) : c ∈ as ↔ P c := by
  obtain ⟨k, model, hget, hmodel, hatoms⟩ := h
  rw [Resolved.atoms?, hget, Option.bind_some, hmodel] at has
  exact hatoms as has c

/-- If all writes are plain, the descriptions of a value before and after the call have in common what reads nothing
written; the first has besides what reads something written, the second the equations of the latest writes. -/
theorem resolveBoth_frames {settings : Settings} {s : State} {limit : Nat} {m : Assignment}
    (hm : Solver.check limit s.path false = some m) (hw : ∀ w ∈ s.memory.writes, w.Plain) {values : List Sym} {i : Nat}
    {t : Term} {wrapper : Option Wrapper} (ht : values[i]? = some (.ref t wrapper)) (hv : t.isVariable = true)
    (hr : t.isReference = true) {as as' : OrderedSet Atom}
    (hbefore : (resolveBoth settings s m values).before.atoms? i = some as)
    (hafter : (resolveBoth settings s m values).after.atoms? i = some as') :
    (∀ c, c ∈ as ↔ ∃ b ∈ s.path.atoms settings.useSoft, Concerns m s.path t b ∧ b.Renamed (NameOf m s.path t) t c) ∧
    (∀ c, c ∈ as' ↔
      (∃ b ∈ s.path.atoms settings.useSoft, ¬ Touches m s b ∧ Concerns m s.path t b ∧
        b.Renamed (NameOf m s.path t) t c) ∨
      ∃ w, Survives m s w ∧ Concerns m s.path t w.equation ∧ w.equation.Renamed (NameOf m s.path t) t c) ∧
    (∀ b ∈ s.path.atoms settings.useSoft, Concerns m s.path t b → ¬ Touches m s b →
      ∃ c, b.Renamed (NameOf m s.path t) t c ∧ c ∈ as ∧ c ∈ as') ∧
    (∀ c ∈ as, c ∉ as' → ∃ b ∈ s.path.atoms settings.useSoft, Touches m s b ∧ b.Renamed (NameOf m s.path t) t c) ∧
    ∀ c ∈ as', c ∉ as → ∃ w, Survives m s w ∧ w.equation.Renamed (NameOf m s.path t) t c := by
  rw [Solver.check_hard] at hm
  obtain ⟨v, sol⟩ := Solver.solve_some hm
  have hinitial : Snapshot.initial ≠ .current := nofun
  have hfirst : ∀ c, c ∈ as ↔ ∃ b ∈ s.path.atoms settings.useSoft, Concerns m s.path t b ∧
      b.Renamed (NameOf m s.path t) t c :=
    Resolved.mem_atoms?_iff hbefore
      (run_requested_atoms (fun u _ _ => eval_start_initial sol settings hinitial u) _ ht hv hr)
  have hsecond : ∀ c, c ∈ as' ↔
      (∃ b ∈ s.path.atoms settings.useSoft, ¬ Touches m s b ∧ Concerns m s.path t b ∧
        b.Renamed (NameOf m s.path t) t c) ∨
      ∃ w, Survives m s w ∧ Concerns m s.path t w.equation ∧ w.equation.Renamed (NameOf m s.path t) t c := by
    intro c
    refine (Resolved.mem_atoms?_iff hafter
      (run_requested_atoms (fun u hu href => eval_start_current sol settings hw hu href) _ ht hv hr) c).trans ?_
    simp only [mem_atoms_start sol settings, overwritten_eq_false_iff (seesCall_start sol settings .current)]
    constructor
    · rintro ⟨b, ⟨hb, hkept⟩ | ⟨w, hlast, rfl⟩, hconcerns, hc⟩
      · exact Or.inl ⟨b, hb, hkept, hconcerns, hc⟩
      · exact Or.inr ⟨w, hlast, hconcerns, hc⟩
    · rintro (⟨b, hb, hkept, hconcerns, hc⟩ | ⟨w, hlast, hconcerns, hc⟩)
      · exact ⟨b, Or.inl ⟨hb, hkept⟩, hconcerns, hc⟩
      · exact ⟨_, Or.inr ⟨w, hlast, rfl⟩, hconcerns, hc⟩
  refine ⟨hfirst, hsecond, ?_, ?_, ?_⟩
  · intro b hb hconcerns hkept
    obtain ⟨c, hc⟩ := Atom.exists_renamed (NameOf m s.path t) t b
    exact ⟨c, hc, (hfirst c).mpr ⟨b, hb, hconcerns, hc⟩, (hsecond c).mpr (Or.inl ⟨b, hb, hkept, hconcerns, hc⟩)⟩
  · intro c hc hgone
    obtain ⟨b, hb, hconcerns, hrenamed⟩ := (hfirst c).mp hc
    refine ⟨b, hb, ?_, hrenamed⟩
    by_contra hkept
    exact hgone ((hsecond c).mpr (Or.inl ⟨b, hb, hkept, hconcerns, hrenamed⟩))
  · intro c hc hnew
    rcases (hsecond c).mp hc with ⟨b, hb, -, hconcerns, hrenamed⟩ | ⟨w, hlast, -, hrenamed⟩
    · exact absurd ((hfirst c).mpr ⟨b, hb, hconcerns, hrenamed⟩) hnew
    · exact ⟨w, hlast, hrenamed⟩

/-- A node with two names is written through both, one of its fields twice. -/
def writtenTwice : State :=
  let node : Ty := .object "Node"
  let item : Field := ⟨"Node", "item", .int⟩
  let size : Field := ⟨"Node", "size", .int⟩
  let count : Field := ⟨"Node", "count", .int⟩
  let x : Term := .param "x" node
  let y : Term := .param "y" node
  { path := { hard := [.ne x .null, .eq y x, .eq (.field x item) (.int 5), .lt (.field y size) (.int 9)] }
    memory := { writes := [.field y item (.int 7), .field x item (.localVar "n" .int), .field y count (.int 2)] } }

theorem resolveBoth_frames_writtenTwice :
    let x : Term := .param "x" (.object "Node")
    ∃ m as as', Solver.check 1000 writtenTwice.path false = some m ∧
      (∀ w ∈ writtenTwice.memory.writes, w.Plain) ∧
      (resolveBoth {} writtenTwice m [.ref x none]).before.atoms? 0 = some as ∧
      (resolveBoth {} writtenTwice m [.ref x none]).after.atoms? 0 = some as' ∧
      (as.toList.filter fun c => c ∉ as').map Atom.render = ["x.item == 5"] ∧
      (as'.toList.filter fun c => c ∉ as).map Atom.render = ["x.count == 2", "x.item == n"] ∧
      (∀ b ∈ writtenTwice.path.hard, Concerns m writtenTwice.path x b → ¬ Touches m writtenTwice b →
        ∃ c, b.Renamed (NameOf m writtenTwice.path x) x c ∧ c ∈ as ∧ c ∈ as') ∧
      (∀ c ∈ as, c ∉ as' → ∃ b ∈ writtenTwice.path.hard, Touches m writtenTwice b ∧
        b.Renamed (NameOf m writtenTwice.path x) x c) ∧
      ∀ c ∈ as', c ∉ as → ∃ w, Survives m writtenTwice w ∧ w.equation.Renamed (NameOf m writtenTwice.path x) x c := by
  intro x
  have hall : ∃ m ∈ Solver.check 1000 writtenTwice.path false,
      ∃ as ∈ (resolveBoth {} writtenTwice m [.ref x none]).before.atoms? 0,
      ∃ as' ∈ (resolveBoth {} writtenTwice m [.ref x none]).after.atoms? 0,
        (as.toList.filter fun c => c ∉ as').map Atom.render = ["x.item == 5"] ∧
        (as'.toList.filter fun c => c ∉ as).map Atom.render = ["x.count == 2", "x.item == n"] := by
    decide +kernel
  obtain ⟨m, hm, as, has, as', has', hlost, hgained⟩ := hall
  have hplain : ∀ w ∈ writtenTwice.memory.writes, w.Plain := by decide
  have hpath : writtenTwice.path.atoms ({} : Settings).useSoft = writtenTwice.path.hard := Path.atoms_false _
  obtain ⟨-, -, hframe⟩ := @resolveBoth_frames {} writtenTwice 1000 m hm hplain [.ref x none] 0 x none rfl rfl rfl
    as as' has has'
  rw [hpath] at hframe
  exact ⟨m, as, as', hm, hplain, has, has', hlost, hgained, hframe⟩

end Resolve

end Symex
