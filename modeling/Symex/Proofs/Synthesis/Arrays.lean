import Symex.Proofs.Probe.Numbers
import Symex.Proofs.Solver.Preference
import Symex.Proofs.Synthesis.Origin
import Symex.Proofs.Synthesis.Replayed

/-!
# Synthesized arrays of numbers

A target may say of an array which numbers it holds at which constant indices. A probe stores its entries through
parameters, and the goal looks for a write at the constant itself, so it finds none and says nothing of what was stored.
Main statement: the array that is synthesized has the length of the target and as many entries, but each of them is
zero at index zero.
-/

namespace Symex

open Lowering (localName number numbers entryRecipes)

/-! ### The numbers in an array -/

namespace Store

/-- The number at a handle. -/
def int? (s : Store) (h : Handle) : Option Int := (s.get? h).bind fun m => m.value?.bind Value.int?

/-- The index and the element of an entry. -/
def pair? (s : Store) (e : Handle × Handle) : Option (Int × Int) :=
  (s.int? e.1).bind fun i => (s.int? e.2).map fun v => (i, v)

/-- The length and the entries of an array of numbers. -/
def array? (s : Store) (h : Handle) : Option (Int × List (Int × Int)) :=
  match s.get? h with
  | some (.container .array b) => (s.int? b.length).bind fun n => (b.entries.mapM s.pair?).map fun es => (n, es)
  | _ => none

theorem int?_of_primitive {s : Store} {h : Handle} {t : Term} {n : Int} {as : OrderedSet Atom}
    (hg : s.get? h = some (.primitive t (.int n) as)) : s.int? h = some n := by
  rw [int?, hg]
  rfl

theorem exists_primitive_of_int? {s : Store} {h : Handle} {n : Int} (hn : s.int? h = some n) :
    ∃ t as, s.get? h = some (.primitive t (.int n) as) := by
  obtain ⟨m, hm, hvalue⟩ := Option.bind_eq_some_iff.mp hn
  obtain ⟨v, hv, hint⟩ := Option.bind_eq_some_iff.mp hvalue
  cases m with
  | primitive t u as =>
    cases hv
    cases v with
    | int k =>
      cases hint
      exact ⟨t, as, hm⟩
    | _ => cases hint
  | _ => cases hv

theorem pair?_eq_some {s : Store} {e : Handle × Handle} {i v : Int} :
    s.pair? e = some (i, v) ↔ s.int? e.1 = some i ∧ s.int? e.2 = some v := by
  cases h₁ : s.int? e.1 <;> cases h₂ : s.int? e.2 <;> simp [pair?, h₁, h₂]

theorem array?_eq_some {s : Store} {h : Handle} {n : Int} {es : List (Int × Int)} :
    s.array? h = some (n, es) ↔ ∃ b, s.get? h = some (.container .array b) ∧ s.int? b.length = some n ∧
      List.Forall₂ (fun e i => s.pair? e = some i) b.entries es := by
  constructor
  · intro harray
    unfold array? at harray
    split at harray
    next b hb =>
      obtain ⟨k, hk, harray⟩ := Option.bind_eq_some_iff.mp harray
      obtain ⟨fs, hfs, heq⟩ := Option.map_eq_some_iff.mp harray
      cases heq
      exact ⟨b, hb, hk, mapM_eq_some.mp hfs⟩
    next => cases harray
  · intro ⟨b, hb, hn, hes⟩
    rw [array?, hb]
    show ((s.int? b.length).bind _) = _
    rw [hn, Option.bind_some, mapM_eq_some.mpr hes]
    rfl

theorem int?_of_copied {source target : Store} {h k : Handle} (hc : source.Copied h target k) {n : Int}
    (hn : source.int? h = some n) : target.int? k = some n := by
  obtain ⟨t, as, hm⟩ := exists_primitive_of_int? hn
  obtain ⟨f, hk, -⟩ := hc.exists_get? hm
  exact int?_of_primitive hk

/-- A copy of an array holds the same numbers. -/
theorem array?_of_copied {source target : Store} {h k : Handle} (hc : source.Copied h target k)
    {a : Int × List (Int × Int)} (ha : source.array? h = some a) : target.array? k = some a := by
  obtain ⟨b, hb, hn, hes⟩ := array?_eq_some.mp ha
  obtain ⟨f, hk, hchildren⟩ := hc.exists_get? hb
  refine array?_eq_some.mpr ⟨_, hk, int?_of_copied (hchildren _ List.mem_cons_self) hn, ?_⟩
  show List.Forall₂ (fun e i => target.pair? e = some i) (b.entries.map fun e => (f e.1, f e.2)) a.2
  rw [List.forall₂_map_left_iff]
  refine ((List.forall₂_and_left b.entries a.2).mpr ⟨fun e he => he, hes⟩).imp ?_
  intro e i ⟨he, hei⟩
  have hmem : ∀ x ∈ [e.1, e.2], x ∈ (Model.container .array b).children :=
    fun x hx => List.mem_cons_of_mem _ (List.mem_flatMap.mpr ⟨e, he, hx⟩)
  obtain ⟨h₁, h₂⟩ := pair?_eq_some.mp hei
  exact pair?_eq_some.mpr ⟨int?_of_copied (hchildren _ (hmem _ (by simp))) h₁,
    int?_of_copied (hchildren _ (hmem _ (by simp))) h₂⟩

theorem int?_mono {s t : Store} (hst : ∀ {h : Handle} {m : Model}, s.get? h = some m → t.get? h = some m) {h : Handle}
    {n : Int} (hn : s.int? h = some n) : t.int? h = some n := by
  obtain ⟨u, as, hm⟩ := exists_primitive_of_int? hn
  exact int?_of_primitive (hst hm)

theorem pair?_mono {s t : Store} (hst : ∀ {h : Handle} {m : Model}, s.get? h = some m → t.get? h = some m)
    {e : Handle × Handle} {i : Int × Int} (he : s.pair? e = some i) : t.pair? e = some i := by
  obtain ⟨h₁, h₂⟩ := pair?_eq_some.mp he
  exact pair?_eq_some.mpr ⟨int?_mono hst h₁, int?_mono hst h₂⟩

end Store

/-! ### Assembling arrays -/

section Assemble

variable {p : Supplies} {values : List Value} (hp : p.Gives values) {f : Nat → Int}

include hp

theorem Supplies.param_int {i : Nat} {n : Int} (hv : values[i]? = some (.int n)) {c c' : Copying}
    (hc : c.Faithful p.source []) {h : Handle} (hx : p.param i c = .ok (h, c')) :
    c.Grows c' ∧ c'.Faithful p.source [] ∧ c'.store.int? h = some n := by
  obtain ⟨hg, hf, t, as, hstore⟩ := Makes.param_spec hp hv hc hx
  exact ⟨hg, hf, Store.int?_of_primitive hstore⟩

theorem Recipe.placeEntries_int {is : List Nat}
    (hv : ∀ i ∈ is, values[i]? = some (.int (f i)) ∧ values[i + 1]? = some (.int (f (i + 1)))) {c c' : Copying}
    (hc : c.Faithful p.source []) {es : List (Handle × Handle)}
    (hx : Recipe.placeEntries p (entryRecipes is) c = .ok (es, c')) :
    c.Grows c' ∧ c'.Faithful p.source [] ∧
      List.Forall₂ (fun e i => c'.store.pair? e = some i) es (is.map fun i => (f i, f (i + 1))) := by
  induction is generalizing c es with
  | nil =>
    cases hx
    exact ⟨.refl _, hc, .nil⟩
  | cons i is ih =>
    obtain ⟨⟨key, c₁⟩, hkey, hx⟩ := bind_eq_ok.mp hx
    obtain ⟨⟨value, c₂⟩, hvalue, hx⟩ := bind_eq_ok.mp hx
    obtain ⟨⟨rest, c₃⟩, hrest, hend⟩ := bind_eq_ok.mp hx
    cases hend
    obtain ⟨hv₁, hv₂⟩ := hv i List.mem_cons_self
    obtain ⟨hg₁, hf₁, hint₁⟩ := Supplies.param_int hp hv₁ hc hkey
    obtain ⟨hg₂, hf₂, hint₂⟩ := Supplies.param_int hp hv₂ hf₁ hvalue
    obtain ⟨hg₃, hf₃, hall⟩ := ih (fun j hj => hv j (List.mem_cons_of_mem _ hj)) hf₂ hrest
    refine ⟨hg₁.trans (hg₂.trans hg₃), hf₃, .cons ?_ hall⟩
    exact Store.pair?_eq_some.mpr ⟨Store.int?_mono (hg₂.trans hg₃).store.get?_some hint₁,
      Store.int?_mono hg₃.store.get?_some hint₂⟩

end Assemble

/-- An array that is assembled from numbers holds these numbers. -/
theorem Probe.array?_assemble {p : Probe} {source : Store} {params : List Handle} {values : List Value} {f : Nat → Int}
    {x : String} {t : Ty} {is : List Nat}
    (hrecipes : p.recipes = [.container x .array t (.param 0) (entryRecipes is)])
    (hgives : Supplies.Gives { source, params, roots := [⟨0⟩] } values) (hlength : values[0]? = some (.int (f 0)))
    (hv : ∀ i ∈ is, values[i]? = some (.int (f i)) ∧ values[i + 1]? = some (.int (f (i + 1))))
    {out : Store × List Handle} (hout : p.assemble source params = .ok out) :
    out.2 = [⟨0⟩] ∧ out.1.array? ⟨0⟩ = some (f 0, is.map fun i => (f i, f (i + 1))) := by
  unfold assemble at hout
  rw [hrecipes] at hout
  obtain ⟨store, hfill, hend⟩ := bind_eq_ok.mp hout
  cases hend
  refine ⟨rfl, ?_⟩
  obtain ⟨⟨m, c⟩, hmodel, hfill⟩ := bind_eq_ok.mp hfill
  obtain ⟨filled, hset, hfill⟩ := bind_eq_ok.mp hfill
  cases hfill
  obtain ⟨⟨length, c₁⟩, hplace, hmodel⟩ := bind_eq_ok.mp hmodel
  obtain ⟨⟨entries, c₂⟩, hentries, hend⟩ := bind_eq_ok.mp hmodel
  cases hend
  obtain ⟨-, hf₁, hint⟩ := Supplies.param_int hgives hlength (Copying.faithful_of_no_images source _) hplace
  obtain ⟨hg₂, -, hall⟩ := Recipe.placeEntries_int hgives hv hf₁ hentries
  obtain ⟨hlt, hnone, rfl⟩ := Store.set_eq_ok.mp hset
  -- The slot of the root was empty, so no number is lost when it is filled.
  have hkept : ∀ {h : Handle} {m : Model}, c.store.get? h = some m →
      (c.store.fill ⟨0⟩ (.container .array ⟨.localVar x t, length, entries, .empty⟩)).get? h = some m := by
    intro h m hm
    rw [Store.get?_fill, if_neg]
    · exact hm
    · intro ⟨he, _⟩
      rw [← he, hnone] at hm
      cases hm
  refine Store.array?_eq_some.mpr ⟨⟨.localVar x t, length, entries, .empty⟩, ?_,
    Store.int?_mono hkept (Store.int?_mono hg₂.store.get?_some hint), ?_⟩
  · rw [Store.get?_fill, if_pos ⟨rfl, hlt⟩]
  · exact hall.imp fun e i he => Store.pair?_mono hkept he

/-! ### What a witness for an array satisfies -/

/-- A target for an array of numbers: the models of its length and its entries are numbers, and all that is said of it
is its length and what it holds at constant indices. -/
structure Container.Describes (b : Container) (s : Store) (n : Int) (items : List (Int × Int)) : Prop where
  ty : b.term.ty = .array .int
  length : s.IsInt b.length n
  entries : List.Forall₂ (fun e i => s.IsInt e.1 i.1 ∧ s.IsInt e.2 i.2) b.entries items
  atoms : ∀ a, a ∈ b.atoms ↔ a = .eq (.length b.term) (.int n) ∨
    ∃ i ∈ items, a = .eq (.element b.term (.int i.1) .int) (.int i.2)

/-- What the probe for an array assumes and the goal asks for. Here `r` is the array, and the parameters at `is` are the
keys. -/
inductive Posed (r : Term) (is : List Nat) (n : Int) (items : List (Int × Int)) : Atom → Prop
  | nonnull : Posed r is n items (.ne r .null)
  | nonneg : Posed r is n items (.ge (number 0) (.int 0))
  | sized : Posed r is n items (.eq (.length r) (number 0))
  | low {i : Nat} (hi : i ∈ is) : Posed r is n items (.ge (number i) (.int 0))
  | high {i : Nat} (hi : i ∈ is) : Posed r is n items (.lt (number i) (.length r))
  | length : Posed r is n items (.eq (.length r) (.int n))
  | element {e : Int × Int} (he : e ∈ items) : Posed r is n items (.eq (.element r (.int e.1) .int) (.int e.2))

/-- The only parameters in a term are the first one and those at `is`, and no read looks through one. -/
def Term.Tame (is : List Nat) (t : Term) : Prop :=
  ∀ u ∈ t.subterms, (∃ i, u = number i ∧ (i = 0 ∨ i ∈ is)) ∨ (∀ i, u ≠ number i) ∧ ∀ v ∈ u.parts, ∀ i, v ≠ number i

namespace Term

variable {is : List Nat}

theorem tame_number {i : Nat} (hi : i = 0 ∨ i ∈ is) : Tame is (number i) := by
  intro u hu
  exact Or.inl ⟨i, List.mem_singleton.mp hu, hi⟩

theorem tame_const (v : Value) : Tame is (.const v) := by
  simp [Tame, subterms, parts, number]

theorem tame_localVar (x : String) (t : Ty) : Tame is (.localVar x t) := by
  simp [Tame, subterms, parts, number]

theorem tame_length (x : String) (t : Ty) : Tame is (.length (.localVar x t)) := by
  simp [Tame, subterms, parts, number]

theorem tame_element (x : String) (t : Ty) (n : Int) : Tame is (.element (.localVar x t) (.int n) .int) := by
  simp [Tame, subterms, parts, number, Term.int]

theorem Tame.part_ne_number {t u v : Term} (ht : t.Tame is) (hu : u ∈ t.subterms) (hv : v ∈ u.parts) (i : Nat) :
    v ≠ number i := by
  rcases ht u hu with ⟨j, rfl, -⟩ | ⟨-, hparts⟩
  · cases hv
  · exact hparts v hv i

theorem Tame.of_number {t : Term} (ht : t.Tame is) {i : Nat} (hi : number i ∈ t.subterms) : i = 0 ∨ i ∈ is := by
  rcases ht _ hi with ⟨j, hij, hj⟩ | ⟨hne, -⟩
  · rwa [Lowering.number_inj hij]
  · exact absurd rfl (hne i)

end Term

namespace Posed

variable {x : String} {t : Ty} {is : List Nat} {n : Int} {items : List (Int × Int)}

theorem tame {a : Atom} (ha : Posed (.localVar x t) is n items a) : a.lhs.Tame is ∧ a.rhs.Tame is := by
  cases ha with
  | nonnull => exact ⟨Term.tame_localVar x t, Term.tame_const _⟩
  | nonneg => exact ⟨Term.tame_number (Or.inl rfl), Term.tame_const _⟩
  | sized => exact ⟨Term.tame_length x t, Term.tame_number (Or.inl rfl)⟩
  | low hi => exact ⟨Term.tame_number (Or.inr hi), Term.tame_const _⟩
  | high hi => exact ⟨Term.tame_number (Or.inr hi), Term.tame_length x t⟩
  | length => exact ⟨Term.tame_length x t, Term.tame_const _⟩
  | element he => exact ⟨Term.tame_element x t _, Term.tame_const _⟩

theorem exists_tame {as : List Atom} (has : ∀ a, a ∈ as ↔ Posed (.localVar x t) is n items a) {u : Term}
    (hu : u ∈ Solver.termsOf as) : ∃ v : Term, v.Tame is ∧ u ∈ v.subterms := by
  obtain ⟨a, ha, hua⟩ := Solver.mem_termsOf.mp hu
  obtain ⟨hleft, hright⟩ := ((has a).mp ha).tame
  rcases List.mem_append.mp hua with hua | hua
  · exact ⟨a.lhs, hleft, hua⟩
  · exact ⟨a.rhs, hright, hua⟩

section Solved

variable {as : List Atom} (has : ∀ a, a ∈ as ↔ Posed (.localVar x t) is n items a) (hzero : 0 ∉ is) {limit : Nat}
  {m : Assignment} (hm : Solver.solve limit as = some m)

include has hm

theorem holds {a : Atom} (ha : Posed (.localVar x t) is n items a) : m.holds a = some true := by
  obtain ⟨v, sol⟩ := Solver.solve_some hm
  exact sol.holds ((has a).mpr ha)

theorem eval_length : m.eval (.length (.localVar x t)) = some (.int n) := by
  have hlength := holds has hm .length
  simp only [Assignment.holds, Atom.eq, Term.int, Assignment.eval_const] at hlength
  cases hl : m.eval (.length (.localVar x t)) with
  | none => simp [hl] at hlength
  | some v => simpa [hl, Relation.holds] using hlength

theorem eval_first : m.eval (number 0) = some (.int n) := by
  have hsized := holds has hm .sized
  simp only [Assignment.holds, Atom.eq, eval_length has hm] at hsized
  cases hv : m.eval (number 0) with
  | none => simp [hv] at hsized
  | some v =>
    simp only [hv, Relation.holds, Option.some.injEq, beq_iff_eq] at hsized
    rw [hsized]

/-- Where there is a key, the length is positive. -/
theorem length_pos {i : Nat} (hi : i ∈ is) : 0 < n := by
  have hlow := holds has hm (.low hi)
  have hhigh := holds has hm (.high hi)
  simp only [Assignment.holds, Atom.ge, Atom.lt, Term.int, Assignment.eval_const, eval_length has hm] at hlow hhigh
  cases hv : m.eval (number i) with
  | none => simp [hv] at hlow
  | some v =>
    simp only [hv, Relation.holds, Option.some.injEq] at hlow hhigh
    cases v with
    | bool b => simp [Value.cmp] at hlow
    | addr a => simp [Value.cmp] at hhigh
    | int k =>
      simp only [Value.cmp, bne_iff_ne, ne_eq, beq_iff_eq, compare_lt_iff_lt] at hlow hhigh
      omega

include hzero

/-- The keys are compared with zero and with the length, and nothing else is said of them. -/
theorem slack : Solver.Slack as m fun u => ∃ i ∈ is, u = number i := by
  refine ⟨?_, ?_, ?_, ?_⟩
  · rintro u ⟨i, -, rfl⟩
    exact ⟨_, rfl⟩
  · intro u hu p hp ⟨i, _, hpi⟩
    obtain ⟨v, hv, huv⟩ := exists_tame has hu
    exact hv.part_ne_number huv hp i hpi
  · intro a ha hfree
    obtain ⟨i, hi, hrhs⟩ := hfree
    cases (has a).mp ha with
    | sized => exact hzero (Lowering.number_inj hrhs ▸ hi)
    | _ => cases hrhs
  · intro a ha hfree
    obtain ⟨i, hi, hlhs⟩ := hfree
    cases (has a).mp ha with
    | nonneg => exact absurd (Lowering.number_inj hlhs ▸ hi) hzero
    | low _ => exact ⟨nofun, rfl⟩
    | high _ =>
      refine ⟨nofun, ?_⟩
      have hpos := length_pos has hm hi
      have hlt : compare 0 n = .lt := compare_lt_iff_lt.mpr hpos
      simp [Assignment.holds, Atom.lt, Term.int, eval_length has hm, Relation.holds, Value.cmp, hlt]
    | _ => cases hlhs

/-- The first parameter is the length, and all others are zero. -/
theorem value (i : Nat) : (m.eval (number i)).getD (.default .int) = .int (if i = 0 then n else 0) := by
  by_cases hi : i = 0
  · rw [if_pos hi, hi, eval_first has hm]
    rfl
  rw [if_neg hi]
  by_cases hkey : i ∈ is
  · have hmem : number i ∈ Solver.termsOf as :=
      Solver.mem_termsOf.mpr ⟨_, (has _).mpr (.low hkey), List.mem_cons_self⟩
    rw [(slack has hzero hm).eval_eq_zero hm hmem ⟨i, hkey, rfl⟩]
    rfl
  · -- Nothing is said of the values that are stored, so they are what they are by default.
    obtain ⟨v, sol⟩ := Solver.solve_some hm
    have hout : number i ∉ Solver.termsOf as := by
      intro hmem
      obtain ⟨v, hv, hiv⟩ := exists_tame has hmem
      exact (hv.of_number hiv).elim hi hkey
    have hnone : m.eval (number i) = none := sol.outside hout
    rw [hnone]
    rfl

end Solved

end Posed

/-! ### The goal for an array -/

namespace Term

theorem substitute_self (t r : Term) : t.substitute (.ofList [(t, r)]) = r := by
  apply substitute_of_find?
  rw [Table.find?_ofList_singleton, if_pos rfl]

section

variable {t r : Term} (ht : t.ty = .array .int)

include ht

theorem find?_of_int {u : Term} (hu : u.ty = .int) : (Table.ofList [(t, r)]).find? u = none := by
  rw [Table.find?_ofList_singleton, if_neg]
  rintro rfl
  cases hu.symm.trans ht

theorem substitute_int (n : Int) : (int n).substitute (.ofList [(t, r)]) = int n := by
  show ((Table.ofList [(t, r)]).find? (int n)).getD _ = _
  rw [find?_of_int ht rfl]
  rfl

theorem substitute_length : (length t).substitute (.ofList [(t, r)]) = length r := by
  rw [substitute, find?_of_int ht rfl, substitute_self]
  rfl

theorem substitute_element (n : Int) :
    (element t (int n) .int).substitute (.ofList [(t, r)]) = element r (int n) .int := by
  rw [substitute, find?_of_int ht rfl, substitute_self, substitute_int ht]
  rfl

end

end Term

/-- A read at a constant index passes all writes at parameters. -/
theorem Machine.Stored.read_element {x : String} {t : Ty} {k : Nat} {is : List Nat} {s : State}
    (hs : Machine.Stored (.localVar x t) k is s) (n : Int) :
    s.memory.read (.element (.localVar x t) (.int n) .int) = .element (.localVar x t) (.int n) .int := by
  have hnone : s.memory.lastElement (.localVar x t) (.int n) = none := by
    rw [Memory.lastElement, List.findSome?_eq_none_iff]
    intro w hw
    obtain ⟨i, v, rfl⟩ := hs.writes w (List.mem_reverse.mp hw)
    exact if_neg fun h => by cases h.2
  show (s.memory.lastElement (.localVar x t) (.int n)).getD _ = _
  rw [hnone]
  rfl

section Target

variable {targets : Store} {h : Handle} {b : Container} {n : Int} {items : List (Int × Int)}
  (hg : targets.get? h = some (.container .array b)) (hb : b.Describes targets n items)

include hg hb

/-- The goal asks for the length, and for reads at constants of the heap before the call. -/
theorem Goal.mem_atoms_array {k : Nat} {is : List Nat} {s : State}
    (hs : Machine.Stored (.localVar (localName 0) b.term.ty) k is s) {as : List Atom}
    (has : atoms ⟨targets, [h], [localName 0]⟩ s = .ok (some as)) (a : Atom) :
    a ∈ as ↔ a = .ne (.localVar (localName 0) b.term.ty) .null ∨
      a = .eq (.length (.localVar (localName 0) b.term.ty)) (.int n) ∨
      ∃ e ∈ items, a = .eq (.element (.localVar (localName 0) b.term.ty) (.int e.1) .int) (.int e.2) := by
  obtain ⟨v, hv, hterm⟩ := Option.map_eq_some_iff.mp hs.container
  rw [atoms_single hg hv rfl, hterm] at has
  cases has
  have hlength : s.memory.readAtom (Atom.substitute (.ofList [(b.term, .localVar (localName 0) b.term.ty)])
      (.eq (.length b.term) (.int n))) = .eq (.length (.localVar (localName 0) b.term.ty)) (.int n) := by
    simp only [Atom.substitute, Atom.map, Atom.eq, Term.substitute_length hb.ty, Term.substitute_int hb.ty]
    rfl
  have helement : ∀ e : Int × Int,
      s.memory.readAtom (Atom.substitute (.ofList [(b.term, .localVar (localName 0) b.term.ty)])
        (.eq (.element b.term (.int e.1) .int) (.int e.2))) =
      .eq (.element (.localVar (localName 0) b.term.ty) (.int e.1) .int) (.int e.2) := by
    intro e
    simp only [Atom.substitute, Memory.readAtom, Atom.map, Atom.eq, Term.substitute_element hb.ty,
      Term.substitute_int hb.ty, hs.read_element]
    rfl
  show a ∈ Atom.ne (.localVar (localName 0) b.term.ty) .null :: (b.atoms.toList.map _).map s.memory.readAtom ↔ _
  rw [List.mem_cons, List.map_map, List.mem_map]
  refine or_congr Iff.rfl ⟨?_, ?_⟩
  · rintro ⟨c, hc, rfl⟩
    rcases (hb.atoms c).mp hc with rfl | ⟨e, he, rfl⟩
    · exact Or.inl hlength
    · exact Or.inr ⟨e, he, helement e⟩
  · rintro (rfl | ⟨e, he, rfl⟩)
    · exact ⟨_, (hb.atoms _).mpr (Or.inl rfl), hlength⟩
    · exact ⟨_, (hb.atoms _).mpr (Or.inr ⟨e, he, rfl⟩), helement e⟩

theorem Posed.mem_hard_iff {k : Nat} {is : List Nat} {s : State}
    (hs : Machine.Stored (.localVar (localName 0) b.term.ty) k is s) {as : List Atom}
    (has : Goal.atoms ⟨targets, [h], [localName 0]⟩ s = .ok (some as)) (a : Atom) :
    a ∈ (as.foldl Path.addHard s.path).hard ↔ Posed (.localVar (localName 0) b.term.ty) is n items a := by
  rw [Path.mem_foldl_addHard, hs.hard, Goal.mem_atoms_array hg hb hs has]
  constructor
  · rintro ((rfl | rfl | rfl | ⟨i, hi, rfl | rfl⟩) | rfl | rfl | ⟨e, he, rfl⟩)
    · exact .nonnull
    · exact .nonneg
    · exact .sized
    · exact .low hi
    · exact .high hi
    · exact .nonnull
    · exact .length
    · exact .element he
  · intro ha
    cases ha with
    | nonnull => simp
    | nonneg => simp
    | sized => simp
    | low hi => exact Or.inl (Or.inr (Or.inr (Or.inr ⟨_, hi, Or.inl rfl⟩)))
    | high hi => exact Or.inl (Or.inr (Or.inr (Or.inr ⟨_, hi, Or.inr rfl⟩)))
    | length => simp
    | element he => exact Or.inr (Or.inr (Or.inr ⟨_, he, rfl⟩))

omit hg in
theorem Container.Describes.children {x : Handle} (hx : x ∈ (Model.container .array b).children) :
    ∃ k, targets.IsInt x k := by
  rcases List.mem_cons.mp hx with rfl | hx
  · exact ⟨n, hb.length⟩
  obtain ⟨e, he, hx⟩ := List.mem_flatMap.mp hx
  obtain ⟨i, hi, rfl⟩ := List.mem_iff_get.mp he
  obtain ⟨hkey, hvalue⟩ := hb.entries.get i.isLt (hb.entries.length_eq ▸ i.isLt)
  rcases List.mem_pair.mp hx with rfl | rfl
  · exact ⟨_, hkey⟩
  · exact ⟨_, hvalue⟩

theorem Container.Describes.measured : Goal.Measured targets [h] := by
  intro x hx k c hd
  have hget := Store.get_eq_ok.mpr hg
  rw [List.mem_singleton.mp hx, Store.derefModel, Store.deref, Store.derefWithin, hget] at hd
  cases hget.symm.trans hd
  obtain ⟨t, as, hlength, -⟩ := hb.length
  exact ⟨_, Store.get_eq_ok.mpr hlength⟩

/-- The array that is verified has the length that is asked for, and zeros in place of its entries. -/
theorem Workshop.verify_array {w : Workshop} {c : Catalog} {d : Draft} (hs : d.Sane c targets [h]) {time : Option Nat}
    {v v' : Verifier} {found : Store × List Handle} (hv : w.verify d time v = .ok (some found, v')) :
    ∃ k, found.2 = [k] ∧ found.1.array? k = some (n, items.map fun _ => (0, 0)) := by
  obtain ⟨name, p, s, atoms, t, -, hprobe, -, hw, hassemble⟩ :=
    verify_some hs (Draft.ready_numbers hg fun x hx => hb.children hx) (hb.measured hg) hv
  rw [hs.probe_numbers hg (fun x hx => hb.children hx) name] at hprobe
  obtain ⟨hparams, hbody, hlocals, hrecipes⟩ : p.params = _ ∧ p.body = _ ∧ p.locals = _ ∧ p.recipes = _ := by
    cases hprobe
    exact ⟨rfl, rfl, rfl, rfl⟩
  have hstored := Machine.stored_of_runs hparams hbody (hw.tracks.runs hw.returned).1
  have hposed := Posed.mem_hard_iff hg hb hstored (hlocals ▸ hw.goal)
  have hzero : 0 ∉ List.range' 1 b.entries.length 2 :=
    fun hmem => absurd (Lowering.bounds_of_key hmem).1 (Nat.lt_irrefl 0)
  have hvalue : ∀ i, i < 1 + 2 * b.entries.length →
      (w.simulation (fun _ => False) p t).values[i]? = some (.int (if i = 0 then n else 0)) := by
    intro i hi
    show (p.params.map _)[i]? = _
    rw [hparams, List.getElem?_map, numbers, List.getElem?_map, List.getElem?_range hi]
    exact congrArg some (Posed.value hposed hzero hw.solved i)
  have hvalues : ∀ i ∈ List.range' 1 b.entries.length 2,
      (w.simulation (fun _ => False) p t).values[i]? = some (.int (if i = 0 then n else 0)) ∧
        (w.simulation (fun _ => False) p t).values[i + 1]? = some (.int (if i + 1 = 0 then n else 0)) := by
    intro i hi
    have hlt := (Lowering.bounds_of_key hi).2
    exact ⟨hvalue i (by omega), hvalue (i + 1) hlt⟩
  obtain ⟨hroot, harray⟩ := Probe.array?_assemble hrecipes
    (hw.gives (hparams ▸ Lowering.numbered_numbers _) (fun _ => False) [⟨0⟩]) (hvalue 0 (by omega)) hvalues hassemble
  have hentries : (List.range' 1 b.entries.length 2).map
      (fun i => ((if i = 0 then n else 0, if i + 1 = 0 then n else 0) : Int × Int)) = items.map fun _ => (0, 0) := by
    rw [List.map_const', ← hb.entries.length_eq, List.eq_replicate_iff]
    refine ⟨by simp, ?_⟩
    intro e he
    obtain ⟨i, hi, rfl⟩ := List.mem_map.mp he
    have hpos := (Lowering.bounds_of_key hi).1
    rw [if_neg (by omega), if_neg (by omega)]
  refine ⟨⟨0⟩, hroot, ?_⟩
  rw [harray, hentries]
  rfl

end Target

/-! ### Synthesis -/

namespace Synthesizer

variable {s s' : Synthesizer} {targets : Store} {roots : List Handle} {depth time : Nat} {r : Synthesized}

/-- An array of numbers that stands by itself among the roots is synthesized with its length and with as many entries,
all of which are zero at index zero. So it is what was asked for only where nothing else was asked for. -/
theorem synthesizeWithin_array {i : Nat} {h k : Handle} {b : Container} {n : Int} {items : List (Int × Int)}
    (hroot : roots[i]? = some h) (hg : targets.get? h = some (.container .array b)) (hb : b.Describes targets n items)
    (hfree : ∀ j, j ≠ i → ¬ Cluster.Linked targets roots i j)
    (hrun : s.synthesizeWithin targets roots depth time = .ok (s', r)) (hk : r.models[i]? = some (some k)) :
    r.store.array? k = some (n, items.map fun _ => (0, 0)) ∧
      (r.store.array? k = some (n, items) ↔ ∀ e ∈ items, e = (0, 0)) := by
  obtain ⟨d, t, u, u', store, x, rest, hsane, hverify, hcopied⟩ := exists_verified_of_not_linked hrun hroot hfree hk
  obtain ⟨y, hy, harray⟩ := Workshop.verify_array hg hb hsane hverify
  cases hy
  have hfound := Store.array?_of_copied hcopied harray
  refine ⟨hfound, ?_⟩
  rw [hfound, Option.some.injEq, Prod.mk.injEq, eq_self, true_and]
  constructor
  · intro hitems e he
    rw [← hitems] at he
    obtain ⟨_, _, rfl⟩ := List.mem_map.mp he
    rfl
  · intro hzero
    exact (List.map_congr_left fun e he => (hzero e he).symm).trans (List.map_id' items)

/-- An array of length three with seven at index one. -/
def sevenAtOne : Container :=
  { term := .param "a" (.array .int)
    length := ⟨1⟩
    entries := [(⟨2⟩, ⟨3⟩)]
    atoms := .ofList [.eq (.length (.param "a" (.array .int))) (.int 3),
      .eq (.element (.param "a" (.array .int)) (.int 1) .int) (.int 7)] }

/-- The array with its length, its index and its element, and another number. -/
def sevenAndFive : Store :=
  let a : Term := .param "a" (.array .int)
  let i : Term := .localVar "a_index0" .int
  .ofSlots [some (.container .array sevenAtOne),
    some (.primitive (.length a) (.int 3) (.ofList [.eq (.length a) (.int 3)])),
    some (.primitive i (.int 1) (.ofList [.eq (.int 1) i, .lt i (.length a), .ge i (.int 0)])),
    some (.primitive (.element a i .int) (.int 7) (.ofList [.eq (.element a i .int) (.int 7)])),
    some (.primitive (.param "x" .int) (.int 5) (.ofList [.eq (.param "x" .int) (.int 5)]))]

theorem describes_sevenAtOne : sevenAtOne.Describes sevenAndFive 3 [(1, 7)] where
  ty := rfl
  length := ⟨_, _, rfl, rfl⟩
  entries := .cons ⟨⟨_, _, rfl, rfl⟩, ⟨_, _, rfl, rfl⟩⟩ .nil
  atoms := by simp [sevenAtOne]

theorem not_linked_sevenAndFive {j : Nat} (hj : j ≠ 0) : ¬ Cluster.Linked sevenAndFive [⟨0⟩, ⟨4⟩] 0 j := by
  have hfour : ∀ b : Handle, [(⟨0⟩ : Handle), ⟨4⟩][j]? = some b → b = ⟨4⟩ := by
    intro b hb
    match j, hj with
    | 1, _ => exact (Option.some.inj hb).symm
    | j + 2, _ => cases hb
  have harray : ∀ a ∈ sevenAtOne.atoms.toList, Term.param "x" .int ∉ a.terms := by decide
  have hnumber : ∀ a ∈ (OrderedSet.ofList [Atom.eq (.param "x" .int) (.int 5)]).toList,
      sevenAtOne.term ∉ a.terms := by decide
  rintro ⟨a, b, ha, hb, hmentions⟩
  cases ha
  cases hfour b hb
  rcases hmentions with (⟨t, k, hget, -⟩ | ⟨m, as, n, hm, has, hn, x, hx, hterm⟩) |
    (⟨t, k, hget, -⟩ | ⟨m, as, n, hm, has, hn, x, hx, hterm⟩)
  · cases hget
  · cases hm
    cases has
    cases hn
    exact harray x hx hterm
  · cases hget
  · cases hm
    cases has
    cases hn
    exact hnumber x hx hterm

/-- The array is made with its length, but not with its element. -/
theorem synthesizeWithin_array_seven :
    sevenAtOne.Describes sevenAndFive 3 [(1, 7)] ∧
      (∀ j, j ≠ 0 → ¬ Cluster.Linked sevenAndFive [⟨0⟩, ⟨4⟩] 0 j) ∧
      ∃ s' r, ({} : Synthesizer).synthesizeWithin sevenAndFive [⟨0⟩, ⟨4⟩] 2 1000 = .ok (s', r) ∧
        r.models = [some ⟨0⟩, some ⟨4⟩] ∧ r.store.array? ⟨0⟩ = some (3, [(0, 0)]) ∧
        (r.store.array? ⟨0⟩ = some (3, [(1, 7)]) ↔ ∀ e ∈ [((1, 7) : Int × Int)], e = (0, 0)) := by
  have hmodels : (({} : Synthesizer).synthesizeWithin sevenAndFive [⟨0⟩, ⟨4⟩] 2 1000 >>= fun e => .ok e.2.models) =
      .ok [some ⟨0⟩, some ⟨4⟩] := by
    decide +kernel
  obtain ⟨⟨s', r⟩, hrun, hr⟩ := bind_eq_ok.mp hmodels
  have hk : r.models[0]? = some (some ⟨0⟩) := by
    rw [Except.ok.inj hr]
    rfl
  obtain ⟨harray, hiff⟩ :=
    synthesizeWithin_array rfl rfl describes_sevenAtOne (fun j => not_linked_sevenAndFive) hrun hk
  exact ⟨describes_sevenAtOne, fun j => not_linked_sevenAndFive, s', r, hrun, Except.ok.inj hr, harray, hiff⟩

/-- What is made within the default budgets is not what was asked for. -/
theorem synthesize_array_forgotten : sevenAtOne.Describes sevenAndFive 3 [(1, 7)] ∧
    ∃ s' r, ({} : Synthesizer).synthesize sevenAndFive [⟨0⟩] = .ok (s', r) ∧ r.models = [some ⟨0⟩] ∧
      r.store.array? ⟨0⟩ ≠ some (3, [(1, 7)]) := by
  have hmade : (({} : Synthesizer).synthesize sevenAndFive [⟨0⟩] >>= fun e => .ok (e.2.models, e.2.store.array? ⟨0⟩)) =
      .ok ([some ⟨0⟩], some (3, [(0, 0)])) := by
    decide +kernel
  obtain ⟨⟨s', r⟩, hrun, hr⟩ := bind_eq_ok.mp hmade
  obtain ⟨hmodels, harray⟩ := Prod.mk.inj (Except.ok.inj hr)
  refine ⟨describes_sevenAtOne, s', r, hrun, hmodels, ?_⟩
  rw [harray]
  decide

end Synthesizer

end Symex
