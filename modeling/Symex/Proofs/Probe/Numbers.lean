import Symex.Proofs.Probe.Lowered
import Symex.Proofs.Probe.Simulated

/-!
# Probes for containers of numbers

A container whose length and entries are numbers is lowered to an allocation and one store for each entry, all with
parameters of their own. A run of these statements assumes what they demand of the length and of the keys, and nothing
of the values.
-/

namespace Symex

/-- The primitive at a handle is a number. -/
def Store.IsInt (s : Store) (h : Handle) (n : Int) : Prop :=
  ∃ t as, s.get? h = some (.primitive t (.int n) as) ∧ t.ty = .int

namespace Lowering

/-- The term of a parameter that is a number. -/
def number (i : Nat) : Term := .param (paramName i) .int

def numbers (is : List Nat) : List Param := is.map fun i => ⟨paramName i, .int⟩

/-- The statements that store entries, whose keys are the parameters at `is` and whose values come right after. -/
def stores (x : String) (is : List Nat) : List Stmt := is.map fun i => .store x (paramName i) (paramName (i + 1))

def entryRecipes (is : List Nat) : List (Recipe × Recipe) := is.map fun i => (.param i, .param (i + 1))

theorem number_inj {i j : Nat} (h : number i = number j) : i = j := paramName_inj (Term.param.inj h).1

/-- After the length, keys and values take turns. -/
theorem bounds_of_key {n i : Nat} (hi : i ∈ List.range' 1 n 2) : 0 < i ∧ i + 1 < 1 + 2 * n := by
  obtain ⟨j, hj, rfl⟩ := List.mem_range'.mp hi
  omega

theorem numbered_numbers (n : Nat) : Numbered (numbers (List.range n)) := by
  intro i q hq
  rw [numbers, List.getElem?_map] at hq
  obtain ⟨j, hj, rfl⟩ := Option.map_eq_some_iff.mp hq
  obtain ⟨hi, hij⟩ := List.getElem?_eq_some_iff.mp hj
  rw [List.getElem_range] at hij
  exact ⟨congrArg paramName hij.symm, rfl⟩

theorem param_of_numbers {w : Lowering} {i : Nat} (hw : w.params = numbers (List.range i)) :
    w.param .int = ((paramName i, .param i), { w with params := numbers (List.range (i + 1)) }) := by
  have hlen : w.params.length = i := by simp [hw, numbers]
  have hnext : w.params ++ [⟨paramName i, .int⟩] = numbers (List.range (i + 1)) := by
    rw [hw, List.range_succ]
    simp [numbers]
  rw [param, hlen, ← hnext]
  rfl

/-- Entries that are holes for numbers. -/
theorem entries_of_holes {inside : Handle → Except Fault Making} {es : List (Handle × Handle)}
    (hin : ∀ e ∈ es, inside e.1 = .ok (fun w => .ok (w.param .int)) ∧ inside e.2 = .ok (fun w => .ok (w.param .int)))
    (x : String) {w : Lowering} {i : Nat} (hw : w.params = numbers (List.range i)) :
    w.entries inside x es = .ok (entryRecipes (List.range' i es.length 2),
      { w with
        params := numbers (List.range (i + 2 * es.length))
        body := w.body ++ stores x (List.range' i es.length 2) }) := by
  induction es generalizing w i with
  | nil => simp [entries, entryRecipes, stores, ← hw]
  | cons e es ih =>
    obtain ⟨hkey, hvalue⟩ := hin e List.mem_cons_self
    have hfirst : (Except.ok (w.param .int) : Except Fault _) = .ok _ := congrArg Except.ok (param_of_numbers hw)
    have hsecond :
        (Except.ok (param { w with params := numbers (List.range (i + 1)) } .int) : Except Fault _) = .ok _ :=
      congrArg Except.ok (param_of_numbers rfl)
    have hrest := ih (fun f hf => hin f (List.mem_cons_of_mem _ hf)) (w := { w with
      params := numbers (List.range (i + 2))
      body := w.body ++ [.store x (paramName i) (paramName (i + 1))] }) (i := i + 2) rfl
    have hcount : i + 2 + 2 * es.length = i + 2 * (es.length + 1) := by omega
    rw [hcount] at hrest
    have hall : w.entries inside x (e :: es) = .ok _ := bind_eq_ok.mpr ⟨_, hkey, bind_eq_ok.mpr ⟨_, hvalue,
      bind_eq_ok.mpr ⟨_, hfirst, bind_eq_ok.mpr ⟨_, hsecond, bind_eq_ok.mpr ⟨_, hrest, rfl⟩⟩⟩⟩⟩
    rw [hall, List.length_cons, List.range'_succ]
    simp [entryRecipes, stores]

end Lowering

open Lowering (localName paramName number numbers stores entryRecipes)

namespace Draft

variable {c : Catalog} {d : Draft} {targets : Store}

theorem Sane.plan_int {roots : List Handle} (hs : Sane c targets roots d) {x : Handle} {n : Int}
    (hx : targets.IsInt x n) : d.plan x = .ok (.hole .int) := by
  obtain ⟨t, as, hget, hty⟩ := hx
  obtain ⟨hsug, hplan⟩ := hs.planAt_primitive hget (by rw [Term.isPrimitive, hty]; rfl)
  rw [plan_of_suggested hsug, hplan, hty]

theorem ready_numbers {h : Handle} {k : ContainerKind} {b : Container} (hg : targets.get? h = some (.container k b))
    (hint : ∀ x ∈ (Model.container k b).children, ∃ n, targets.IsInt x n) : Ready targets [h] := by
  intro x hx
  rw [List.flatMap_singleton, Store.leaves, Store.leavesWithin, hg] at hx
  obtain ⟨y, hy, hx⟩ := List.mem_flatMap.mp hx
  obtain ⟨n, t, as, hget, -⟩ := hint y hy
  have hxy : x = y := by
    cases hsize : targets.size with
    | zero =>
      rw [hsize] at hx
      cases hx
    | succ m =>
      rw [hsize, Store.leavesWithin, hget] at hx
      exact List.mem_singleton.mp hx
  subst hxy
  refine ⟨.hole t.ty, ?_⟩
  unfold suggested
  rw [Store.get_eq_ok.mpr hget]
  rfl

/-- The probe for one container of numbers: an allocation with the first parameter, and one store for each entry. -/
theorem Sane.probe_numbers {h : Handle} (hs : Sane c targets [h] d) {k : ContainerKind} {b : Container}
    (hg : targets.get? h = some (.container k b)) (hint : ∀ x ∈ (Model.container k b).children, ∃ n, targets.IsInt x n)
    (name : String) :
    d.probe name = .ok
      { name
        params := numbers (List.range (1 + 2 * b.entries.length))
        body := .allocate (localName 0) k b.term.ty (paramName 0) ::
          stores (localName 0) (List.range' 1 b.entries.length 2)
        locals := [localName 0]
        recipes :=
          [.container (localName 0) k b.term.ty (.param 0) (entryRecipes (List.range' 1 b.entries.length 2))] } := by
  have hinside : ∀ x ∈ (Model.container k b).children,
      d.lowerWithin d.nesting x = .ok (fun w => .ok (w.param .int)) := by
    intro x hx
    obtain ⟨n, hn⟩ := hint x hx
    show d.lowerWithin (d.targets.size + d.plans.size + 1) x = _
    rw [lowerWithin, lowerWithinOr, hs.plan_int hn]
    rfl
  have hentries : ∀ e ∈ b.entries, d.lowerWithin d.nesting e.1 = .ok (fun w => .ok (w.param .int)) ∧
      d.lowerWithin d.nesting e.2 = .ok (fun w => .ok (w.param .int)) := by
    intro e he
    have hmem : ∀ x ∈ [e.1, e.2], x ∈ (Model.container k b).children :=
      fun x hx => List.mem_cons_of_mem _ (List.mem_flatMap.mpr ⟨e, he, hx⟩)
    exact ⟨hinside _ (hmem _ (by simp)), hinside _ (hmem _ (by simp))⟩
  have hplans : d.rootPlans = .ok [.container k b.term.ty b.length b.entries] := by
    rw [rootPlans, hs.roots_eq]
    exact mapM_eq_ok.mpr (.cons (hs.plan_container hg) .nil)
  have hall := Lowering.entries_of_holes hentries (localName 0) (i := 1)
    (w := { params := numbers (List.range 1), body := [.allocate (localName 0) k b.term.ty (paramName 0)], named := 1,
            locals := [some (localName 0)] }) rfl
  have hlow : Plan.lowerVia (d.lowerWithin d.nesting) (some 0) (.container k b.term.ty b.length b.entries)
      { locals := [none] } = .ok _ :=
    bind_eq_ok.mpr ⟨_, hinside _ List.mem_cons_self, bind_eq_ok.mpr ⟨_, rfl, bind_eq_ok.mpr ⟨_, hall, rfl⟩⟩⟩
  exact probe_of_single hplans hlow rfl name

end Draft

/-! ### Running the statements -/

namespace Machine

/-- A state in which a container has been allocated for `r`, with parameters up to the number `n`, and entries have been
stored whose keys are the parameters at `is`. -/
structure Stored (r : Term) (n : Nat) (is : List Nat) (s : State) : Prop where
  hard : ∀ a, a ∈ s.path.hard ↔ a = .ne r .null ∨ a = .ge (number 0) (.int 0) ∨ a = .eq (.length r) (number 0) ∨
    ∃ i ∈ is, a = .ge (number i) (.int 0) ∨ a = .lt (number i) (.length r)
  writes : ∀ w ∈ s.memory.writes, ∃ i v, w = .element r (number i) v
  container : (s.find? (localName 0)).map Sym.term = some r
  params : ∀ i, i < n → (s.find? (paramName i)).map Sym.term = some (number i)

variable {m : Machine} {r : Term} {n : Nat} {is : List Nat} {s : State}

theorem Stored.of_same (h : Stored r n is s) {t : State} (hs : SameCore s t) : Stored r n is t := by
  have hfind : ∀ x, t.find? x = s.find? x := fun x => by rw [State.find?, State.find?, hs.frame]
  refine ⟨?_, ?_, ?_, ?_⟩
  · rw [hs.path]
    exact h.hard
  · rw [hs.memory]
    exact h.writes
  · rw [hfind]
    exact h.container
  · intro i hi
    rw [hfind]
    exact h.params i hi

/-- One more entry is stored. -/
theorem Stored.store {x y : Exec} (h : Stored r n is x.state) {i : Nat} (hi : i + 1 < n)
    (hx : Machine.store (localName 0) (paramName i) (paramName (i + 1)) x = .ok y) :
    Stored r n (is ++ [i]) y.state := by
  obtain ⟨container, hcontainer, hx⟩ := Exec.need_eq_ok.mp hx
  obtain ⟨key, hkey, hx⟩ := Exec.need_eq_ok.mp hx
  obtain ⟨value, hvalue, hx⟩ := Exec.need_eq_ok.mp hx
  have hr : container = r := Option.some.inj (hcontainer.symm.trans h.container)
  have hk : key = number i := Option.some.inj (hkey.symm.trans (h.params i (by omega)))
  subst hr hk
  cases hx
  refine ⟨?_, ?_, h.container, h.params⟩
  · intro a
    show a ∈ Path.addTo (Path.addTo x.state.path.hard (.ge (number i) (.int 0)))
      (.lt (number i) (.length container)) ↔ _
    rw [Path.mem_addTo, Path.mem_addTo, h.hard]
    have hmore : (∃ j ∈ is ++ [i], a = .ge (number j) (.int 0) ∨ a = .lt (number j) (.length container)) ↔
        (∃ j ∈ is, a = .ge (number j) (.int 0) ∨ a = .lt (number j) (.length container)) ∨
          a = .ge (number i) (.int 0) ∨ a = .lt (number i) (.length container) := by
      simp only [List.mem_append, List.mem_singleton, or_and_right, exists_or, exists_eq_left]
    rw [hmore]
    simp only [or_assoc]
  · intro w hw
    rcases List.mem_append.mp hw with hw | hw
    · exact h.writes w hw
    · exact ⟨i, value, List.mem_singleton.mp hw⟩

theorem Stored.runs {js : List Nat} (h : Stored r n is s) (hjs : ∀ j ∈ js, j + 1 < n) {t : State}
    (hr : Runs m s (stores (localName 0) js) t) : Stored r n (is ++ js) t := by
  induction js generalizing is s with
  | nil =>
    cases hr with
    | nil hs =>
      rw [List.append_nil]
      exact h.of_same hs
  | cons j js ih =>
    cases hr with
    | cons hs hx hrest =>
      have hnext := (h.of_same hs).store (hjs j List.mem_cons_self) hx
      have hend := ih hnext (fun i hi => hjs i (List.mem_cons_of_mem _ hi)) hrest
      rwa [List.append_assoc] at hend

/-- The parameters are bound from the start. -/
theorem find?_number {p : Probe} {n : Nat} (hp : p.params = numbers (List.range n)) (hs : SameCore (enter p 0) s)
    {i : Nat} (hi : i < n) : s.find? (paramName i) = some (.prim (number i)) := by
  have hnum : Lowering.Numbered p.params := hp ▸ Lowering.numbered_numbers n
  rw [State.find?, hs.frame]
  show (OrderedTable.ofList _).find? (paramName i) = _
  rw [OrderedTable.find?_ofList_of_nodup (by rw [List.map_map]; exact hnum.nodup)]
  refine List.mem_map.mpr ⟨⟨paramName i, .int⟩, ?_, rfl⟩
  rw [hp]
  exact List.mem_map.mpr ⟨i, List.mem_range.mpr hi, rfl⟩

/-- The container is allocated, and nothing is stored yet. -/
theorem stored_allocate {p : Probe} {n : Nat} (hp : p.params = numbers (List.range (n + 1))) {x y : Exec}
    (hs : SameCore (enter p 0) x.state) {k : ContainerKind} {t : Ty}
    (hx : container (localName 0) k t (paramName 0) x = .ok y) :
    Stored (.localVar (localName 0) t) (n + 1) [] y.state := by
  have hbound : ∀ i, i < n + 1 → x.state.find? (paramName i) = some (.prim (number i)) :=
    fun i hi => find?_number hp hs hi
  obtain ⟨len, hlen, hx⟩ := Exec.need_eq_ok.mp hx
  rw [Exec.operand?, hbound 0 (by omega)] at hlen
  cases hlen
  obtain ⟨z, halloc, hend⟩ := bind_eq_ok.mp hx
  cases hend
  have hbind : (x.assume (.ne (.localVar (localName 0) t) .null)).bind (localName 0)
      (.ref (.localVar (localName 0) t) (wrapperOf k)) = .ok z := halloc
  have hpath : z.state.path = (x.state.assume (.ne (.localVar (localName 0) t) .null)).path := by
    obtain ⟨s, hs, hz⟩ := Exec.need_eq_ok.mp hbind
    cases hz
    obtain ⟨f, -, rfl⟩ := Option.map_eq_some_iff.mp hs
    rfl
  refine ⟨?_, ?_, ?_, ?_⟩
  · intro a
    show a ∈ Path.addTo (Path.addTo z.state.path.hard (.ge (number 0) (.int 0)))
      (.eq (.length (.localVar (localName 0) t)) (number 0)) ↔ _
    rw [Path.mem_addTo, Path.mem_addTo, hpath, State.hard_assume, Path.mem_addTo, hs.path]
    simp [enter, or_assoc]
  · intro w hw
    have hwrites : w ∈ z.state.memory.writes := hw
    rw [Simulation.memory_of_bind hbind] at hwrites
    have hempty : w ∈ x.state.memory.writes := hwrites
    rw [hs.memory] at hempty
    cases hempty
  · show (z.state.find? (localName 0)).map Sym.term = _
    rw [Simulation.find?_of_bind hbind, if_pos rfl]
    rfl
  · intro i hi
    show (z.state.find? (paramName i)).map Sym.term = _
    rw [Simulation.find?_of_bind hbind, if_neg (Lowering.paramName_ne_localName i 0)]
    show (x.state.find? (paramName i)).map Sym.term = _
    rw [hbound i hi]
    rfl

/-- What a run of the whole probe has assumed and written. -/
theorem stored_of_runs {p : Probe} {n : Nat} (hp : p.params = numbers (List.range (1 + 2 * n))) {k : ContainerKind}
    {t : Ty}
    (hb : p.body = .allocate (localName 0) k t (paramName 0) :: stores (localName 0) (List.range' 1 n 2))
    (hr : Runs m (enter p 0) p.body s) :
    Stored (.localVar (localName 0) t) (1 + 2 * n) (List.range' 1 n 2) s := by
  rw [hb] at hr
  cases hr with
  | cons hs hx hrest =>
    have hstart : Stored (.localVar (localName 0) t) (2 * n + 1) [] _ :=
      stored_allocate (by rw [hp, Nat.add_comm]) hs hx
    rw [Nat.add_comm] at hstart
    exact hstart.runs (fun j hj => (Lowering.bounds_of_key hj).2) hrest

end Machine

end Symex
