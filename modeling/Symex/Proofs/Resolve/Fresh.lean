import Symex.Proofs.Resolve.Reads
import Symex.Proofs.Resolve.Requested
import Symex.Proofs.Resolve.Unbounded

/-!
# Made up indices, and the end of a pass

The index of an entry is a variable that is named after the printed array. Two of these names are the same only for
arrays that print alike, but nothing keeps them apart from the locals of the program. As long as no local has such a
name, what a made up index stands for holds no further one; then evaluation does not come back to where it was, and the
budgets of a pass are never what ends it.
-/

namespace Symex

namespace Resolve

/-! ### Names -/

/-- The number at the end of a name can be told from what is before it. -/
theorem indexName_inj {x y : String} {j k : Nat} : indexName x j = indexName y k ↔ x = y ∧ j = k := by
  refine ⟨fun h => ?_, fun ⟨hx, hj⟩ => by rw [hx, hj]⟩
  have hdigits : ∀ (z : String) (n : Nat), (indexName z n).toList.reverse.takeWhile Char.isDigit =
      (toString n).toList.reverse := by
    intro z n
    have hall : ∀ c ∈ (toString n).toList.reverse, c.isDigit = true := by
      intro c hc
      have hc : c ∈ Nat.toDigits 10 n := by simpa [Nat.toString_eq_ofList_toDigits] using hc
      exact Nat.isDigit_of_mem_toDigits (by decide) (by decide) hc
    have hx : ("_index" : String).toList.reverse = ['x', 'e', 'd', 'n', 'i', '_'] := by decide
    rw [indexName, String.toList_append, String.toList_append, List.reverse_append,
      List.takeWhile_append_of_pos hall, List.reverse_append, hx]
    simp
  have hnumber : (toString j).toList = (toString k).toList := by
    rw [← List.reverse_inj, ← hdigits x j, ← hdigits y k, h]
  have hlist := congrArg String.toList h
  simp only [indexName, String.toList_append, hnumber] at hlist
  have hxy : x = y := String.toList_inj.mp (List.append_cancel_right (List.append_cancel_right hlist))
  refine ⟨hxy, ?_⟩
  have hvalue := congrArg (Nat.ofDigitChars 10 · 0) hnumber
  simpa [Nat.toString_eq_ofList_toDigits] using hvalue

/-- The terms in the path, in the writes and in the values that are asked for. -/
def occurring (settings : Settings) (s : State) (values : List Sym) : List Term :=
  (s.path.atoms settings.useSoft).flatMap Atom.terms ++ writtenTerms s.memory.writes ++
    values.flatMap fun v => v.term.subterms

/-- `x` is the index of the entry `j` of an array in the store. -/
def IndexVariable (s : Store) (c : Container) (j : Nat) (x : Term) : Prop :=
  (∃ k, s.get? k = some (.container .array c)) ∧
    ∃ e y as, c.entries[j]? = some e ∧ s.get? e.1 = some (.primitive x y as)

theorem indexVariable_iff {p : Pass} {w : Work} (hw : Step p True {} w) {k : Handle} {c : Container}
    (hc : w.store.get? k = some (.container .array c)) {j : Nat} (hj : j < c.entries.length) {x : Term} :
    IndexVariable w.store c j x ↔ x = .localVar (indexName c.term.render j) .int := by
  have htraced : w.Traced p True := hw.keep (fun ha => ha.traced) Work.traced_empty
  obtain ⟨a, u, -, -, -, -, hlaid⟩ := htraced k c hc
  obtain ⟨g, hg⟩ : ∃ g, (groupsAt p u a c.term)[j]? = some g := ⟨_, List.getElem?_eq_getElem (hlaid.count ▸ hj)⟩
  have hindex := (hlaid.entries j g _ hg (List.getElem?_eq_getElem hj)).index
  constructor
  · rintro ⟨-, e, y, as, he, hx⟩
    cases (List.getElem?_eq_getElem hj).symm.trans he
    exact (Model.primitive.inj (Option.some.inj (hx.symm.trans hindex))).1
  · rintro rfl
    exact ⟨⟨k, hc⟩, _, _, _, List.getElem?_eq_getElem hj, hindex⟩

/-! ### What evaluation asks for -/

/-- What evaluation before the call (`false`) or after it (`true`) goes on with: the term that a made up one stands for,
the parts of a read, and the values of writes, which are terms over the heap before the call. -/
inductive Asks (h : Heap) (m : StandIns) : Bool × Term → Bool × Term → Prop
  | standIn {current : Bool} {t x : Term} (hx : m.find? t = some x) : Asks h m (current, x) (current, t)
  | part {current : Bool} {t u : Term} (ht : m.find? t = none) (hu : u ∈ t.parts) : Asks h m (current, u) (current, t)
  | written {t x : Term} {q : Place} (hx : h.writes.find? q = some x) : Asks h m (false, x) (true, t)

/-- No stand-in is in what another one stands for. -/
def StandIns.Settled (m : StandIns) : Prop := ∀ k x : Term, m.find? k = some x → ∀ u ∈ x.subterms, m.find? u = none

section Settled

variable {m : StandIns} (hm : m.Settled) (h : Heap)

include hm

theorem wellFounded_asks : WellFounded (Asks h m) := by
  have hpart : ∀ {t u k : Term}, u ∈ t.parts → k ∈ u.subterms → k ∈ t.subterms :=
    fun hu hk => List.mem_of_mem_tail (Term.mem_tail_of_part hu hk)
  -- Inside of what a stand-in stands for there are no others, so only parts are asked for, and they get smaller.
  have hplain : ∀ current, (current = true → ∀ x, Acc (Asks h m) (false, x)) →
      ∀ t, (∀ u ∈ t.subterms, m.find? u = none) → Acc (Asks h m) (current, t) := by
    intro current hbefore t
    induction t using Term.induction_on_parts with
    | step t ih =>
      intro ht
      refine ⟨_, fun y hy => ?_⟩
      cases hy with
      | standIn hx =>
        rw [ht t t.self_mem_subterms] at hx
        cases hx
      | part _ hu => exact ih _ hu fun k hk => ht k (hpart hu hk)
      | written => exact hbefore rfl _
  -- The first stand-in on the way down is therefore the last.
  have hterms : ∀ current, (current = true → ∀ x, Acc (Asks h m) (false, x)) → ∀ t, Acc (Asks h m) (current, t) := by
    intro current hbefore t
    induction t using Term.induction_on_parts with
    | step t ih =>
      refine ⟨_, fun y hy => ?_⟩
      cases hy with
      | standIn hx => exact hplain current hbefore _ (hm t _ hx)
      | part _ hu => exact ih _ hu
      | written => exact hbefore rfl _
  -- Values of writes are asked for before the call, where no writes are seen.
  have hfalse : ∀ t, Acc (Asks h m) (false, t) := hterms false nofun
  refine ⟨fun ⟨current, t⟩ => ?_⟩
  cases current with
  | false => exact hfalse t
  | true => exact hterms true (fun _ => hfalse) t

theorem evalLayer_settled (o : Place → Option (Option Value)) {f : Nat → Term → Option Value}
    (hf : ∀ n t, f (n + 1) t = h.evalLayer m o (f n) t) (t : Term) :
    f (m.size + 1) t = h.evalLayer m o (f (m.size + 1)) t := by
  rw [hf]
  refine evalLayer_congr h o fun u _ => ?_
  cases hx : m.find? u with
  | none => rfl
  | some x =>
    -- A layer is spent only on a stand-in, and there are none below this one: one layer is enough.
    obtain ⟨n, hn⟩ := Nat.exists_eq_succ_of_ne_zero (Nat.ne_of_gt (List.length_pos_of_mem (mem_of_lookup hx)))
    have hsize : m.size = n + 1 := hn
    have habsent := hm u x hx
    rw [Option.map_some, Option.map_some, hsize, hf n x, hf (n + 1) x, evalLayer_of_absent h o (f n) (f n) habsent,
      evalLayer_of_absent h o (f (n + 1)) (f n) habsent]

end Settled

/-- At this point of a pass nothing is cut short: evaluation comes to an end, its budget is enough for it, and a
reference that is asked for is answered the same with a larger budget. -/
structure Ends (p : Pass) (u : Work) : Prop where
  asks : WellFounded (Asks p.heap u.standIns)
  before : ∀ t, p.heap.before u.standIns t =
    p.heap.evalLayer u.standIns (fun _ => none) (p.heap.before u.standIns) t
  after : ∀ t, p.heap.after u.standIns t = p.heap.evalLayer u.standIns
    (fun q => (p.heap.writes.find? q).map (p.heap.before u.standIns)) (p.heap.after u.standIns) t
  reference : ∀ wrapper t extra, resolveReference p (p.bound + t.subterms.length + extra) wrapper t u =
    resolveReference p (p.bound + t.subterms.length) wrapper t u

theorem ends_of_standsIn {p : Pass} (hp : p.Ample)
    (hfree : ∀ array n, Term.localVar (indexName array n) .int ∉ p.atoms.flatMap Atom.terms) {u : Work}
    (hu : u.StandsIn p) : Ends p u := by
  have hsettled : u.standIns.Settled := by
    intro k x hx y hy
    refine Option.eq_none_iff_forall_ne_some.mpr fun z hz => ?_
    obtain ⟨⟨array, n, rfl⟩, -⟩ := hu y z hz
    exact hfree array n (subterm_mem_terms (hu k x hx).2 hy)
  exact
    { asks := wellFounded_asks hsettled p.heap
      before := evalLayer_settled hsettled p.heap _ fun _ _ => rfl
      after := evalLayer_settled hsettled p.heap _ fun _ _ => rfl
      reference := fun wrapper t extra => resolveReference_unbounded hp hu wrapper t extra }

theorem mem_occurring {settings : Settings} {s : State} {m : Assignment} {snapshot : Snapshot} {t : Term}
    (ht : t ∈ (Pass.start settings s m snapshot).atoms.flatMap Atom.terms) (values : List Sym) :
    t ∈ occurring settings s values := by
  obtain ⟨a, ha, hta⟩ := List.mem_flatMap.mp ht
  refine List.mem_append_left _ ?_
  rcases mem_path_or_written ha with h | ⟨w, hw, rfl⟩
  · exact List.mem_append_left _ (List.mem_flatMap.mpr ⟨a, h, hta⟩)
  · exact List.mem_append_right _ (List.mem_flatMap.mpr ⟨w, hw, hta⟩)

/-- If no local has the name of an index, then every index that is made up is new, arrays that print differently have
different ones, and at no point of the pass is anything cut short. -/
theorem resolve_fresh_ends (settings : Settings) (s : State) (m : Assignment) (snapshot : Snapshot) (values : List Sym)
    (hfree : ∀ array n, Term.localVar (indexName array n) .int ∉ occurring settings s values) :
    let p := Pass.start settings s m snapshot
    let store := (resolve settings s m snapshot values).store
    (∀ k c j, store.get? k = some (.container .array c) → j < c.entries.length → ∃ x, IndexVariable store c j x) ∧
    (∀ c j x, IndexVariable store c j x → x ∉ occurring settings s values) ∧
    (∀ c c' j j' x x', IndexVariable store c j x → IndexVariable store c' j' x' →
      (x = x' ↔ c.term.render = c'.term.render ∧ j = j')) ∧
    (∃ w, Relation.ReflTransGen (Action p True) {} w ∧ w.store = store) ∧
    ∀ u, Relation.ReflTransGen (Action p True) {} u → Ends p u := by
  intro p store
  have hstep := step_start settings s m snapshot values
  have hindex : ∀ {c j x}, IndexVariable store c j x → x = .localVar (indexName c.term.render j) .int := by
    rintro c j x hx
    obtain ⟨⟨k, hc⟩, e, y, as, he, -⟩ := id hx
    exact (indexVariable_iff hstep hc (List.getElem?_eq_some_iff.mp he).1).mp hx
  refine ⟨fun k c j hc hj => ⟨_, (indexVariable_iff hstep hc hj).mpr rfl⟩, ?_, ?_, ⟨_, hstep.actions, rfl⟩, ?_⟩
  · intro c j x hx
    rw [hindex hx]
    exact hfree _ _
  · intro c c' j j' x x' hx hx'
    rw [hindex hx, hindex hx', Term.localVar.injEq, indexName_inj]
    exact and_iff_left rfl
  · intro u hu
    have hstands : u.StandsIn p := keep_of_actions (fun ha => ha.standsIn) (Work.standsIn_empty p) hu
    exact ends_of_standsIn (ample_start settings s m snapshot) (fun array n h => hfree array n (mem_occurring h values))
      hstands

/-- A row of a matrix is read and then written. -/
def grid : State :=
  let g : Term := .param "g" (.array (.array .int))
  let i : Term := .localVar "i" .int
  let row : Term := .element g i (.array .int)
  { path := { hard := [.ne g .null, .eq (.length g) (.int 2), .eq i (.int 1), .ne row .null, .eq (.length row) (.int 3),
      .eq (.element row (.int 2) .int) (.int 7)] }
    memory := { writes := [.element row (.int 2) (.int 8)] } }

/-- The index of the row is in the name of the index of its element. -/
theorem resolve_fresh_ends_grid :
    let values : List Sym := [.ref (.param "g" (.array (.array .int))) none]
    ∃ m, Solver.check 1000 grid.path false = some m ∧
      (∀ array n, Term.localVar (indexName array n) .int ∉ occurring {} grid values) ∧
      let store := (resolve {} grid m .current values).store
      (∃ c c' x x', c.term.render = "g" ∧ c'.term.render = "g[g_index0]" ∧ IndexVariable store c 0 x ∧
        IndexVariable store c' 0 x' ∧ x ∉ occurring {} grid values ∧ x' ∉ occurring {} grid values ∧ x ≠ x') ∧
      ∀ u, Relation.ReflTransGen (Action (Pass.start {} grid m .current) True) {} u →
        Ends (Pass.start {} grid m .current) u := by
  intro values
  have hall : ∃ m ∈ Solver.check 1000 grid.path false,
      (∃ c ∈ arrayOf ((resolve {} grid m .current values).store.get? ⟨0⟩), c.term.render = "g" ∧ 0 < c.entries.length) ∧
      ∃ c ∈ arrayOf ((resolve {} grid m .current values).store.get? ⟨3⟩),
        c.term.render = "g[g_index0]" ∧ 0 < c.entries.length := by
    decide +kernel
  have hshort : ∀ t ∈ occurring {} grid values, t.isVariable = true → t.render.length < 6 := by decide +kernel
  obtain ⟨m, hm, ⟨c, hc, hrender, hcount⟩, c', hc', hrender', hcount'⟩ := hall
  have hfree := indexName_notMem_of_short hshort
  obtain ⟨hexists, hfresh, hsame, -, hends⟩ := resolve_fresh_ends {} grid m .current values hfree
  obtain ⟨x, hx⟩ := hexists _ c 0 (arrayOf_eq_some_iff.mp hc) hcount
  obtain ⟨x', hx'⟩ := hexists _ c' 0 (arrayOf_eq_some_iff.mp hc') hcount'
  refine ⟨m, hm, hfree, ⟨c, c', x, x', hrender, hrender', hx, hx', hfresh c 0 x hx, hfresh c' 0 x' hx', fun he => ?_⟩,
    hends⟩
  have heq := ((hsame c c' 0 0 x x' hx hx').mp he).1
  rw [hrender, hrender'] at heq
  exact absurd heq (by decide)

/-- The array is read at a local that has the name of its own index. -/
def selfIndexed : State :=
  let a : Term := .param "a" (.array .int)
  let i : Term := .localVar "a_index0" .int
  { path := { hard := [.ne a .null, .eq (.length a) (.int 2), .eq i (.int 0), .eq (.element a i .int) (.int 9)] } }

/-- A parameter and a local of the same name. -/
def alike : State :=
  let a : Term := .param "a" (.array .int)
  let b : Term := .localVar "a" (.array .int)
  { path := { hard := [.ne a .null, .ne b .null, .ne a b, .eq (.length a) (.int 2), .eq (.length b) (.int 2),
      .eq (.element a (.int 0) .int) (.int 9), .eq (.element b (.int 1) .int) (.int 9)] } }

/-- A made up index may be a local of the path, and may be the index of two arrays. If the array is read at that local,
the index stands for itself, and evaluation does not end. -/
theorem resolve_index_taken :
    let a : Term := .param "a" (.array .int)
    let x : Term := .localVar "a_index0" .int
    (∃ m ∈ Solver.check 1000 namesakeIndex.path false, x ∈ namesakeIndex.path.hard.flatMap Atom.terms ∧
      ∃ c, IndexVariable (resolve {} namesakeIndex m .initial [.ref a none]).store c 0 x) ∧
    (∃ m ∈ Solver.check 1000 alike.path false, ∃ c c', c.term ≠ c'.term ∧
      IndexVariable (resolve {} alike m .initial [.ref a none, .ref (.localVar "a" (.array .int)) none]).store c 0 x ∧
      IndexVariable (resolve {} alike m .initial [.ref a none, .ref (.localVar "a" (.array .int)) none]).store c' 0 x) ∧
    ∃ m ∈ Solver.check 1000 selfIndexed.path false,
      ¬ WellFounded (Asks (Pass.start {} selfIndexed m .initial).heap
        (resolveValues (Pass.start {} selfIndexed m .initial) [.ref a none] {}).2.standIns) := by
  intro a x
  have hindex : ∀ {s : State} {m : Assignment} {values : List Sym} {k : Handle} {c : Container},
      c ∈ arrayOf ((resolve {} s m .initial values).store.get? k) → c.term.render = "a" → 0 < c.entries.length →
      IndexVariable (resolve {} s m .initial values).store c 0 x := by
    intro s m values k c hc hrender hcount
    refine (indexVariable_iff (step_start {} s m .initial values) (arrayOf_eq_some_iff.mp hc) hcount).mpr ?_
    rw [hrender]
    rfl
  refine ⟨?_, ?_, ?_⟩
  · have hall : ∃ m ∈ Solver.check 1000 namesakeIndex.path false, x ∈ namesakeIndex.path.hard.flatMap Atom.terms ∧
        ∃ c ∈ arrayOf ((resolve {} namesakeIndex m .initial [.ref a none]).store.get? ⟨0⟩),
          c.term.render = "a" ∧ 0 < c.entries.length := by
      decide +kernel
    obtain ⟨m, hm, hmem, c, hc, hrender, hcount⟩ := hall
    exact ⟨m, hm, hmem, c, hindex hc hrender hcount⟩
  · have hall : ∃ m ∈ Solver.check 1000 alike.path false,
        ∃ c ∈ arrayOf ((resolve {} alike m .initial
          [.ref a none, .ref (.localVar "a" (.array .int)) none]).store.get? ⟨0⟩),
        ∃ c' ∈ arrayOf ((resolve {} alike m .initial
          [.ref a none, .ref (.localVar "a" (.array .int)) none]).store.get? ⟨4⟩),
          c.term ≠ c'.term ∧ (c.term.render = "a" ∧ 0 < c.entries.length) ∧
            c'.term.render = "a" ∧ 0 < c'.entries.length := by
      decide +kernel
    obtain ⟨m, hm, c, hc, c', hc', hne, ⟨hrender, hcount⟩, hrender', hcount'⟩ := hall
    exact ⟨m, hm, c, c', hne, hindex hc hrender hcount, hindex hc' hrender' hcount'⟩
  · have hall : ∃ m ∈ Solver.check 1000 selfIndexed.path false,
        (resolveValues (Pass.start {} selfIndexed m .initial) [.ref a none] {}).2.standIns.find? x = some x := by
      decide +kernel
    obtain ⟨m, hm, hself⟩ := hall
    have hloop : Asks (Pass.start {} selfIndexed m .initial).heap
        (resolveValues (Pass.start {} selfIndexed m .initial) [.ref a none] {}).2.standIns (false, x) (false, x) :=
      .standIn hself
    exact ⟨m, hm, fun hwf => hwf.asymmetric _ _ hloop hloop⟩

end Resolve

end Symex
