import Symex.Proofs.Data.Lookup
import Symex.Proofs.Machine.Simulate
import Symex.Proofs.Probe.Steps

/-!
# Runs of lowered plans

The statements of a plan without open holes are run: the locals of the plan are its own, so that nothing else is
touched, and in the end each name holds a term for what its recipe makes.
-/

namespace Symex

namespace Lowering

theorem not_isReference {t : Ty} (h : t.isPrimitive = true) : t.isReference = false := by
  by_contra hr
  rw [Ty.not_isPrimitive_of_isReference (Bool.eq_true_of_not_eq_false hr)] at h
  cases h

/-- Parameters of primitive types, named by their positions. -/
def Numbered (params : List Param) : Prop :=
  ∀ (i : Nat) (q : Param), params[i]? = some q → q.name = paramName i ∧ q.ty.isPrimitive = true

theorem Numbered.nodup {params : List Param} (h : Numbered params) : (params.map Param.name).Nodup := by
  rw [List.Nodup, List.pairwise_map, List.pairwise_iff_getElem]
  intro i j hi hj hij he
  rw [(h i _ (List.getElem?_eq_getElem hi)).1, (h j _ (List.getElem?_eq_getElem hj)).1] at he
  have hsame := paramName_inj he
  omega

theorem Numbered.inputs_eq {p : Probe} (h : Numbered p.params) :
    (Machine.enter p 0).inputs = p.params.map fun q => .prim (.param q.name q.ty) := by
  refine List.map_congr_left fun q hq => ?_
  obtain ⟨i, hi⟩ := List.getElem?_of_mem hq
  rw [not_isReference (h i q hi).2]
  rfl

end Lowering

open Lowering (localName paramName)

namespace Simulation

/-- The name of a local whose number is at least `i` and below `j`. -/
def Between (i j : Nat) (x : String) : Prop := ∃ k, i ≤ k ∧ k < j ∧ x = localName k

theorem Between.mono {i i' j j' : Nat} {x : String} (h : Between i j x) (hi : i' ≤ i) (hj : j ≤ j') :
    Between i' j' x := by
  obtain ⟨k, hik, hkj, rfl⟩ := h
  exact ⟨k, by omega, by omega, rfl⟩

theorem Between.disjoint {i j k : Nat} {x : String} (h : Between i j x) : ¬ Between j k x := by
  rintro ⟨n, hn, -, rfl⟩
  obtain ⟨l, -, hl, hx⟩ := h
  have hnl := Lowering.localName_inj hx
  omega

theorem not_between_paramName (i j k : Nat) : ¬ Between i j (paramName k) := by
  rintro ⟨n, -, -, h⟩
  exact Lowering.paramName_ne_localName k n h

/-- Nothing changes but at the locals with numbers from `i` on and below `j`. -/
structure Frame (i j : Nat) (s t : State) : Prop where
  le : i ≤ j
  find? : ∀ {x : String}, ¬ Between i j x → t.find? x = s.find? x
  last : ∀ {u : Term} {f : Field}, (∀ x y, u = .localVar x y → ¬ Between i j x) →
    t.memory.lastField u f = s.memory.lastField u f

theorem Frame.of_same {s t : State} (h : Machine.SameCore s t) (i : Nat) : Frame i i s t := by
  refine ⟨Nat.le_refl i, ?_, ?_⟩
  · intro x _
    rw [State.find?, State.find?, h.frame]
  · intro u f _
    rw [h.memory]

theorem Frame.trans {i i' j k : Nat} {r s t : State} (h : Frame i j r s) (g : Frame i' k s t) (hi : i ≤ i')
    (hj : j ≤ k) : Frame i k r t := by
  have hle := g.le
  refine ⟨by omega, ?_, ?_⟩
  · intro x hx
    rw [g.find? fun hb => hx (hb.mono hi (Nat.le_refl k)), h.find? fun hb => hx (hb.mono (Nat.le_refl i) hj)]
  · intro u f hu
    rw [g.last fun x y e hb => hu x y e (hb.mono hi (Nat.le_refl k)),
      h.last fun x y e hb => hu x y e (hb.mono (Nat.le_refl i) hj)]

variable {z : Simulation}

/-- The parameters are bound to themselves. -/
def Bound (z : Simulation) (s : State) : Prop :=
  ∀ {i : Nat} {q : Param}, z.params[i]? = some q →
    q.name = paramName i ∧ ∃ v : Sym, s.find? q.name = some v ∧ v.term = .param q.name q.ty

theorem Bound.frame {i j : Nat} {s t : State} (h : z.Bound s) (hf : Frame i j s t) : z.Bound t := by
  intro k q hq
  obtain ⟨hname, v, hv, ht⟩ := h hq
  refine ⟨hname, v, ?_, ht⟩
  rw [hf.find? (by rw [hname]; exact not_between_paramName i j k)]
  exact hv

theorem bound_enter {p : Probe} (hp : Lowering.Numbered p.params) (hz : z.params = p.params) :
    z.Bound (Machine.enter p 0) := by
  intro i q hq
  rw [hz] at hq
  obtain ⟨hname, hprim⟩ := hp i q hq
  refine ⟨hname, .prim (.param q.name q.ty), ?_, rfl⟩
  show (OrderedTable.ofList _).find? q.name = _
  rw [OrderedTable.find?_ofList_of_nodup (by rw [List.map_map]; exact hp.nodup)]
  refine List.mem_map.mpr ⟨q, List.mem_of_getElem? hq, ?_⟩
  dsimp only
  rw [Lowering.not_isReference hprim]
  rfl

/-- A name holds a term for what its recipe makes; if it is an object, its local is one of the plan's own. -/
structure Stands (z : Simulation) (i j : Nat) (s : State) (e : String × Recipe) (item : Item) : Prop where
  makes : Makes z.machine z.values e.2 item
  name : (∃ k, e.1 = paramName k) ∨ Between i j e.1
  holds : ∃ v : Sym, s.find? e.1 = some v ∧ z.Shows s.memory v.term item ∧
    ∀ x y, v.term = .localVar x y → Between i j x

theorem Shows.of_last {mem mem' : Memory} {t : Term} {item : Item}
    (h : z.Shows mem t item) (hl : ∀ x y, t = .localVar x y → ∀ f, mem'.lastField t f = mem.lastField t f) :
    z.Shows mem' t item := by
  cases item with
  | value v => exact h
  | null => exact h
  | object fs =>
    obtain ⟨⟨x, y, hxy⟩, hshown⟩ := h
    refine ⟨⟨x, y, hxy⟩, ?_⟩
    intro f hf
    obtain ⟨u, v, hu, hv, hd⟩ := hshown f hf
    exact ⟨u, v, (hl x y hxy f).trans hu, hv, hd⟩

theorem Stands.later {i j k : Nat} {s t : State} {e : String × Recipe} {item : Item} (h : z.Stands i j s e item)
    (hf : Frame j k s t) : z.Stands i k t e item := by
  obtain ⟨v, hv, hshows, hlocal⟩ := h.holds
  have hname : ¬ Between j k e.1 := by
    rcases h.name with ⟨n, hn⟩ | hb
    · rw [hn]
      exact not_between_paramName j k n
    · exact hb.disjoint
  refine ⟨h.makes, h.name.imp_right fun hb => hb.mono (Nat.le_refl i) hf.le, v, ?_, ?_, ?_⟩
  · rw [hf.find? hname]
    exact hv
  · refine hshows.of_last fun x y hxy f => hf.last ?_
    rintro x' y' hxy' hb
    exact (hlocal x' y' hxy').disjoint hb
  · exact fun x y hxy => (hlocal x y hxy).mono (Nat.le_refl i) hf.le

theorem Stands.mono {i i' j : Nat} {s : State} {e : String × Recipe} {item : Item} (h : z.Stands i j s e item)
    (hi : i' ≤ i) : z.Stands i' j s e item := by
  obtain ⟨v, hv, hshows, hlocal⟩ := h.holds
  exact ⟨h.makes, h.name.imp_right fun hb => hb.mono hi (Nat.le_refl j), v, hv, hshows,
    fun x y hxy => (hlocal x y hxy).mono hi (Nat.le_refl j)⟩

/-- The outcome of running the statements of plans of the types `ts`. -/
structure Simulates (z : Simulation) (ts : List Ty) (i j : Nat) (s t : State) (es : List (String × Recipe))
    (items : List Item) : Prop where
  frame : Frame i j s t
  stands : List.Forall₂ (z.Stands i j t) es items
  kinds : List.Forall₂ (fun (ty : Ty) item => ty.isPrimitive = true ↔ ∃ v, item = .value v) ts items

theorem kind_of_not_primitive {ty : Ty} (hty : ty.isPrimitive = false) {item : Item} (hitem : ∀ v, item ≠ .value v) :
    ty.isPrimitive = true ↔ ∃ v, item = .value v := by
  constructor
  · intro h
    rw [hty] at h
    cases h
  · rintro ⟨v, hv⟩
    exact absurd hv (hitem v)

theorem Simulates.cons {ty : Ty} {ts : List Ty} {i j k : Nat} {r s t : State} {e : String × Recipe}
    {es : List (String × Recipe)} {item : Item} {items : List Item} (hf : Frame i j r s) (hs : z.Stands i j s e item)
    (hk : ty.isPrimitive = true ↔ ∃ v, item = .value v) (h : z.Simulates ts j k s t es items) :
    z.Simulates (ty :: ts) i k r t (e :: es) (item :: items) :=
  ⟨hf.trans h.frame hf.le h.frame.le, .cons (hs.later h.frame) (h.stands.imp fun _ _ hs => hs.mono hf.le), .cons hk h.kinds⟩

theorem Simulates.args {method : Method} {i j : Nat} {s t : State} {ys : List String} {ss : List Recipe}
    {items : List Item} (hlen : ys.length = ss.length) (h : z.Simulates method.params i j s t (ys.zip ss) items)
    {x : Exec} (hx : Machine.SameCore t x.state) {terms : List Term} (hops : x.operands? ys = some terms) :
    z.Args method terms items := by
  have hnames : List.Forall₂ (fun y item => ∃ v : Sym, t.find? y = some v ∧ z.Shows t.memory v.term item) ys items := by
    have hmap : List.Forall₂ (fun y item => ∃ v : Sym, t.find? y = some v ∧ z.Shows t.memory v.term item)
        ((ys.zip ss).map Prod.fst) items :=
      List.forall₂_map_left_iff.mpr (h.stands.imp fun _ _ hs => hs.holds.imp fun _ hv => ⟨hv.1, hv.2.1⟩)
    rwa [List.map_fst_zip hlen.le] at hmap
  have hterms : List.Forall₂ (fun y u => x.operand? y = some u) ys terms := mapM_eq_some.mp hops
  refine ⟨hterms.length_eq.symm.trans hnames.length_eq, ?_⟩
  intro n u hint hu
  obtain ⟨hn, rfl⟩ := List.getElem?_eq_some_iff.mp hu
  have hny : n < ys.length := hterms.length_eq ▸ hn
  have hni : n < items.length := hnames.length_eq ▸ hny
  obtain ⟨sym, hfind, hshows⟩ := hnames.get hny hni
  have hterm : sym.term = terms[n] := by
    have hop := hterms.get hny hn
    rw [Exec.operand?, State.find?, hx.frame, ← State.find?, hfind] at hop
    exact Option.some.inj hop
  -- The parameter is a number, so what stands for it is a value.
  obtain ⟨hp, hpe⟩ := List.getElem?_eq_some_iff.mp hint
  obtain ⟨v, hv⟩ := (h.kinds.get hp hni).mp (by rw [List.get_eq_getElem, hpe]; rfl)
  refine ⟨v, (List.getElem?_eq_getElem hni).trans (congrArg some hv), ?_⟩
  rw [hv, hterm] at hshows
  exact hshows

/-! ### The statements of plans -/

theorem find?_of_bind {x y : Exec} {name : String} {v : Sym} (h : x.bind name v = .ok y) (other : String) :
    y.state.find? other = if other = name then some v else x.state.find? other := by
  obtain ⟨s, hs, hy⟩ := Exec.need_eq_ok.mp h
  cases hy
  exact State.find?_bind? hs

theorem memory_of_bind {x y : Exec} {name : String} {v : Sym} (h : x.bind name v = .ok y) :
    y.state.memory = x.state.memory := by
  obtain ⟨s, hs, hy⟩ := Exec.need_eq_ok.mp h
  cases hy
  obtain ⟨f, -, rfl⟩ := Option.map_eq_some_iff.mp hs
  rfl

theorem frame_of_bind {k : Nat} {s : State} {x y : Exec} {v : Sym} (h : x.bind (localName k) v = .ok y)
    (hf : x.state.frame = s.frame) (hm : x.state.memory = s.memory) : Frame k (k + 1) s y.state := by
  refine ⟨Nat.le_succ k, ?_, ?_⟩
  · intro other ho
    have hne : other ≠ localName k := fun e => ho ⟨k, Nat.le_refl k, Nat.lt_succ_self k, e⟩
    rw [find?_of_bind h, if_neg hne, State.find?, State.find?, hf]
  · intro u f _
    rw [memory_of_bind h, hm]

theorem between_self (k : Nat) : Between k (k + 1) (localName k) := ⟨k, Nat.le_refl k, Nat.lt_succ_self k, rfl⟩

theorem stands_null {k : Nat} {s : State} {x y : Exec} {t : Ty} (hs : Machine.SameCore s x.state)
    (h : x.bind (localName k) (.ref .null none) = .ok y) :
    Frame k (k + 1) s y.state ∧ z.Stands k (k + 1) y.state (localName k, .null (localName k) t) .null := by
  refine ⟨frame_of_bind h hs.frame hs.memory, .null _ _, Or.inr (between_self k), .ref .null none, ?_, rfl, ?_⟩
  · rw [find?_of_bind h, if_pos rfl]
  · intro x y hxy
    cases hxy

section Statements

variable (hz : z.Fair) {method : Method} (hc : method ∈ z.machine.catalog.methods) {s : State} {x y : Exec}
  (hs : Machine.SameCore s x.state)

include hz hc hs

/-- A constructor or a factory makes what its recipe makes. -/
theorem stands_create (hk : method.kind ≠ .modifier) {k : Nat} {ys : List String} {ss : List Recipe}
    {items : List Item} (hmakes : List.Forall₂ (fun e item => Makes z.machine z.values e item) ss items)
    (hargs : ∀ {terms}, x.operands? ys = some terms → z.Args method terms items)
    (hx : z.machine.create (localName k) method ys x = .ok y) (hy : z.Satisfies y.state) :
    ∃ fs, Frame k (k + 1) s y.state ∧
      z.Stands k (k + 1) y.state (localName k, .create (localName k) method ss) (.object fs) := by
  obtain ⟨terms, hterms, hx⟩ := Exec.need_eq_ok.mp hx
  obtain ⟨x₁, halloc, hcall⟩ := bind_eq_ok.mp hx
  obtain ⟨fs, hperform, heff⟩ := call_apply hz (hargs hterms) [] hc hcall hy
  -- The assumption that the new value is not null changes neither the locals nor the memory.
  have hbind : (x.assume (.ne (.localVar (localName k) method.produced) .null)).bind (localName k)
      (.ref (.localVar (localName k) method.produced) none) = .ok x₁ := halloc
  have hframe : Frame k (k + 1) s x₁.state := frame_of_bind hbind hs.frame hs.memory
  have hfind : y.state.find? (localName k) = some (.ref (.localVar (localName k) method.produced) none) := by
    rw [State.find?, heff.touches.frame]
    show x₁.state.find? (localName k) = _
    rw [find?_of_bind hbind, if_pos rfl]
  refine ⟨fs, ⟨hframe.le, ?_, ?_⟩, ?_, Or.inr (between_self k), _, hfind, ⟨⟨_, _, rfl⟩, ?_⟩, ?_⟩
  · intro other ho
    rw [State.find?, heff.touches.frame]
    exact hframe.find? ho
  · intro u f hu
    rw [heff.touches.other fun e => hu _ _ e (between_self k)]
    exact hframe.last hu
  · exact .create hmakes.length_eq (fun e he => (List.forall₂_iff_zip.mp hmakes).2 he) hperform
  · exact fun f hf => heff.shown hf (Or.inl hk)
  · intro a b hab
    cases hab
    exact between_self k

/-- A modifier makes what its recipe makes of an object, and does not get past null. -/
theorem stands_change {i j : Nat} {name : String} {r : Recipe} {item : Item} (hr : z.Stands i j s (name, r) item)
    (hitem : ∀ v, item ≠ .value v) {ys : List String} {ss : List Recipe} {items : List Item}
    (hmakes : List.Forall₂ (fun e item => Makes z.machine z.values e item) ss items)
    (hargs : ∀ {terms}, x.operands? ys = some terms → z.Args method terms items)
    (hx : z.machine.invoke name method ys x = .ok y) (hy : z.Satisfies y.state) (hij : i ≤ j) :
    ∃ fs, Frame i j s y.state ∧ z.Stands i j y.state (name, .change name method r ss) (.object fs) := by
  obtain ⟨v, hv, hshows, hlocal⟩ := hr.holds
  obtain ⟨this, hthis, hx⟩ := Exec.need_eq_ok.mp hx
  have hfind : x.state.find? name = some v := by
    rw [← hv, State.find?, State.find?, hs.frame]
  rw [Exec.operand?, hfind] at hthis
  cases hthis
  cases item with
  | value u => exact absurd rfl (hitem u)
  | null =>
    have hnull : v.term = .null := hshows
    rw [hnull] at hx
    cases hx
  | object fs =>
    obtain ⟨⟨a, b, hab⟩, hshown⟩ := hshows
    have hbetween := hlocal a b hab
    rw [hab] at hx hshown
    obtain ⟨terms, hterms, hcall⟩ := Exec.need_eq_ok.mp hx
    obtain ⟨fs', hperform, heff⟩ := call_apply hz (hargs hterms) fs hc hcall hy
    have hfind' : y.state.find? name = some v := by
      rw [State.find?, heff.touches.frame]
      exact hfind
    refine ⟨fs', ⟨hij, ?_, ?_⟩, ?_, hr.name, v, hfind', ?_, hlocal⟩
    · intro other _
      rw [State.find?, heff.touches.frame, State.find?, hs.frame]
    · intro u f hu
      rw [heff.touches.other fun e => hu a b e hbetween, hs.memory]
    · exact .change hr.makes hmakes.length_eq (fun e he => (List.forall₂_iff_zip.mp hmakes).2 he) hperform
    · rw [hab]
      refine ⟨⟨a, b, rfl⟩, ?_⟩
      intro f hf
      refine heff.shown hf (Or.inr ?_)
      rw [hs.memory]
      exact hshown f hf

end Statements

theorem makes_of_stands {i j : Nat} {s : State} {ys : List String} {ss : List Recipe} {items : List Item}
    (hlen : ys.length = ss.length) (h : List.Forall₂ (z.Stands i j s) (ys.zip ss) items) :
    List.Forall₂ (fun e item => Makes z.machine z.values e item) ss items := by
  have hmap : List.Forall₂ (fun e item => Makes z.machine z.values e item) ((ys.zip ss).map Prod.snd) items :=
    List.forall₂_map_left_iff.mpr (h.imp fun _ _ hs => hs.makes)
  rwa [List.map_snd_zip hlen.ge] at hmap

end Simulation

/-! ### Plans -/

namespace Plan

/-- Plans without open holes have parameters of primitive types only. -/
theorem Lowered.numbered {ps : List Plan} {w w' : Lowering} {xs : List String} {rs : List Recipe}
    (h : Lowered ps w xs rs w') (hclosed : holesAll ps = 0) (hw : Lowering.Numbered w.params) :
    Lowering.Numbered w'.params := by
  induction h with
  | nil w => exact hw
  | @hole ty ps w w' xs rs h ih =>
    obtain ⟨hprim, hclosed⟩ : ty.isPrimitive = true ∧ holesAll ps = 0 := by
      simpa [holesAll, holes] using hclosed
    refine ih hclosed ?_
    intro i q hq
    have hq' : (w.params ++ [⟨paramName w.params.length, ty⟩])[i]? = some q := hq
    by_cases hi : i < w.params.length
    · rw [List.getElem?_append_left hi] at hq'
      exact hw i q hq'
    · rw [List.getElem?_append_right (Nat.le_of_not_lt hi), List.getElem?_singleton] at hq'
      split at hq'
      next hzero =>
        cases hq'
        have hlen : w.params.length = i := by omega
        exact ⟨congrArg paramName hlen, hprim⟩
      next => cases hq'
  | null _ ih => exact ih (by simpa [holesAll, holes] using hclosed) hw
  | create _ _ _ iha ih =>
    have hboth := Nat.add_eq_zero_iff.mp hclosed
    exact ih hboth.2 (iha hboth.1 hw)
  | change _ _ _ iha ih =>
    have hboth := Nat.add_eq_zero_iff.mp hclosed
    exact ih hboth.2 (iha hboth.1 hw)

theorem Lowered.split_body {ps : List Plan} {u w' : Lowering} {xs : List String} {rs : List Recipe}
    (h : Lowered ps u xs rs w') {before first stmts : List Stmt} (hu : u.body = before ++ first)
    (hb : w'.body = before ++ stmts) : ∃ rest, w'.body = u.body ++ rest ∧ stmts = first ++ rest := by
  obtain ⟨rest, hrest⟩ := h.grows.2.1
  refine ⟨rest, hrest.symm, ?_⟩
  rw [← hrest, hu, List.append_assoc] at hb
  exact (List.append_cancel_left hb).symm

theorem forall₂_fits {c : Catalog} {ts : List Ty} {ps : List Plan} (hlen : ts.length = ps.length)
    (h : ∀ x ∈ ts.zip ps, Fits c x.1 x.2) : List.Forall₂ (Fits c) ts ps :=
  List.forall₂_iff_zip.mpr ⟨hlen, fun hx => h _ hx⟩

variable {z : Simulation}

/-- Running the statements that plans without open holes were lowered to. -/
def Simulated (z : Simulation) (ps : List Plan) (w : Lowering) (xs : List String) (rs : List Recipe) (w' : Lowering) :
    Prop :=
  ∀ {ts : List Ty} {stmts : List Stmt} {s t : State}, List.Forall₂ (Fits z.machine.catalog) ts ps → holesAll ps = 0 →
    w'.body = w.body ++ stmts → w'.params <+: z.params → Machine.Runs z.machine s stmts t → z.Bound s →
    z.Satisfies t → ∃ items, z.Simulates ts w.named w'.named s t (xs.zip rs) items

section

variable {ps : List Plan} {w w' : Lowering} {xs : List String} {rs : List Recipe}

/-- A hole is lowered to a parameter, which is there from the start. -/
theorem simulated_hole (hz : z.Fair) {ty : Ty} (h : Lowered ps (w.param ty).2 xs rs w')
    (ih : Simulated z ps (w.param ty).2 xs rs w') :
    Simulated z (hole ty :: ps) w ((w.param ty).1.1 :: xs) ((w.param ty).1.2 :: rs) w' := by
  intro ts stmts s t hfit hclosed hbody hparams hrun hbound hsat
  obtain ⟨_, ts, hft, hrest, rfl⟩ := List.forall₂_cons_right_iff.mp hfit
  cases hft
  obtain ⟨hprim, hclosed⟩ : ty.isPrimitive = true ∧ holesAll ps = 0 := by
    simpa [holesAll, holes] using hclosed
  obtain ⟨items, hitems⟩ := ih hrest hclosed hbody hparams hrun hbound hsat
  have hparam : z.params[w.params.length]? = some ⟨paramName w.params.length, ty⟩ := by
    have hpre : w.params ++ [⟨paramName w.params.length, ty⟩] <+: z.params := h.grows.1.trans hparams
    obtain ⟨more, hmore⟩ := hpre
    rw [← hmore]
    simp
  obtain ⟨v, hv⟩ : ∃ v, z.values[w.params.length]? = some v := by
    have hlt : w.params.length < z.values.length := by
      rw [hz.length_eq]
      exact (List.getElem?_eq_some_iff.mp hparam).1
    exact ⟨_, List.getElem?_eq_getElem hlt⟩
  obtain ⟨-, u, hu, hterm⟩ := hbound hparam
  have hstands : z.Stands w.named w.named s (paramName w.params.length, .param w.params.length) (.value v) := by
    refine ⟨.param hv, Or.inl ⟨_, rfl⟩, u, hu, Or.inr ⟨_, _, hparam, hterm, hv⟩, ?_⟩
    intro x y hxy
    rw [hterm] at hxy
    cases hxy
  exact ⟨_, hitems.cons (.of_same (.refl s) w.named) hstands ⟨fun _ => ⟨v, rfl⟩, fun _ => hprim⟩⟩

theorem simulated_null {ty : Ty} (h : Lowered ps (w.null ty).2 xs rs w') (ih : Simulated z ps (w.null ty).2 xs rs w') :
    Simulated z (null ty :: ps) w ((w.null ty).1.1 :: xs) ((w.null ty).1.2 :: rs) w' := by
  intro ts stmts s t hfit hclosed hbody hparams hrun hbound hsat
  obtain ⟨_, ts, hft, hrest, rfl⟩ := List.forall₂_cons_right_iff.mp hfit
  cases hft with
  | null hprim =>
    have hclosed : holesAll ps = 0 := by simpa [holesAll, holes] using hclosed
    have hbody₁ : (w.null ty).2.body = w.body ++ [.assignNull (localName w.named) ty] := rfl
    obtain ⟨rest, hbody₂, rfl⟩ := h.split_body hbody₁ hbody
    cases hrun with
    | cons hs hx hrun =>
      obtain ⟨hframe, hstands⟩ := Simulation.stands_null (z := z) (t := ty) hs hx
      obtain ⟨items, hitems⟩ := ih hrest hclosed hbody₂ hparams hrun (hbound.frame hframe) hsat
      exact ⟨_, hitems.cons hframe hstands (Simulation.kind_of_not_primitive hprim fun _ => nofun)⟩

variable {m : Method} {as : List Plan} {u : Lowering}

theorem simulated_create (hz : z.Fair) {ys : List String} {ss : List Recipe} (hm : m.kind ≠ .modifier)
    (ha : Lowered as w ys ss u) (h : Lowered ps (u.create m ys ss).2 xs rs w') (iha : Simulated z as w ys ss u)
    (ih : Simulated z ps (u.create m ys ss).2 xs rs w') :
    Simulated z (call m as :: ps) w ((u.create m ys ss).1.1 :: xs) ((u.create m ys ss).1.2 :: rs) w' := by
  intro ts stmts s t hfit hclosed hbody hparams hrun hbound hsat
  obtain ⟨_, ts, hft, hrest, rfl⟩ := List.forall₂_cons_right_iff.mp hfit
  cases hft with
  | call hc hprim hlen hps =>
    obtain ⟨hopen, hclosed⟩ : holesAll as = 0 ∧ holesAll ps = 0 := by simpa [holesAll, holes] using hclosed
    rw [Method.operands, if_neg hm] at hlen hps
    obtain ⟨stmts₁, hbody₁⟩ := ha.grows.2.1
    obtain ⟨rest, hbody₂, rfl⟩ := h.split_body
      (by show u.body ++ _ = _; rw [← hbody₁, List.append_assoc]) hbody
    rw [List.append_assoc] at hrun
    obtain ⟨s₁, hrun₁, hrun⟩ := hrun.split
    cases hrun with
    | @cons _ s₂ _ y n _ _ hs hx hrun =>
      obtain ⟨items, hargs⟩ := iha (forall₂_fits hlen hps) hopen hbody₁.symm (h.grows.1.trans hparams) hrun₁ hbound
        fun a hmem => hsat a ((Machine.Runs.cons hs hx hrun).hard a hmem)
      have hx : z.machine.create (localName u.named) m ys { state := s₂, next := n } = .ok y := by
        by_cases hk : m.kind = .constructor
        · rwa [if_pos hk] at hx
        · rwa [if_neg hk] at hx
      obtain ⟨fs, hframe, hstands⟩ := Simulation.stands_create hz hc hs hm
        (Simulation.makes_of_stands ha.grows.2.2 hargs.stands) (fun hops => hargs.args ha.grows.2.2 hs hops) hx
        fun a hmem => hsat a (hrun.hard a hmem)
      have hframe' := hargs.frame.trans hframe hargs.frame.le hframe.le
      obtain ⟨more, hmore⟩ := ih hrest hclosed hbody₂ hparams hrun (hbound.frame hframe') hsat
      exact ⟨_, hmore.cons hframe' (hstands.mono hargs.frame.le)
        (Simulation.kind_of_not_primitive hprim fun _ h => by cases h)⟩

theorem simulated_change (hz : z.Fair) {p : Plan} {y : String} {ys : List String} {r : Recipe} {ss : List Recipe}
    (hm : m.kind = .modifier) (ha : Lowered (p :: as) w (y :: ys) (r :: ss) u)
    (h : Lowered ps (u.emit (.invoke y m ys)) xs rs w') (iha : Simulated z (p :: as) w (y :: ys) (r :: ss) u)
    (ih : Simulated z ps (u.emit (.invoke y m ys)) xs rs w') :
    Simulated z (call m (p :: as) :: ps) w (y :: xs) (.change y m r ss :: rs) w' := by
  intro ts stmts s t hfit hclosed hbody hparams hrun hbound hsat
  obtain ⟨_, ts, hft, hrest, rfl⟩ := List.forall₂_cons_right_iff.mp hfit
  cases hft with
  | call hc hprim hlen hps =>
    obtain ⟨hopen, hclosed⟩ : holesAll (p :: as) = 0 ∧ holesAll ps = 0 := by
      simpa [holesAll, holes] using hclosed
    rw [Method.operands, if_pos hm] at hlen hps
    obtain ⟨stmts₁, hbody₁⟩ := ha.grows.2.1
    obtain ⟨rest, hbody₂, rfl⟩ := h.split_body
      (by show u.body ++ _ = _; rw [← hbody₁, List.append_assoc]) hbody
    rw [List.append_assoc] at hrun
    obtain ⟨s₁, hrun₁, hrun⟩ := hrun.split
    cases hrun with
    | cons hs hx hrun =>
      obtain ⟨items, hargs⟩ := iha (forall₂_fits hlen hps) hopen hbody₁.symm (h.grows.1.trans hparams) hrun₁ hbound
        fun a hmem => hsat a ((Machine.Runs.cons hs hx hrun).hard a hmem)
      obtain ⟨hframe, hstands, hkinds⟩ := hargs
      cases hstands with
      | @cons _ item _ items hreceiver hstands =>
        obtain ⟨hkind, hkinds⟩ := List.forall₂_cons.mp hkinds
        have hlen' : ys.length = ss.length := Nat.succ.inj ha.grows.2.2
        have hargs : z.Simulates m.params w.named u.named s s₁ (ys.zip ss) items := ⟨hframe, hstands, hkinds⟩
        have hitem : ∀ v, item ≠ .value v := by
          intro v hv
          rw [hkind.mpr ⟨v, hv⟩] at hprim
          cases hprim
        obtain ⟨fs, hframe', hstands'⟩ := Simulation.stands_change hz hc hs hreceiver hitem
          (Simulation.makes_of_stands hlen' hstands) (fun hops => hargs.args hlen' hs hops) hx
          (fun a hmem => hsat a (hrun.hard a hmem)) hframe.le
        have hframe₂ := hframe.trans hframe' (Nat.le_refl _) (Nat.le_refl _)
        obtain ⟨more, hmore⟩ := ih hrest hclosed hbody₂ hparams hrun (hbound.frame hframe₂) hsat
        exact ⟨_, hmore.cons hframe₂ hstands' (Simulation.kind_of_not_primitive hprim fun _ h => by cases h)⟩

end

/-- Running the statements that plans without open holes were lowered to leaves in every name a term for what its
recipe makes. -/
theorem Lowered.simulated (hz : z.Fair) {ps : List Plan} {w w' : Lowering} {xs : List String} {rs : List Recipe}
    (h : Lowered ps w xs rs w') : Simulated z ps w xs rs w' := by
  induction h with
  | nil w =>
    intro ts stmts s t hfit _ hbody _ hrun _ _
    cases hfit
    rw [List.self_eq_append_right.mp hbody] at hrun
    cases hrun with
    | nil hs => exact ⟨[], .of_same hs w.named, .nil, .nil⟩
  | hole h ih => exact simulated_hole hz h ih
  | null h ih => exact simulated_null h ih
  | create hm ha h iha ih => exact simulated_create hz hm ha h iha ih
  | change hm ha h iha ih => exact simulated_change hz hm ha h iha ih

end Plan

end Symex
