import Symex.Proofs.Data.Lookup
import Symex.Proofs.Machine.Trace

/-!
# Names that are bound

A statement reads its operands, and some statements give a value to a name. If every operand is a parameter or was
given a value before, then no state of a run stands before a statement with an operand that it has no value for.
-/

namespace Symex

namespace Stmt

/-- The names that a statement reads. -/
def operands : Stmt → List String
  | assignNull _ _ => []
  | copy _ src => [src]
  | construct _ _ args => args
  | produce _ _ args => args
  | invoke receiver _ args => receiver :: args
  | allocate _ _ _ length => [length]
  | store c k v => [c, k, v]

/-- The name that a statement gives a value to. -/
def dst? : Stmt → Option String
  | assignNull d _ => some d
  | copy d _ => some d
  | construct d _ _ => some d
  | produce d _ _ => some d
  | invoke .. => none
  | allocate d _ _ _ => some d
  | store .. => none

/-- Every operand is one of the given names, or was given a value by a statement before. -/
def Ordered (names : List String) (body : List Stmt) : Prop :=
  ∀ (i : Nat) (s : Stmt), body[i]? = some s → ∀ x ∈ s.operands, x ∈ names ∨ x ∈ (body.take i).filterMap dst?

end Stmt

namespace Machine

/-- `y` has values for all names that `x` has values for. -/
def Retains (x y : State) : Prop := ∀ name, (x.find? name).isSome → (y.find? name).isSome

theorem Retains.of_frame_eq {x y : State} (h : y.frame = x.frame) : Retains x y := by
  intro name hname
  rwa [State.find?, h]

theorem Retains.trans {x y z : State} (h : Retains x y) (k : Retains y z) : Retains x z :=
  fun name hname => k name (h name hname)

theorem retains_bind {x y : Exec} {name : String} {v : Sym} (h : x.bind name v = .ok y) :
    Retains x.state y.state ∧ (y.state.find? name).isSome := by
  obtain ⟨s, hs, hy⟩ := Exec.need_eq_ok.mp h
  cases hy
  refine ⟨fun other hother => ?_, ?_⟩
  · rw [State.find?_bind? hs]
    split
    · rfl
    · exact hother
  · rw [State.find?_bind? hs, if_pos rfl]
    rfl

theorem retains_allocate {x y : Exec} {dst : String} {t : Ty} {wrapper : Option Wrapper}
    (h : x.allocate dst t wrapper = .ok y) : Retains x.state y.state ∧ (y.state.find? dst).isSome :=
  retains_bind (x := x.assume _) h

theorem frame_applyAll {this : Term} {args : List Term} {es : List Effect} {x y : Exec}
    (h : es.foldlM (fun x e => e.apply this args x) x = .ok y) : y.state.frame = x.state.frame := by
  induction es generalizing x with
  | nil =>
    cases h
    rfl
  | cons e es ih =>
    rw [List.foldlM_cons] at h
    obtain ⟨z, hz, h⟩ := bind_eq_ok.mp h
    refine (ih h).trans ?_
    cases e with
    | copyArg f i =>
      obtain ⟨v, -, hz⟩ := Exec.need_eq_ok.mp hz
      cases hz
      rfl
    | setConst f n =>
      cases hz
      rfl
    | require i r n =>
      obtain ⟨v, -, hz⟩ := Exec.need_eq_ok.mp hz
      cases hz
      rfl

variable {m : Machine}

theorem frame_call {method : Method} {this : Term} {args : List Term} {x y : Exec}
    (h : m.call method this args x = .ok y) : y.state.frame = x.state.frame := by
  obtain ⟨es, -, h⟩ := Exec.need_eq_ok.mp h
  exact frame_applyAll h

theorem retains_create {dst : String} {method : Method} {args : List String} {x y : Exec}
    (h : m.create dst method args x = .ok y) : Retains x.state y.state ∧ (y.state.find? dst).isSome := by
  obtain ⟨ts, -, h⟩ := Exec.need_eq_ok.mp h
  obtain ⟨z, hz, h⟩ := bind_eq_ok.mp h
  obtain ⟨hkept, hdst⟩ := retains_allocate hz
  have hcall := Retains.of_frame_eq (frame_call h)
  exact ⟨hkept.trans hcall, hcall dst hdst⟩

theorem frame_invoke {receiver : String} {method : Method} {args : List String} {x y : Exec}
    (h : m.invoke receiver method args x = .ok y) : y.state.frame = x.state.frame := by
  obtain ⟨this, -, h⟩ := Exec.need_eq_ok.mp h
  split at h
  · cases h
  · obtain ⟨ts, -, h⟩ := Exec.need_eq_ok.mp h
    refine (frame_call h).trans ?_
    split <;> rfl

/-- A statement gives a value to its name and takes none away. -/
theorem retains_exec {x y : Exec} {stmt : Stmt} (h : m.exec x stmt = .ok y) :
    Retains x.state y.state ∧ ∀ name, stmt.dst? = some name → (y.state.find? name).isSome := by
  cases stmt with
  | assignNull dst t =>
    obtain ⟨hkept, hdst⟩ := retains_bind h
    exact ⟨hkept, fun name hname => Option.some.inj hname ▸ hdst⟩
  | copy dst src =>
    obtain ⟨v, -, h⟩ := Exec.need_eq_ok.mp h
    obtain ⟨hkept, hdst⟩ := retains_bind h
    exact ⟨hkept, fun name hname => Option.some.inj hname ▸ hdst⟩
  | construct dst method args =>
    obtain ⟨hkept, hdst⟩ := retains_create h
    exact ⟨hkept, fun name hname => Option.some.inj hname ▸ hdst⟩
  | produce dst method args =>
    obtain ⟨hkept, hdst⟩ := retains_create h
    exact ⟨hkept, fun name hname => Option.some.inj hname ▸ hdst⟩
  | invoke receiver method args => exact ⟨.of_frame_eq (frame_invoke h), nofun⟩
  | allocate dst kind t length =>
    obtain ⟨n, -, h⟩ := Exec.need_eq_ok.mp h
    obtain ⟨z, hz, h⟩ := bind_eq_ok.mp h
    cases h
    obtain ⟨hkept, hdst⟩ := retains_allocate hz
    exact ⟨hkept, fun name hname => Option.some.inj hname ▸ hdst⟩
  | store c key value =>
    obtain ⟨t, -, h⟩ := Exec.need_eq_ok.mp h
    obtain ⟨k, -, h⟩ := Exec.need_eq_ok.mp h
    obtain ⟨v, -, h⟩ := Exec.need_eq_ok.mp h
    cases h
    refine ⟨.of_frame_eq ?_, nofun⟩
    split <;> rfl

theorem Runs.retains {s t : State} {ls : List Stmt} (h : Runs m s ls t) :
    Retains s t ∧ ∀ name ∈ ls.filterMap Stmt.dst?, (t.find? name).isSome := by
  induction h with
  | nil h => exact ⟨.of_frame_eq h.frame, nofun⟩
  | @cons s t u x n stmt stmts h hx hr ih =>
    obtain ⟨hkept, hdst⟩ := retains_exec hx
    refine ⟨((Retains.of_frame_eq h.frame).trans hkept).trans ih.1, ?_⟩
    intro name hname
    obtain ⟨l, hl, hdst'⟩ := List.mem_filterMap.mp hname
    rcases List.mem_cons.mp hl with rfl | hl
    · exact ih.1 name (hdst name hdst')
    · exact ih.2 name (List.mem_filterMap.mpr ⟨l, hl, hdst'⟩)

/-! ### The states of a run -/

/-- The states that a machine comes to on a probe. States are checked as they are taken up, and those that have ended
are not run on. -/
inductive Visits (m : Machine) (p : Probe) : State → Prop
  | enter (id : Nat) : Visits m p (enter p id)
  | checked {s : State} (h : Visits m p s) : Visits m p { s with pending := false }
  | step {s t : State} {n : Nat} (h : Visits m p s) (hs : s.isTerminal = false) (ht : t ∈ (m.step p n s).1) :
      Visits m p t

variable {p : Probe} {s : State}

theorem Visits.tracks (h : Visits m p s) : Tracks m p s := by
  induction h with
  | enter id =>
    rcases tracks_enter m p with h | h
    · exact Or.inl h
    · exact Or.inr ⟨.nil ⟨rfl, rfl, rfl, rfl⟩, rfl, h.returned⟩
  | checked _ ih => exact ih.checked
  | step _ hs ht ih => exact ih.step hs _ _ ht

theorem isSome_find?_enter {x : String} (hx : x ∈ p.params.map Param.name) (id : Nat) :
    ((enter p id).find? x).isSome := by
  show ((OrderedTable.ofList _).find? x).isSome
  rw [Option.isSome_iff_exists]
  refine OrderedTable.exists_find?_ofList ?_
  rwa [List.map_map]

/-- A state that a machine comes to has values for all operands of the statement it stands before. -/
theorem Visits.bound (h : Visits m p s) (hbody : Stmt.Ordered (p.params.map Param.name) p.body)
    (hs : s.isTerminal = false) {stmt : Stmt} (hstmt : p.body[s.location]? = some stmt) :
    ∀ x ∈ stmt.operands, (s.find? x).isSome := by
  have hf : Follows m p s := by
    refine h.tracks.resolve_left fun ht => ?_
    simp [State.isTerminal, ht] at hs
  intro x hx
  obtain ⟨hkept, hdsts⟩ := hf.runs.retains
  rcases hbody s.location stmt hstmt x hx with hx | hx
  · exact hkept x (isSome_find?_enter hx 0)
  · exact hdsts x hx

end Machine

end Symex
