import Symex.Proofs.Machine.Trace

/-!
# A step divides the values that a state admits

Values for all terms, with constants standing for themselves, may or may not make the hard atoms of a state true.
Whenever running a statement demands something, a sibling goes on where it is false and the state itself where it is
true, so the number of states that admit given values does not change. Everything else that is assumed is that a new
object is not null. So of the states that a step gives exactly one admits the values that the stepped state admits.
-/

namespace Symex

/-! ### Values for all terms -/

/-- Whether an atom is true, given values for all terms. -/
def Atom.isTrue (val : Term → Value) (a : Atom) : Bool := a.relation.holds (val a.lhs) (val a.rhs)

/-- Whether all hard atoms of a state are true, given values for all terms. -/
def State.admits (val : Term → Value) (s : State) : Bool := s.path.hard.all fun a => a.isTrue val

variable (val : Term → Value)

@[simp] theorem Atom.isTrue_negate (a : Atom) : a.negate.isTrue val = !a.isTrue val :=
  a.relation.holds_negate _ _

theorem Atom.isTrue_ne_null (hconst : ∀ c, val (.const c) = c) {t : Term} (ht : val t ≠ .null) :
    (Atom.ne t .null).isTrue val = true := by
  have hnull : val .null = .null := hconst _
  simp [Atom.isTrue, Atom.ne, Relation.holds, hnull, ht]

@[simp] theorem State.admits_assume (s : State) (a : Atom) :
    (s.assume a).admits val = (s.admits val && a.isTrue val) := by
  rw [Bool.eq_iff_iff]
  simp only [State.admits, State.hard_assume, List.all_eq_true, Path.mem_addTo, Bool.and_eq_true]
  constructor
  · intro h
    exact ⟨fun b hb => h b (Or.inl hb), h a (Or.inr rfl)⟩
  · rintro ⟨hs, ha⟩ b (hb | rfl)
    · exact hs b hb
    · exact ha

/-! ### Running a statement -/

/-- Where a run got, whether it goes on or is stuck. -/
def Run.reached : Run → Exec
  | .ok x => x
  | .error x => x

namespace Exec

/-- How many of the states there are so far admit the values. -/
def admitted (x : Exec) : Nat := (x.state :: x.siblings).countP (·.admits val)

/-- As many states admit the values as before. -/
def Divides (x : Exec) (r : Run) : Prop := r.reached.admitted val = x.admitted val

variable {val} {x : Exec}

theorem divides_of_eq {y : Exec} {r : Run} (hr : r.reached = y) (hstate : y.state.path = x.state.path)
    (hsiblings : y.siblings = x.siblings) : x.Divides val r := by
  simp only [Divides, admitted, List.countP_cons, State.admits, hr, hstate, hsiblings]

theorem admitted_assume {a : Atom} (ha : a.isTrue val = true) : (x.assume a).admitted val = x.admitted val := by
  simp [admitted, assume, List.countP_cons, ha]

/-- The state and the new sibling share out what the state admitted. -/
theorem admitted_demand (x : Exec) (a : Atom) : (x.demand a a.negate).admitted val = x.admitted val := by
  have hsibling : (thrown x.state x.next (x.siblings.length + 1) a.negate).admits val =
      (x.state.admits val && !a.isTrue val) := by
    rw [← a.isTrue_negate val, ← State.admits_assume]
    rfl
  simp only [admitted, demand, assume, List.countP_cons, List.countP_append, List.countP_nil, State.admits_assume,
    hsibling]
  change x.siblings.countP (·.admits val) + _ + _ = _
  cases x.state.admits val <;> cases a.isTrue val <;> simp

theorem Divides.bind {r : Run} {f : Exec → Run} (h : x.Divides val r) (k : ∀ y, r = .ok y → y.Divides val (f y)) :
    x.Divides val (r >>= f) := by
  cases r with
  | ok y => exact (k y rfl).trans h
  | error y => exact h

theorem divides_need {α : Type} {v : Option α} {go : α → Run} (h : ∀ a, v = some a → x.Divides val (go a)) :
    x.Divides val (x.need v go) := by
  cases v with
  | none => rfl
  | some a => exact h a rfl

theorem divides_bind (x : Exec) (name : String) (v : Sym) : x.Divides val (x.bind name v) := by
  refine divides_need fun s hs => ?_
  obtain ⟨f, -, rfl⟩ := Option.map_eq_some_iff.mp hs
  exact divides_of_eq rfl rfl rfl

theorem divides_allocate (hconst : ∀ c, val (.const c) = c) {dst : String} {t : Ty}
    (hnew : val (.localVar dst t) ≠ .null) (wrapper : Option Wrapper) : x.Divides val (x.allocate dst t wrapper) := by
  have htrue := Atom.isTrue_ne_null val hconst hnew
  exact (divides_bind _ _ _).trans (admitted_assume htrue)

end Exec

open Exec

variable {val} {x : Exec}

theorem Effect.divides_apply (this : Term) (args : List Term) (x : Exec) (e : Effect) :
    x.Divides val (e.apply this args x) := by
  cases e with
  | copyArg f i => exact divides_need fun v _ => divides_of_eq rfl rfl rfl
  | setConst f n => exact divides_of_eq rfl rfl rfl
  | require i r n => exact divides_need fun v _ => x.admitted_demand _

theorem Effect.divides_applyAll (this : Term) (args : List Term) (es : List Effect) (x : Exec) :
    x.Divides val (es.foldlM (fun x e => e.apply this args x) x) := by
  induction es generalizing x with
  | nil => rfl
  | cons e es ih =>
    rw [List.foldlM_cons]
    exact (e.divides_apply this args x).bind fun y _ => ih y

/-- The object that a statement makes, unless the statement gets stuck before. -/
def Stmt.allocated? (s : State) : Stmt → Option Term
  | construct dst method args | produce dst method args =>
    if args.all fun a => (s.find? a).isSome then some (.localVar dst method.produced) else none
  | allocate dst _ t length => if (s.find? length).isSome then some (.localVar dst t) else none
  | _ => none

namespace Machine

variable (m : Machine)

theorem divides_call (method : Method) (this : Term) (args : List Term) (x : Exec) :
    x.Divides val (m.call method this args x) :=
  divides_need fun es _ => Effect.divides_applyAll this args es x

theorem divides_create (hconst : ∀ c, val (.const c) = c) {dst : String} {method : Method} {args : List String}
    (hnew : (args.all fun a => (x.state.find? a).isSome) = true → val (.localVar dst method.produced) ≠ .null) :
    x.Divides val (m.create dst method args x) := by
  refine divides_need fun ts hts => ?_
  have hbound : (args.all fun a => (x.state.find? a).isSome) = true := by
    rw [List.all_eq_true]
    intro a ha
    obtain ⟨t, ht⟩ := exists_of_mapM hts a ha
    simpa [operand?] using Option.isSome_of_eq_some ht
  exact (divides_allocate hconst (hnew hbound) none).bind fun y _ => m.divides_call _ _ _ y

theorem divides_invoke (receiver : String) (method : Method) (args : List String) (x : Exec) :
    x.Divides val (m.invoke receiver method args x) := by
  refine divides_need fun this _ => ?_
  split
  · rfl
  · have hcall : ∀ y : Exec, y.Divides val (y.need (y.operands? args) fun args => m.call method this args y) :=
      fun y => divides_need fun ts _ => m.divides_call _ _ _ y
    cases this with
    | localVar _ _ => exact hcall x
    | _ => exact (hcall _).trans (x.admitted_demand (.ne _ .null))

theorem divides_store (container key value : String) (x : Exec) : x.Divides val (store container key value x) := by
  refine divides_need fun c _ => divides_need fun k _ => divides_need fun v _ => ?_
  dsimp only
  split
  · exact (divides_of_eq rfl rfl rfl).trans ((admitted_demand _ _).trans (admitted_demand _ _))
  · exact divides_of_eq rfl rfl rfl

theorem divides_exec (hconst : ∀ c, val (.const c) = c) {stmt : Stmt}
    (hcontainer : ∀ dst kind t length, stmt ≠ .allocate dst kind t length)
    (hnew : ∀ t, stmt.allocated? x.state = some t → val t ≠ .null) : x.Divides val (m.exec x stmt) := by
  cases stmt with
  | assignNull dst t => exact x.divides_bind _ _
  | copy dst src => exact divides_need fun v _ => x.divides_bind _ _
  | construct dst method args => exact m.divides_create hconst fun h => hnew _ (if_pos h)
  | produce dst method args => exact m.divides_create hconst fun h => hnew _ (if_pos h)
  | invoke receiver method args => exact m.divides_invoke _ _ _ x
  | allocate dst kind t length => exact absurd rfl (hcontainer dst kind t length)
  | store c key value => exact divides_store _ _ _ x

theorem admitted_finish (last : Bool) (r : Run) : (finish last r).admitted val = r.reached.admitted val := by
  cases r with
  | error y => rfl
  | ok y => cases last <;> rfl

/-- A statement other than the making of a container splits a state exhaustively and without overlap: values that make
a new object not null are admitted by exactly one of the states after it if the state before it admits them, and by
none otherwise. -/
theorem step_divides (p : Probe) (next : Nat) {s : State} {stmt : Stmt} (hstmt : p.body[s.location]? = some stmt)
    (hcontainer : ∀ dst kind t length, stmt ≠ .allocate dst kind t length) (hconst : ∀ c, val (.const c) = c)
    (hnew : ∀ t, stmt.allocated? s = some t → val t ≠ .null) :
    (m.step p next s).1.countP (·.admits val) = if s.admits val then 1 else 0 := by
  have hdivides : Divides val { state := s.fork next 0 (s.location + 1), next := next + 1 } (m.exec _ stmt) :=
    m.divides_exec hconst hcontainer hnew
  have hstep : (m.step p next s).1.countP (·.admits val) =
      (finish (s.location + 1 = p.body.length)
        (m.exec { state := s.fork next 0 (s.location + 1), next := next + 1 } stmt)).admitted val := by
    rw [step, hstmt]
    rfl
  rw [hstep, admitted_finish, hdivides, admitted, List.countP_singleton]
  rfl

/-- Makes a gauge, with two tests, and a third one of an argument that there is not. -/
def gauge : Method := .constructor "Gauge" [.int, .int]

def gauging : Machine :=
  { methods := [(gauge, [.require 0 .gt 3, .copyArg ⟨"Gauge", "low", .int⟩ 0, .require 1 .lt 10, .require 2 .eq 0])] }

def gauged : Probe :=
  { name := "gauged"
    params := [⟨"p0", .int⟩, ⟨"p1", .int⟩]
    body := [.construct "r0" gauge ["p0", "p1"]] }

/-- The state before the call, where the first argument is known to be less than the second. -/
def ungauged : State := (enter gauged 0).assume (.lt (.param "p0" .int) (.param "p1" .int))

/-- The first test is passed and the second is not. -/
def readings : Term → Value
  | .const c => c
  | .localVar _ _ => .addr ⟨5⟩
  | .param "p0" _ => .int 7
  | _ => .int 12

theorem step_divides_gauged :
    gauged.body[ungauged.location]? = some (.construct "r0" gauge ["p0", "p1"]) ∧
    Stmt.allocated? ungauged (.construct "r0" gauge ["p0", "p1"]) = some (.localVar "r0" (.object "Gauge")) ∧
    readings (.localVar "r0" (.object "Gauge")) ≠ .null ∧ ungauged.admits readings = true ∧
    (gauging.step gauged 1 ungauged).1.map (·.admits readings) = [false, false, true] ∧
    (gauging.step gauged 1 ungauged).1.countP (·.admits readings) = 1 := by
  have hstmt : gauged.body[ungauged.location]? = some (.construct "r0" gauge ["p0", "p1"]) := rfl
  have hnew : ∀ t, Stmt.allocated? ungauged (.construct "r0" gauge ["p0", "p1"]) = some t → readings t ≠ .null := by
    intro t ht
    have he : some (.localVar "r0" (.object "Gauge")) = some t := by rw [← ht]; decide
    rw [← Option.some.inj he]
    decide
  refine ⟨hstmt, by decide, by decide, by decide, by decide +kernel, ?_⟩
  exact gauging.step_divides gauged 1 hstmt nofun (fun _ => rfl) hnew

end Machine

end Symex
