import Symex.Plan.Catalog
import Symex.Probe.Basic
import Symex.State.Basic

/-!
# The machine

A small engine for probes. Its methods are lists of effects on the receiver: a field gets an argument or a
constant, or an argument has to pass a test. A step runs one statement. Whatever can go wrong splits off a sibling
that assumes that it does and ends thrown, while the state itself assumes that it does not. A statement that cannot
be run ends its state thrown, with the effects it had so far.
-/

namespace Symex

/-- What a method does to its receiver. -/
inductive Effect where
  /-- The field gets an argument. -/
  | copyArg (field : Field) (arg : Nat)
  /-- The field gets a number. -/
  | setConst (field : Field) (value : Int)
  /-- The method throws unless the argument stands in a relation to a number. -/
  | require (arg : Nat) (relation : Relation) (value : Int)
  deriving DecidableEq, Inhabited

structure Machine where
  methods : List (Method × List Effect) := []

/-- A statement being run: the state so far, and the siblings split off from it. -/
structure Exec where
  state : State
  siblings : List State := []
  /-- The number of the next state. -/
  next : Nat

/-- A run that goes on, or ends where it got stuck. -/
abbrev Run := Except Exec Exec

namespace Exec

def assume (x : Exec) (a : Atom) : Exec := { x with state := x.state.assume a }

def write (x : Exec) (w : Write) : Exec := { x with state := x.state.write w }

/-- The sibling that assumes an atom and throws. -/
def thrown (s : State) (id branch : Nat) (a : Atom) : State :=
  { { s with id, trail := s.trail.dropLast ++ s.trail.getLast?.toList.map fun _ => branch }.assume a with
    status := .thrown }

/-- Splits off the sibling where an atom is false, and goes on where it is true. -/
def demand (x : Exec) (a : Atom) (otherwise : Atom) : Exec :=
  { x with
    siblings := x.siblings ++ [thrown x.state x.next (x.siblings.length + 1) otherwise]
    next := x.next + 1 }.assume a

/-- Goes on with a value, if there is one. -/
def need {α : Type} (x : Exec) (v : Option α) (go : α → Run) : Run :=
  match v with
  | some a => go a
  | none => .error x

/-- The term in a local. -/
def operand? (x : Exec) (name : String) : Option Term := (x.state.find? name).map Sym.term

def operands? (x : Exec) (names : List String) : Option (List Term) := names.mapM x.operand?

/-- Binds a local. -/
def bind (x : Exec) (name : String) (v : Sym) : Run :=
  x.need (x.state.bind? name v) fun s => .ok { x with state := s }

/-- A new value that is not null, in a local of its own name. -/
def allocate (x : Exec) (dst : String) (t : Ty) (wrapper : Option Wrapper) : Run :=
  let object : Term := .localVar dst t
  (x.assume (.ne object .null)).bind dst (.ref object wrapper)

end Exec

/-- Has one effect on `this`. -/
def Effect.apply (this : Term) (args : List Term) (x : Exec) : Effect → Run
  | copyArg f i => x.need args[i]? fun v => .ok (x.write (.field this f v))
  | setConst f n => .ok (x.write (.field this f (.int n)))
  | require i r n => x.need args[i]? fun v =>
    let test : Atom := ⟨r, v, .int n⟩
    .ok (x.demand test test.negate)

namespace Machine

/-- The methods as a catalog. -/
def catalog (m : Machine) : Catalog := ⟨m.methods.map (·.1)⟩

/-- The effects of a method, found by its name. -/
def effects? (m : Machine) (method : Method) : Option (List Effect) :=
  (m.methods.find? (·.1.id = method.id)).map (·.2)

/-- Runs a method on a receiver. -/
def call (m : Machine) (method : Method) (this : Term) (args : List Term) (x : Exec) : Run :=
  x.need (m.effects? method) fun es => es.foldlM (fun x e => e.apply this args x) x

/-- Makes a new value and runs a method on it. -/
def create (m : Machine) (dst : String) (method : Method) (args : List String) (x : Exec) : Run :=
  x.need (x.operands? args) fun args => do
    let x ← x.allocate dst method.produced none
    m.call method (.localVar dst method.produced) args x

/-- Runs a modifier on a local. A receiver that was not allocated here may be null. -/
def invoke (m : Machine) (receiver : String) (method : Method) (args : List String) (x : Exec) : Run :=
  x.need (x.operand? receiver) fun this =>
    if this = .null then .error x
    else
      let x := match this with
        | .localVar _ _ => x
        | _ => x.demand (.ne this .null) (.eq this .null)
      x.need (x.operands? args) fun args => m.call method this args x

/-- The wrapper that a container of a kind is seen through. -/
def wrapperOf : ContainerKind → Option Wrapper
  | .array => none
  | .list => some .list
  | .set => some .set
  | .map => some .map

/-- Makes a new container of a given length. -/
def container (dst : String) (kind : ContainerKind) (t : Ty) (length : String) (x : Exec) : Run :=
  x.need (x.operand? length) fun n => do
    let x ← x.allocate dst t (wrapperOf kind)
    return (x.assume (.ge n (.int 0))).assume (.eq (.length (.localVar dst t)) n)

/-- Stores an entry. An index has to be within the bounds. -/
def store (container key value : String) (x : Exec) : Run :=
  x.need (x.operand? container) fun c =>
    x.need (x.operand? key) fun k =>
      x.need (x.operand? value) fun v =>
        let low : Atom := .ge k (.int 0)
        let high : Atom := .lt k (.length c)
        let x := if k.ty = .int then (x.demand low low.negate).demand high high.negate else x
        .ok (x.write (.element c k v))

/-- Runs a statement. -/
def exec (m : Machine) (x : Exec) : Stmt → Run
  | .assignNull dst _ => x.bind dst (.ref .null none)
  | .copy dst src => x.need (x.state.find? src) fun v => x.bind dst v
  | .construct dst method args => m.create dst method args x
  | .produce dst method args => m.create dst method args x
  | .invoke receiver method args => m.invoke receiver method args x
  | .allocate dst kind t length => container dst kind t length x
  | .store c key value => store c key value x

/-- The status after a statement: of the last one the probe returns. -/
def finish (last : Bool) : Run → Exec
  | .ok x => if last then { x with state := { x.state with status := .returned } } else x
  | .error x => { x with state := { x.state with status := .thrown } }

/-- Runs the statement that a state stands before: the state after it first, then the siblings. -/
def step (m : Machine) (p : Probe) (next : Nat) (s : State) : List State × Nat :=
  match p.body[s.location]? with
  | none => ([], next)
  | some stmt =>
    let child := s.fork next 0 (s.location + 1)
    let x := finish (s.location + 1 = p.body.length) (m.exec { state := child, next := next + 1 } stmt)
    (x.state :: x.siblings, x.next)

/-- More states than a step can give. -/
def degree (m : Machine) : Nat := (m.methods.map fun e => e.2.length).foldl max 0 + 4

/-- The state before the first statement, with the parameters as its inputs. -/
def enter (p : Probe) (id : Nat) : State :=
  let value (q : Param) : Sym :=
    if q.ty.isReference then .ref (.param q.name q.ty) none else .prim (.param q.name q.ty)
  { id
    frame := some (.ofList (p.params.map fun q => (q.name, value q)))
    inputs := p.params.map value
    status := if p.body.isEmpty then .returned else .running }

end Machine

end Symex
