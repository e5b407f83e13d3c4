import Symex.Plan.Draft
import Symex.Probe.Basic

/-!
# From drafts to probes

A draft becomes a probe root by root. Every hole becomes a parameter and every call a statement. Roots that are
another root's value come last, so that the other root has a local by then; a container is known as the local of
its root before its entries are made, so that they may refer to it.
-/

namespace Symex

/-- A probe under construction. -/
structure Lowering where
  params : List Param := []
  body : List Stmt := []
  /-- How many locals have been named. -/
  named : Nat := 0
  /-- For each root its local, as soon as there is one. -/
  locals : List (Option String) := []

namespace Lowering

/-- A new local. -/
def fresh (w : Lowering) : String × Lowering := ("r" ++ toString w.named, { w with named := w.named + 1 })

def emit (w : Lowering) (s : Stmt) : Lowering := { w with body := w.body ++ [s] }

/-- A new parameter. -/
def param (w : Lowering) (t : Ty) : (String × Recipe) × Lowering :=
  let i := w.params.length
  let name := "p" ++ toString i
  ((name, .param i), { w with params := w.params ++ [⟨name, t⟩] })

/-- A new local that is null. -/
def null (w : Lowering) (t : Ty) : (String × Recipe) × Lowering :=
  let (d, w) := w.fresh
  ((d, .null d t), w.emit (.assignNull d t))

/-- A new local with the value of another root; null if that has no local yet. -/
def root (w : Lowering) (t : Ty) (i : Nat) : Except Fault ((String × Recipe) × Lowering) :=
  match w.locals[i]? with
  | none => .error (.outOfBounds w.locals.length i)
  | some none => .ok (w.null t)
  | some (some src) =>
    let (d, w) := w.fresh
    .ok ((d, .root d t i), w.emit (.copy d src))

/-- A new local with the value of a constructor or a factory. -/
def create (w : Lowering) (m : Method) (args : List String) (rs : List Recipe) : (String × Recipe) × Lowering :=
  let (d, w) := w.fresh
  ((d, .create d m rs), w.emit (if m.kind = .constructor then .construct d m args else .produce d m args))

/-- A new container, known as the local of its root if it is one. -/
def allocate (w : Lowering) (self : Option Nat) (k : ContainerKind) (t : Ty) (length : String) :
    String × Lowering :=
  let (d, w) := w.fresh
  let w := w.emit (.allocate d k t length)
  (d, match self with
    | some i => { w with locals := w.locals.set i (some d) }
    | none => w)

/-- A step that makes one value: the name it has then, and how it is made. -/
abbrev Making := Lowering → Except Fault ((String × Recipe) × Lowering)

/-- What stands for the value of a modifier without receiver: null. -/
def orphan (m : Method) : Making := fun w => .ok (w.null m.produced)

/-- Makes the entries of a container and stores them, where `inside` looks up how a model is made. It is looked up
for the key and for the value of an entry before either is made. -/
def entries (inside : Handle → Except Fault Making) (container : String) :
    List (Handle × Handle) → Lowering → Except Fault (List (Recipe × Recipe) × Lowering)
  | [], w => .ok ([], w)
  | (k, v) :: es, w => do
    let makeKey ← inside k
    let makeValue ← inside v
    let ((key, kr), w) ← makeKey w
    let ((value, vr), w) ← makeValue w
    let (rs, w) ← entries inside container es (w.emit (.store container key value))
    return ((kr, vr) :: rs, w)

end Lowering

namespace Plan

mutual

/-- Makes the value of a plan, where `inside` looks up how the models in a container are made, and `orphan` makes what
a modifier without receiver gives. The plan is that of the root `self`, if it is one. -/
def lowerOr (orphan : Method → Lowering.Making) (inside : Handle → Except Fault Lowering.Making) (self : Option Nat) :
    Plan → Lowering.Making
  | null t, w => .ok (w.null t)
  | hole t, w => .ok (w.param t)
  | root t i, w => w.root t i
  | call m ps, w => do
    if m.kind = .modifier then
      match ps with
      | [] => orphan m w
      | p :: ps =>
        let ((receiver, r), w) ← lowerOr orphan inside none p w
        let ((args, rs), w) ← lowerAllOr orphan inside ps w
        return ((receiver, .change receiver m r rs), w.emit (.invoke receiver m args))
    else
      let ((args, rs), w) ← lowerAllOr orphan inside ps w
      return w.create m args rs
  | container k t n es, w => do
    let makeLength ← inside n
    let ((length, lr), w) ← makeLength w
    let (d, w) := w.allocate self k t length
    let (rs, w) ← w.entries inside d es
    return ((d, .container d k t lr rs), w)

def lowerAllOr (orphan : Method → Lowering.Making) (inside : Handle → Except Fault Lowering.Making) :
    List Plan → Lowering → Except Fault ((List String × List Recipe) × Lowering)
  | [], w => .ok (([], []), w)
  | p :: ps, w => do
    let ((x, r), w) ← lowerOr orphan inside none p w
    let ((xs, rs), w) ← lowerAllOr orphan inside ps w
    return ((x :: xs, r :: rs), w)

end

/-- Makes the value of a plan, where a modifier without receiver gives null. -/
def lowerVia (inside : Handle → Except Fault Lowering.Making) (self : Option Nat) (p : Plan) : Lowering.Making :=
  p.lowerOr Lowering.orphan inside self

def lowerAllVia (inside : Handle → Except Fault Lowering.Making) (ps : List Plan) (w : Lowering) :
    Except Fault ((List String × List Recipe) × Lowering) :=
  lowerAllOr Lowering.orphan inside ps w

end Plan

namespace Draft

/-- How a model in a container is made, as its plan says. -/
def lowerWithinOr (d : Draft) (orphan : Method → Lowering.Making) : Nat → Handle → Except Fault Lowering.Making
  | 0, h => .error (.endless h)
  | n + 1, h => do return (← d.plan h).lowerOr orphan (d.lowerWithinOr orphan n) none

def lowerWithin (d : Draft) (n : Nat) (h : Handle) : Except Fault Lowering.Making :=
  d.lowerWithinOr Lowering.orphan n h

/-- Makes the values of roots, given by position. -/
def lowerRootsOr (d : Draft) (orphan : Method → Lowering.Making) :
    List (Nat × Plan) → Lowering → Except Fault (Table Nat Recipe × Lowering)
  | [], w => .ok ({}, w)
  | (i, p) :: ps, w => do
    let ((x, r), w) ← p.lowerOr orphan (d.lowerWithinOr orphan d.nesting) (some i) w
    let (rs, w) ← d.lowerRootsOr orphan ps { w with locals := w.locals.set i (some x) }
    return (rs.insert i r, w)

def lowerRoots (d : Draft) (ps : List (Nat × Plan)) (w : Lowering) : Except Fault (Table Nat Recipe × Lowering) :=
  d.lowerRootsOr Lowering.orphan ps w

/-- The positions of the roots in the order in which they are made. -/
def order (ps : List Plan) : List (Nat × Plan) :=
  let all := ps.mapIdx fun i p => (i, p)
  all.filter (!·.2.isRoot) ++ all.filter (·.2.isRoot)

/-- The probe of a draft, if `orphan` makes what a modifier without receiver gives. -/
def probeOr (d : Draft) (orphan : Method → Lowering.Making) (name : String) : Except Fault Probe := do
  let ps ← d.rootPlans
  let (rs, w) ← d.lowerRootsOr orphan (order ps) { locals := ps.map fun _ => none }
  return { name
           params := w.params
           body := w.body
           locals := w.locals.filterMap id
           recipes := (List.range ps.length).filterMap rs.find? }

/-- The probe of a draft. -/
def probe (d : Draft) (name : String) : Except Fault Probe := d.probeOr Lowering.orphan name

end Draft

end Symex
