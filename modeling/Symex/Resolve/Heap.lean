import Symex.State.Memory
import Symex.Term.Assignment

/-!
# The concrete heap behind a path

An assignment gives values to the terms of a path. Reads of the path whose base and index have values thereby name
concrete places, and the writes of a memory name the places they change. Terms are evaluated over the heap before
the call or over the heap after it; a read without a value of its own takes the value of a path read of the same
place.
-/

namespace Symex.Resolve

/-- A place in the heap. -/
inductive Place where
  | field (base : Address) (field : Field)
  | element (array : Address) (index : Int)
  | length (array : Address)
  deriving DecidableEq

/-- The heap that a value is described in. -/
inductive Snapshot where
  /-- Before the call. -/
  | initial
  /-- After the call. -/
  | current
  /-- Before the call, for the value of a static field. -/
  | staticInitial
  deriving DecidableEq, Inhabited

structure Heap where
  assignment : Assignment := {}
  /-- The first read of the path at each place. -/
  reads : Table Place Term := {}
  /-- The value last written at each place. -/
  writes : Table Place Term := {}

/-- Terms that were made up, and the terms that they stand for. -/
abbrev StandIns := Table Term Term

/-- The place of a field of a value. -/
def fieldPlace (base : Option Value) (f : Field) : Option Place :=
  (base.bind Value.addr?).map fun a => .field a f

/-- The place of an element. -/
def elementPlace (array index : Option Value) : Option Place :=
  (array.bind Value.addr?).bind fun a => (index.bind Value.int?).map (.element a)

/-- The place of an array's length. -/
def lengthPlace (array : Option Value) : Option Place := (array.bind Value.addr?).map .length

/-- The place that a heap read looks at, given the values of its parts. -/
def placeOf (eval : Term → Option Value) : Term → Option Place
  | .field b f => fieldPlace (eval b) f
  | .element a i _ => elementPlace (eval a) (eval i)
  | .length a => lengthPlace (eval a)
  | _ => none

namespace Heap

/-- The value of a read at a known place: what is laid over the place, else the read's own value, else the value
of the path's read of that place. -/
def valueAt (h : Heap) (overlay : Place → Option (Option Value)) (t : Term) (p : Option Place) : Option Value :=
  match p.bind overlay with
  | some v => v
  | none => (h.assignment.eval t).or ((p.bind h.reads.find?).bind h.assignment.eval)

/-- The value of the term that `t` stands for, if it stands for one, and else its own. -/
def standIn (m : StandIns) (hop : Term → Option Value) (t : Term) (own : Option Value) : Option Value :=
  match m.find? t with
  | some actual => hop actual
  | none => own

/-- Evaluates a term from the inside out. The term that another stands for is handed to `hop`. -/
def evalLayer (h : Heap) (m : StandIns) (overlay : Place → Option (Option Value)) (hop : Term → Option Value) :
    Term → Option Value
  | t@(.const v) => standIn m hop t (some v)
  | t@(.field b f) => standIn m hop t (h.valueAt overlay t (fieldPlace (h.evalLayer m overlay hop b) f))
  | t@(.element a i _) => standIn m hop t
      (h.valueAt overlay t (elementPlace (h.evalLayer m overlay hop a) (h.evalLayer m overlay hop i)))
  | t@(.length a) => standIn m hop t (h.valueAt overlay t (lengthPlace (h.evalLayer m overlay hop a)))
  | t => standIn m hop t (h.valueAt overlay t none)

/-- Evaluation over the heap before the call, through fewer than `n` stand-ins. -/
def beforeWithin (h : Heap) (m : StandIns) : Nat → Term → Option Value
  | 0, _ => none
  | n + 1, t => h.evalLayer m (fun _ => none) (h.beforeWithin m n) t

/-- The value of a term over the heap before the call. Stand-ins that do not lead back to themselves are passed at
most once each. -/
def before (h : Heap) (m : StandIns) (t : Term) : Option Value := h.beforeWithin m (m.size + 1) t

/-- Evaluation over the heap after the call, through fewer than `n` stand-ins. Written values are terms over the
heap before the call. -/
def afterWithin (h : Heap) (m : StandIns) : Nat → Term → Option Value
  | 0, _ => none
  | n + 1, t => h.evalLayer m (fun p => (h.writes.find? p).map (h.before m)) (h.afterWithin m n) t

/-- The value of a term over the heap after the call. -/
def after (h : Heap) (m : StandIns) (t : Term) : Option Value := h.afterWithin m (m.size + 1) t

/-- The place that a read looks at before the call. -/
def place (h : Heap) (t : Term) : Option Place := placeOf (h.before {}) t

/-- Remembers the reads of the path by place, the first at each place. A place is found with the reads that are
known so far. -/
def withReads (h : Heap) (ts : List Term) : Heap :=
  ts.foldl (fun h t => match h.place t with
    | some p => { h with reads := h.reads.insertNew p t }
    | none => h) h

/-- The place that a write changes. -/
def writePlace (h : Heap) : Write → Option Place
  | .field b f _ => fieldPlace (h.before {} b) f
  | .element a i _ => elementPlace (h.before {} a) (h.before {} i)

/-- The writes at known places in program order, only the latest at each place. -/
def latest (h : Heap) (ws : List Write) : List (Place × Write) :=
  ws.foldr (fun w later => match h.writePlace w with
    | some p => if later.any (·.1 = p) then later else (p, w) :: later
    | none => later) []

def withWrites (h : Heap) (ws : List (Place × Write)) : Heap :=
  { h with writes := .ofList (ws.map fun e => (e.1, e.2.value)) }

end Heap

end Symex.Resolve
