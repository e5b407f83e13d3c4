import Symex.Resolve.Pass

/-!
# Resolving references

A reference resolves to null, to an alias of a model that the pass has met at the same address, or to a new model:
an array with the elements that the atoms speak about, a container behind a wrapper with the entries of its
storage, or an object with its atoms. The atoms of a model are those that mention any term with its address, and
speak about it under one name.

Every new model takes a new address, so the nesting is bounded by the number of addresses. The functions that
build one model are given the function that resolves the references inside it.
-/

namespace Symex.Resolve

/-- Resolves a reference inside a model. -/
abbrev Inner := Term → Work → Handle × Work

/-- The atoms with every one of `aliases` renamed to `t`. -/
def canonical (as : List Atom) (t : Term) (aliases : List Term) : OrderedSet Atom :=
  let m : Term.Renaming := .ofList ((aliases.filter (· ≠ t)).map fun a => (a, t))
  .ofList (as.map fun a => a.substitute m)

/-- The different element reads among `as` on an array with one of the names, each as its index and itself. -/
def elementReads (as : List Atom) (arrays : List Term) : List (Term × Term) :=
  (as.flatMap Atom.terms).eraseDups.filterMap fun t =>
    match t with
    | .element a i _ => if a ∈ arrays then some (i, t) else none
    | _ => none

/-- One more read, put into the group of its index. -/
def addRead (index? : Term → Option Nat) (length : Nat) (t : OrderedTable Nat (List (Term × Term))) (r : Term × Term) :
    OrderedTable Nat (List (Term × Term)) :=
  match index? r.1 with
  | some i => if i < length then t.alter i [] (· ++ [r]) else t
  | none => t

/-- The reads below `length`, by increasing concrete index. -/
def groupReads (index? : Term → Option Nat) (length : Nat) (reads : List (Term × Term)) :
    List (Nat × List (Term × Term)) :=
  (reads.foldl (addRead index? length) {}).toList

/-- Resolves the `n`-th entry of the array `t`. Its index is made up and stands for the index of the first read. -/
def resolveEntry (p : Pass) (inner : Inner) (t : Term) (elem : Ty) (raw : List Atom) (n : Nat)
    (group : Nat × List (Term × Term)) (w : Work) : (Handle × Handle) × Work :=
  let index := Term.localVar (t.render ++ "_index" ++ toString n) .int
  let w := match group.2 with
    | r :: _ => { w with standIns := w.standIns.insert index r.1 }
    | [] => w
  let bounds := [Atom.ge index (.int 0), Atom.lt index (.length t)]
  let (key, w) := w.alloc
    (.primitive index (.ofIndex group.1) (.ofList (group.2.map (fun r => Atom.eq r.1 index) ++ bounds)))
  let element := Term.element t index elem
  let (value, w) :=
    if elem.isReference then inner element w
    else
      let m : Term.Renaming := .ofList (group.2.map fun r => (r.2, element))
      p.primitive w element (raw.map fun a => a.substitute m)
  ((key, value), w)

/-- Resolves entries in order, numbering them from `n`. -/
def resolveEntries (p : Pass) (inner : Inner) (t : Term) (elem : Ty) (raw : List Atom) :
    Nat → List (Nat × List (Term × Term)) → Work → List (Handle × Handle) × Work
  | _, [], w => ([], w)
  | n, g :: gs, w =>
    let (e, w) := resolveEntry p inner t elem raw n g w
    let (es, w) := resolveEntries p inner t elem raw (n + 1) gs w
    (e :: es, w)

/-- The length of the array `t`: its value if an atom speaks about it, else the default. -/
def arrayLength (p : Pass) (w : Work) (t : Term) (aliases : List Term) (raw : List Atom) : Nat :=
  let spoken := raw.any fun a => a.mentionsAny (aliases.map Term.length)
  match p.eval w (.length t) with
  | some v => if spoken then v.index?.getD 0 else p.settings.defaultLength
  | none => p.settings.defaultLength

/-- Resolves an array from its atoms: `raw` as they stand on the path, `atoms` in terms of `t`. -/
def resolveArray (p : Pass) (inner : Inner) (t : Term) (aliases : List Term) (raw : List Atom)
    (atoms : OrderedSet Atom) (w : Work) : Container × Work :=
  let elem := t.ty.element?.getD t.ty
  let length := arrayLength p w t aliases raw
  let (lengthHandle, w) := w.alloc
    (.primitive (.length t) (.ofIndex length) (.ofList (atoms.toList.filter fun a => a.mentions (.length t))))
  let groups := groupReads (p.index? w) length (elementReads raw aliases)
  let (entries, w) := resolveEntries p inner t elem raw 0 groups w
  ({ term := t, length := lengthHandle, entries, atoms }, w)

/-- The field called `name` of `base`, if the atoms read it through any term with that address. -/
def observedField (p : Pass) (w : Work) (as : List Atom) (base : Term) (name : String) : Option Term :=
  let address := p.address? w base
  (as.flatMap Atom.terms).findSome? fun
    | .field b f =>
      if f.name = name ∧ (b = base ∨ (address.isSome ∧ p.address? w b = address)) then some (.field base f)
      else none
    | _ => none

/-- Resolves the array in the field `name` of `holder`, if it is observed and turns out to be an array. -/
def resolveStorage (p : Pass) (inner : Inner) (as : List Atom) (holder : Term) (name : String) (w : Work) :
    Option Container × Work :=
  match observedField p w as holder name with
  | none => (none, w)
  | some storage =>
    let (h, w) := inner storage w
    let target := match w.store.get? h with
      | some (.sameAs _ t) => t
      | _ => h
    match w.store.get? target with
    | some (.container .array c) => (some c, w)
    | _ => (none, w)

/-- An entry for a slot of `array` that nothing is known about. -/
def nullEntry (array : Term) (elem : Ty) (i : Nat) (w : Work) : (Handle × Handle) × Work :=
  let index := Value.ofIndex i
  let (key, w) := w.alloc (.primitive (.const index) index {})
  let (value, w) := w.alloc (.null (.element array (.const index) elem))
  ((key, value), w)

/-- The entries of a list: those of its storage where it has one, and null everywhere else. -/
def denseEntries (storage : Container) (present : List (Nat × (Handle × Handle))) (elem : Ty) :
    List Nat → Work → List (Handle × Handle) × Work
  | [], w => ([], w)
  | i :: is, w =>
    let (e, w) := match present.lookup i with
      | some e => (e, w)
      | none => nullEntry storage.term elem i w
    let (es, w) := denseEntries storage present elem is w
    (e :: es, w)

/-- The entries of a container with their concrete indices. -/
def indexed (w : Work) (c : Container) : List (Nat × (Handle × Handle)) :=
  c.entries.filterMap fun e => (w.index? e.1).map fun i => (i, e)

/-- Resolves a list or a set behind a wrapper. A list has an entry for every index, a set those of its storage. -/
def resolveSequence (p : Pass) (inner : Inner) (t : Term) (asSet : Bool) (raw : List Atom)
    (atoms : OrderedSet Atom) (w : Work) : Model × Work :=
  match observedField p w raw t p.settings.layout.holder with
  | none => (.object t atoms, w)
  | some holder =>
    match resolveStorage p inner raw holder p.settings.layout.storage w with
    | (none, w) => (.object t atoms, w)
    | (some storage, w) =>
      if asSet then (.container .set { storage with term := t, atoms }, w)
      else
        let length := (w.index? storage.length).getD 0
        let elem := storage.term.ty.element?.getD (.object rootClass)
        let (entries, w) := denseEntries storage (indexed w storage) elem (List.range length) w
        (.container .list { term := t, length := storage.length, entries, atoms }, w)

/-- The value of a map at slot `i`: the stored one, or the default of a primitive type, or null. -/
def mapValue (stored : List (Nat × Handle)) (values : Term) (ty : Ty) (i : Nat) (w : Work) : Handle × Work :=
  match stored.lookup i with
  | some h => (h, w)
  | none =>
    if ty.isPrimitive then
      w.alloc (.primitive (.element values (.const (.ofIndex i)) ty) (.default ty) {})
    else
      let (e, w) := nullEntry values ty i w
      (e.2, w)

/-- The entries of a map: the key in each slot of the keys with the value of that slot. -/
def mapEntries (stored : List (Nat × Handle)) (values : Term) (ty : Ty) :
    List (Nat × (Handle × Handle)) → Work → List (Handle × Handle) × Work
  | [], w => ([], w)
  | (i, _, key) :: es, w =>
    let (value, w) := mapValue stored values ty i w
    let (rest, w) := mapEntries stored values ty es w
    ((key, value) :: rest, w)

/-- Resolves a map behind a wrapper. -/
def resolveMap (p : Pass) (inner : Inner) (t : Term) (raw : List Atom) (atoms : OrderedSet Atom) (w : Work) :
    Model × Work :=
  let layout := p.settings.layout
  match observedField p w raw t layout.holder with
  | none => (.object t atoms, w)
  | some holder =>
    match resolveStorage p inner raw holder layout.storage w with
    | (none, w) => (.object t atoms, w)
    | (some keys, w) =>
      let (values, w) := resolveStorage p inner raw holder layout.values w
      let ty := (values.bind (·.term.ty.element?)).getD (.object rootClass)
      let owner := holder.ty.class?.getD rootClass
      let valuesTerm := Term.field holder ⟨owner, layout.values, .array ty⟩
      let stored := (values.map fun c => (indexed w c).map fun e => (e.1, e.2.2)).getD []
      let (entries, w) := mapEntries stored valuesTerm ty (indexed w keys) w
      (.container .map { term := t, length := keys.length, entries, atoms }, w)

/-- The model of a reference at a new address. -/
def resolveNew (p : Pass) (inner : Inner) (t : Term) (wrapper : Option Wrapper) (a : Address) (w : Work) :
    Model × Work :=
  let aliases := t :: p.aliases a
  let raw := p.about aliases
  let atoms := canonical raw t aliases
  if t.isArray then
    let (c, w) := resolveArray p inner t aliases raw atoms w
    (.container .array c, w)
  else match wrapper with
    | some .list => resolveSequence p inner t false raw atoms w
    | some .set => resolveSequence p inner t true raw atoms w
    | some .map => resolveMap p inner t raw atoms w
    | none => (.object t atoms, w)

/-- Resolves a reference, with models nested less than `n` deep. -/
def resolveReference (p : Pass) : Nat → Option Wrapper → Term → Work → Handle × Work
  | 0, _, t, w => w.alloc (.object t {})
  | n + 1, wrapper, t, w =>
    match p.address? w t with
    | none => w.answer none (.object t (.ofList (p.about [t])))
    | some a =>
      if a.isNull then w.answer a (.null t)
      else match w.known.find? a with
        | some target => w.answer a (.sameAs t target)
        | none =>
          let (h, w) := w.reserve a
          let (m, w) := resolveNew p (resolveReference p n none) t wrapper a w
          (h, w.fill h m)

end Symex.Resolve
