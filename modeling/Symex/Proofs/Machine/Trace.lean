import Symex.Machine.Basic
import Symex.Proofs.Data.Outcome

/-!
# The run behind a state

Running a statement only adds to what a state assumes, and then leaves it to be checked; whatever it splits off is
thrown, and left to be checked too. So a state that is not thrown has behind it one run of the statements up to where
it stands, and a state that has returned one of the whole probe. What is split off takes the numbers and the branches
that are next in order.
-/

namespace Symex

namespace Exec

/-- The siblings split off between `x` and `y` have the next numbers and the next branches, in their order. -/
structure Splits (x y : Exec) : Prop where
  id : y.state.id = x.state.id
  trail : y.state.trail = x.state.trail
  edge : y.state.edge = x.state.edge
  siblings : ∃ new, y.siblings = x.siblings ++ new ∧ y.next = x.next + new.length ∧
    ∀ {i : Nat} {s : State}, new[i]? = some s → s.id = x.next + i ∧ s.edge = x.state.edge ∧
      s.trail = x.state.trail.dropLast ++ x.state.trail.getLast?.toList.map fun _ => x.siblings.length + 1 + i

theorem Splits.of_eq {x y : Exec} (hid : y.state.id = x.state.id) (htrail : y.state.trail = x.state.trail)
    (hedge : y.state.edge = x.state.edge) (hsiblings : y.siblings = x.siblings) (hnext : y.next = x.next) :
    x.Splits y :=
  ⟨hid, htrail, hedge, [], by rw [hsiblings, List.append_nil], hnext, nofun⟩

theorem Splits.trans {x y z : Exec} (h : x.Splits y) (k : y.Splits z) : x.Splits z := by
  obtain ⟨ss, hss, hnext, hnew⟩ := h.siblings
  obtain ⟨ss', hss', hnext', hnew'⟩ := k.siblings
  refine ⟨k.id.trans h.id, k.trail.trans h.trail, k.edge.trans h.edge, ss ++ ss', ?_, ?_, ?_⟩
  · rw [hss', hss, List.append_assoc]
  · rw [hnext', hnext, List.length_append, Nat.add_assoc]
  · intro i s hs
    rcases Nat.lt_or_ge i ss.length with hi | hi
    · rw [List.getElem?_append_left hi] at hs
      exact hnew hs
    · rw [List.getElem?_append_right hi] at hs
      obtain ⟨hid, hedge, htrail⟩ := hnew' hs
      have hbranch : y.siblings.length + 1 + (i - ss.length) = x.siblings.length + 1 + i := by
        rw [hss, List.length_append]
        omega
      refine ⟨by omega, hedge.trans h.edge, ?_⟩
      rw [htrail, h.trail, hbranch]

/-- What running a statement does not change or only adds to. -/
structure Keeps (x y : Exec) : Prop where
  location : y.state.location = x.state.location
  status : y.state.status = x.state.status
  inputs : y.state.inputs = x.state.inputs
  hard : ∀ a ∈ x.state.path.hard, a ∈ y.state.path.hard
  thrown : ∀ s ∈ y.siblings, s ∈ x.siblings ∨ s.status = .thrown
  deferred : y.state.pending = true ∨ y.state.pending = x.state.pending ∧ y.state.path = x.state.path
  unchecked : ∀ s ∈ y.siblings, s ∈ x.siblings ∨ s.pending = true
  splits : x.Splits y

/-- A run that keeps these things, whether it goes on or gets stuck. -/
def Leads (x : Exec) : Run → Prop
  | .ok y => x.Keeps y
  | .error y => x.Keeps y

theorem Keeps.refl (x : Exec) : x.Keeps x :=
  ⟨rfl, rfl, rfl, fun _ h => h, fun _ h => Or.inl h, Or.inr ⟨rfl, rfl⟩, fun _ h => Or.inl h, .of_eq rfl rfl rfl rfl rfl⟩

theorem Keeps.trans {x y z : Exec} (h : x.Keeps y) (k : y.Keeps z) : x.Keeps z := by
  refine ⟨k.location.trans h.location, k.status.trans h.status, k.inputs.trans h.inputs,
    fun a ha => k.hard a (h.hard a ha), ?_, ?_, ?_, h.splits.trans k.splits⟩
  · intro s hs
    rcases k.thrown s hs with hs | hs
    · exact h.thrown s hs
    · exact Or.inr hs
  · rcases k.deferred with hz | ⟨hpend, hpath⟩
    · exact Or.inl hz
    · rw [hpend, hpath]
      exact h.deferred
  · intro s hs
    rcases k.unchecked s hs with hs | hs
    · exact h.unchecked s hs
    · exact Or.inr hs

theorem Keeps.leads {x y : Exec} (h : x.Keeps y) {r : Run} (k : y.Leads r) : x.Leads r := by
  cases r with
  | ok z => exact h.trans k
  | error z => exact h.trans k

theorem Leads.bind {x : Exec} {r : Run} {f : Exec → Run} (h : x.Leads r) (k : ∀ y, r = .ok y → y.Leads (f y)) :
    x.Leads (r >>= f) := by
  cases r with
  | ok y => exact Keeps.leads h (k y rfl)
  | error y => exact h

theorem keeps_assume (x : Exec) (a : Atom) : x.Keeps (x.assume a) :=
  ⟨rfl, rfl, rfl, fun _ h => Path.mem_addTo.mpr (Or.inl h), fun _ h => Or.inl h, Or.inl rfl, fun _ h => Or.inl h,
    .of_eq rfl rfl rfl rfl rfl⟩

theorem keeps_write (x : Exec) (w : Write) : x.Keeps (x.write w) :=
  ⟨rfl, rfl, rfl, fun _ h => h, fun _ h => Or.inl h, Or.inr ⟨rfl, rfl⟩, fun _ h => Or.inl h, .of_eq rfl rfl rfl rfl rfl⟩

theorem splits_demand (x : Exec) (a otherwise : Atom) : x.Splits (x.demand a otherwise) := by
  refine ⟨rfl, rfl, rfl, [thrown x.state x.next (x.siblings.length + 1) otherwise], rfl, rfl, ?_⟩
  intro i s hs
  cases i with
  | zero =>
    cases hs
    exact ⟨rfl, rfl, rfl⟩
  | succ i => cases hs

theorem keeps_demand (x : Exec) (a otherwise : Atom) : x.Keeps (x.demand a otherwise) := by
  have hsibling : ∀ s ∈ (x.demand a otherwise).siblings, s ∈ x.siblings ∨ s.status = .thrown ∧ s.pending = true := by
    intro s hs
    rcases List.mem_append.mp hs with hs | hs
    · exact Or.inl hs
    · rw [List.mem_singleton.mp hs]
      exact Or.inr ⟨rfl, rfl⟩
  exact ⟨rfl, rfl, rfl, fun _ h => Path.mem_addTo.mpr (Or.inl h), fun s hs => (hsibling s hs).imp_right And.left,
    Or.inl rfl, fun s hs => (hsibling s hs).imp_right And.right, x.splits_demand a otherwise⟩

theorem need_eq_ok {α : Type} {x y : Exec} {v : Option α} {go : α → Run} :
    x.need v go = .ok y ↔ ∃ a, v = some a ∧ go a = .ok y := by
  cases v with
  | none => simp [need]
  | some a => simp [need]

theorem leads_need {α : Type} (x : Exec) {v : Option α} {go : α → Run} (h : ∀ a, x.Leads (go a)) :
    x.Leads (x.need v go) := by
  cases v with
  | none => exact Keeps.refl x
  | some a => exact h a

theorem leads_bind (x : Exec) (name : String) (v : Sym) : x.Leads (x.bind name v) := by
  unfold Exec.bind
  cases hb : x.state.bind? name v with
  | none => exact Keeps.refl x
  | some s =>
    obtain ⟨f, -, rfl⟩ := Option.map_eq_some_iff.mp hb
    exact ⟨rfl, rfl, rfl, fun _ h => h, fun _ h => Or.inl h, Or.inr ⟨rfl, rfl⟩, fun _ h => Or.inl h,
      .of_eq rfl rfl rfl rfl rfl⟩

theorem leads_allocate (x : Exec) (dst : String) (t : Ty) (wrapper : Option Wrapper) :
    x.Leads (x.allocate dst t wrapper) :=
  (x.keeps_assume _).leads (leads_bind _ _ _)

end Exec

theorem Effect.leads_apply (this : Term) (args : List Term) (x : Exec) (e : Effect) : x.Leads (e.apply this args x) := by
  cases e with
  | copyArg f i => exact x.leads_need fun v => x.keeps_write _
  | setConst f n => exact x.keeps_write _
  | require i r n => exact x.leads_need fun v => x.keeps_demand _ _

theorem Effect.leads_applyAll (this : Term) (args : List Term) (es : List Effect) (x : Exec) :
    x.Leads (es.foldlM (fun x e => e.apply this args x) x) := by
  induction es generalizing x with
  | nil => exact Exec.Keeps.refl x
  | cons e es ih =>
    rw [List.foldlM_cons]
    exact (e.leads_apply this args x).bind fun y _ => ih y

namespace Machine

variable (m : Machine)

theorem leads_call (method : Method) (this : Term) (args : List Term) (x : Exec) :
    x.Leads (m.call method this args x) := by
  unfold call
  exact x.leads_need fun es => Effect.leads_applyAll this args es x

theorem leads_create (dst : String) (method : Method) (args : List String) (x : Exec) :
    x.Leads (m.create dst method args x) := by
  unfold create
  exact x.leads_need fun ts => (x.leads_allocate _ _ _).bind fun y _ => m.leads_call _ _ _ y

theorem leads_invoke (receiver : String) (method : Method) (args : List String) (x : Exec) :
    x.Leads (m.invoke receiver method args x) := by
  unfold invoke
  refine x.leads_need fun this => ?_
  split
  · exact Exec.Keeps.refl x
  · cases this with
    | localVar y t => exact x.leads_need fun ts => m.leads_call _ _ _ x
    | _ => exact (x.keeps_demand _ _).leads (Exec.leads_need _ fun ts => m.leads_call _ _ _ _)

theorem leads_exec (x : Exec) (stmt : Stmt) : x.Leads (m.exec x stmt) := by
  cases stmt with
  | assignNull dst t => exact x.leads_bind _ _
  | copy dst src => exact x.leads_need fun v => x.leads_bind _ _
  | construct dst method args => exact m.leads_create _ _ _ x
  | produce dst method args => exact m.leads_create _ _ _ x
  | invoke receiver method args => exact m.leads_invoke _ _ _ x
  | allocate dst kind t length =>
    refine x.leads_need fun n => (x.leads_allocate _ _ _).bind fun y _ => ?_
    exact (y.keeps_assume _).trans (Exec.keeps_assume _ _)
  | store c key value =>
    refine x.leads_need fun t => x.leads_need fun k => x.leads_need fun v => ?_
    dsimp only
    by_cases hk : k.ty = .int
    · rw [if_pos hk]
      exact ((x.keeps_demand _ _).trans (Exec.keeps_demand _ _ _)).trans (Exec.keeps_write _ _)
    · rw [if_neg hk]
      exact x.keeps_write _

/-! ### Numbers and branches -/

theorem splits_finish {x : Exec} {r : Run} (h : x.Leads r) (last : Bool) : x.Splits (finish last r) := by
  cases r with
  | error y => exact h.splits.trans (.of_eq rfl rfl rfl rfl rfl)
  | ok y =>
    cases last with
    | false => exact h.splits
    | true => exact h.splits.trans (.of_eq rfl rfl rfl rfl rfl)

/-- The children of a step are numbered in their order, and so are their branches: the state after the statement comes
first, the siblings follow. -/
theorem step_numbers (p : Probe) (n : Nat) (s : State) :
    (m.step p n s).2 = n + (m.step p n s).1.length ∧
    ∀ {b : Nat} {c : State}, (m.step p n s).1[b]? = some c →
      c.id = n + b ∧ c.trail = s.trail ++ [b] ∧ c.edge = some ⟨s.location, s.location + 1⟩ := by
  unfold step
  cases p.body[s.location]? with
  | none => exact ⟨rfl, nofun⟩
  | some stmt =>
    have hsplits := splits_finish (m.leads_exec { state := s.fork n 0 (s.location + 1), next := n + 1 } stmt)
      (s.location + 1 = p.body.length)
    obtain ⟨new, hnew, hnext, hnumbers⟩ := hsplits.siblings
    rw [List.nil_append] at hnew
    dsimp only at hnext hnumbers ⊢
    rw [hnew, hnext, List.length_cons]
    refine ⟨by omega, ?_⟩
    intro b c hc
    cases b with
    | zero =>
      cases hc
      exact ⟨hsplits.id, hsplits.trail, hsplits.edge⟩
    | succ b =>
      rw [List.getElem?_cons_succ] at hc
      obtain ⟨hid, hedge, htrail⟩ := hnumbers hc
      refine ⟨by omega, ?_, hedge⟩
      rw [htrail]
      simp [State.fork, Nat.add_comm]

/-! ### Runs -/

/-- Two states that differ only in where they stand and how they got there. -/
structure SameCore (s t : State) : Prop where
  frame : t.frame = s.frame
  memory : t.memory = s.memory
  path : t.path = s.path
  inputs : t.inputs = s.inputs

theorem SameCore.refl (s : State) : SameCore s s := ⟨rfl, rfl, rfl, rfl⟩

theorem SameCore.trans {r s t : State} (h : SameCore r s) (k : SameCore s t) : SameCore r t :=
  ⟨k.frame.trans h.frame, k.memory.trans h.memory, k.path.trans h.path, k.inputs.trans h.inputs⟩

/-- Statements that are run one after the other, none of which gets stuck. -/
inductive Runs (m : Machine) : State → List Stmt → State → Prop
  | nil {s t : State} (h : SameCore s t) : Runs m s [] t
  | cons {s t u : State} {x : Exec} {n : Nat} {stmt : Stmt} {stmts : List Stmt} (h : SameCore s t)
      (hx : m.exec { state := t, next := n } stmt = .ok x) (hr : Runs m x.state stmts u) : Runs m s (stmt :: stmts) u

namespace Runs

variable {m : Machine} {s t u : State} {ls ks : List Stmt}

theorem append (h : Runs m s ls t) (k : Runs m t ks u) : Runs m s (ls ++ ks) u := by
  induction h with
  | nil h =>
    cases k with
    | nil k => exact .nil (h.trans k)
    | cons k hx hr => exact .cons (h.trans k) hx hr
  | cons h hx _ ih => exact .cons h hx (ih k)

theorem split (h : Runs m s (ls ++ ks) u) : ∃ t, Runs m s ls t ∧ Runs m t ks u := by
  induction ls generalizing s with
  | nil => exact ⟨s, .nil (.refl s), h⟩
  | cons l ls ih =>
    cases h with
    | cons h hx hr =>
      obtain ⟨t, ht, hu⟩ := ih hr
      exact ⟨t, .cons h hx ht, hu⟩

theorem hard (h : Runs m s ls t) : ∀ a ∈ s.path.hard, a ∈ t.path.hard := by
  induction h with
  | nil h =>
    intro a ha
    rw [h.path]
    exact ha
  | @cons s t u x n stmt stmts h hx _ ih =>
    intro a ha
    have hk := m.leads_exec { state := t, next := n } stmt
    rw [hx] at hk
    exact ih a (hk.hard a (by rw [h.path]; exact ha))

end Runs

/-! ### The states of an exploration -/

/-- A state that is not thrown has run the statements up to where it stands. -/
structure Follows (m : Machine) (p : Probe) (s : State) : Prop where
  runs : Runs m (enter p 0) (p.body.take s.location) s
  inputs : s.inputs = (enter p 0).inputs
  returned : s.status = .returned → p.body.length ≤ s.location

/-- A state that is thrown, or has a run behind it. -/
def Tracks (m : Machine) (p : Probe) (s : State) : Prop := s.status = .thrown ∨ Follows m p s

variable {m : Machine} {p : Probe} {s : State}

theorem tracks_enter (m : Machine) (p : Probe) : Tracks m p (enter p 0) := by
  refine Or.inr ⟨.nil (.refl _), rfl, ?_⟩
  intro hs
  have hempty : p.body.isEmpty = true := by
    by_contra hne
    have hrun : (enter p 0).status = .running := by
      simp only [enter, if_neg hne]
    rw [hrun] at hs
    cases hs
  rw [List.isEmpty_iff.mp hempty]
  exact Nat.le_refl 0

theorem Tracks.checked (h : Tracks m p s) : Tracks m p { s with pending := false } := by
  rcases h with h | h
  · exact Or.inl h
  · refine Or.inr ⟨?_, h.inputs, h.returned⟩
    have hsame : Runs m s [] { s with pending := false } := .nil ⟨rfl, rfl, rfl, rfl⟩
    have hrun := h.runs.append hsame
    rwa [List.append_nil] at hrun

/-- What a step can give: the state after the statement, which has returned if it was the last one, or something that
was split off or got stuck. -/
theorem mem_step {n : Nat} {t : State} (ht : t ∈ (m.step p n s).1) :
    ∃ stmt, p.body[s.location]? = some stmt ∧ (t.status = .thrown ∨
      ∃ x, m.exec { state := s.fork n 0 (s.location + 1), next := n + 1 } stmt = .ok x ∧ SameCore x.state t ∧
        t.location = x.state.location ∧
        (t.status = x.state.status ∨ t.status = .returned ∧ s.location + 1 = p.body.length)) := by
  unfold step at ht
  cases hstmt : p.body[s.location]? with
  | none =>
    rw [hstmt] at ht
    cases ht
  | some stmt =>
    rw [hstmt] at ht
    refine ⟨stmt, rfl, ?_⟩
    dsimp only at ht
    have hk := m.leads_exec { state := s.fork n 0 (s.location + 1), next := n + 1 } stmt
    cases hx : m.exec { state := s.fork n 0 (s.location + 1), next := n + 1 } stmt with
    | error x =>
      rw [hx] at ht hk
      rcases List.mem_cons.mp ht with rfl | ht
      · exact Or.inl rfl
      · exact Or.inl ((hk.thrown t ht).resolve_left List.not_mem_nil)
    | ok x =>
      rw [hx] at ht hk
      by_cases hlast : s.location + 1 = p.body.length
      · rw [decide_eq_true hlast] at ht
        rcases List.mem_cons.mp ht with rfl | ht
        · exact Or.inr ⟨x, rfl, ⟨rfl, rfl, rfl, rfl⟩, rfl, Or.inr ⟨rfl, hlast⟩⟩
        · exact Or.inl ((hk.thrown t ht).resolve_left List.not_mem_nil)
      · rw [decide_eq_false hlast] at ht
        rcases List.mem_cons.mp ht with rfl | ht
        · exact Or.inr ⟨x, rfl, .refl _, rfl, Or.inl rfl⟩
        · exact Or.inl ((hk.thrown t ht).resolve_left List.not_mem_nil)

theorem Tracks.step (h : Tracks m p s) (hs : s.isTerminal = false) (n : Nat) :
    ∀ t ∈ (m.step p n s).1, Tracks m p t := by
  have hrunning : s.status = .running := by
    simpa [State.isTerminal] using hs
  have hf : Follows m p s := by
    refine h.resolve_left fun h => ?_
    rw [hrunning] at h
    cases h
  intro t ht
  obtain ⟨stmt, hstmt, ht | ⟨x, hx, hsame, hloc, hstatus⟩⟩ := mem_step ht
  · exact Or.inl ht
  · have hk := m.leads_exec { state := s.fork n 0 (s.location + 1), next := n + 1 } stmt
    rw [hx] at hk
    have hlocation : t.location = s.location + 1 := hloc.trans hk.location
    have hbody : p.body.take t.location = p.body.take s.location ++ [stmt] := by
      rw [hlocation, List.take_add_one, hstmt]
      rfl
    have hfork : SameCore s (s.fork n 0 (s.location + 1)) := ⟨rfl, rfl, rfl, rfl⟩
    refine Or.inr ⟨?_, ?_, ?_⟩
    · rw [hbody]
      exact hf.runs.append (.cons hfork hx (.nil hsame))
    · exact hsame.inputs.trans (hk.inputs.trans hf.inputs)
    · intro hr
      rcases hstatus with he | ⟨-, hlast⟩
      · rw [hr, hk.status] at he
        exact absurd (he.trans hrunning) (by decide)
      · omega

/-- A state that has returned has a run of the whole probe behind it. -/
theorem Tracks.runs (h : Tracks m p s) (hs : s.status = .returned) :
    Runs m (enter p 0) p.body s ∧ s.inputs = (enter p 0).inputs := by
  rcases h with h | h
  · rw [hs] at h
    cases h
  · have hrun := h.runs
    rw [List.take_of_length_le (h.returned hs)] at hrun
    exact ⟨hrun, h.inputs⟩

end Machine

end Symex
