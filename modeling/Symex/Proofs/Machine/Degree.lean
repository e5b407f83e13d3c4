import Symex.Proofs.Machine.Trace

/-!
# How many states a step gives

Every effect of a method splits off one sibling at most, and so does each check of a receiver or an index. So a step
gives no more states than the machine's degree says.
-/

namespace Symex

namespace Exec

/-- At most `k` siblings are split off, whether the run goes on or gets stuck. -/
def SplitsUpTo (k : Nat) (x : Exec) : Run → Prop
  | .ok y => y.siblings.length ≤ x.siblings.length + k
  | .error y => y.siblings.length ≤ x.siblings.length + k

variable {j k : Nat} {x : Exec}

theorem SplitsUpTo.mono {r : Run} (h : x.SplitsUpTo j r) (hle : j ≤ k) : x.SplitsUpTo k r := by
  cases r with
  | ok y => exact Nat.le_trans h (Nat.add_le_add_left hle _)
  | error y => exact Nat.le_trans h (Nat.add_le_add_left hle _)

theorem SplitsUpTo.of_le {y : Exec} {r : Run} (h : y.siblings.length ≤ x.siblings.length + j)
    (hr : y.SplitsUpTo k r) : x.SplitsUpTo (j + k) r := by
  cases r with
  | ok z =>
    show z.siblings.length ≤ _
    have hz : z.siblings.length ≤ y.siblings.length + k := hr
    omega
  | error z =>
    show z.siblings.length ≤ _
    have hz : z.siblings.length ≤ y.siblings.length + k := hr
    omega

theorem SplitsUpTo.bind {r : Run} {f : Exec → Run} (h : x.SplitsUpTo j r) (hf : ∀ y : Exec, y.SplitsUpTo k (f y)) :
    x.SplitsUpTo (j + k) (r >>= f) := by
  cases r with
  | ok y => exact .of_le h (hf y)
  | error y => exact SplitsUpTo.mono (r := .error y) h (Nat.le_add_right j k)

theorem splitsUpTo_need {α : Type} {v : Option α} {go : α → Run} (h : ∀ a, v = some a → x.SplitsUpTo k (go a)) :
    x.SplitsUpTo k (x.need v go) := by
  cases v with
  | none => exact Nat.le_add_right _ _
  | some a => exact h a rfl

theorem splitsUpTo_bind (x : Exec) (name : String) (v : Sym) : x.SplitsUpTo 0 (x.bind name v) :=
  splitsUpTo_need fun _ _ => Nat.le_refl _

theorem splitsUpTo_allocate (x : Exec) (dst : String) (t : Ty) (wrapper : Option Wrapper) :
    x.SplitsUpTo 0 (x.allocate dst t wrapper) :=
  .of_le (Nat.le_refl _) (splitsUpTo_bind _ _ _)

theorem length_siblings_demand (x : Exec) (a otherwise : Atom) :
    (x.demand a otherwise).siblings.length = x.siblings.length + 1 := List.length_append

end Exec

open Exec (SplitsUpTo splitsUpTo_need splitsUpTo_bind splitsUpTo_allocate length_siblings_demand)

theorem Effect.splitsUpTo_apply (this : Term) (args : List Term) (x : Exec) (e : Effect) :
    x.SplitsUpTo 1 (e.apply this args x) := by
  cases e with
  | copyArg f i => exact splitsUpTo_need fun v _ => Nat.le_succ _
  | setConst f n => exact Nat.le_succ _
  | require i r n => exact splitsUpTo_need fun v _ => Nat.le_of_eq (length_siblings_demand x _ _)

theorem Effect.splitsUpTo_applyAll (this : Term) (args : List Term) (es : List Effect) (x : Exec) :
    x.SplitsUpTo es.length (es.foldlM (fun x e => e.apply this args x) x) := by
  induction es generalizing x with
  | nil => exact Nat.le_refl _
  | cons e es ih =>
    rw [List.foldlM_cons, List.length_cons, Nat.add_comm]
    exact (e.splitsUpTo_apply this args x).bind ih

namespace Machine

variable (m : Machine)

theorem splitsUpTo_call (method : Method) (this : Term) (args : List Term) (x : Exec) :
    x.SplitsUpTo ((m.methods.map fun e => e.2.length).foldl max 0) (m.call method this args x) := by
  refine splitsUpTo_need fun es hes => (Effect.splitsUpTo_applyAll this args es x).mono ?_
  obtain ⟨e, he, rfl⟩ := Option.map_eq_some_iff.mp hes
  exact (Graph.le_foldl_max _ 0).2 _ (List.mem_map_of_mem (List.mem_of_find?_eq_some he))

theorem splitsUpTo_create (dst : String) (method : Method) (args : List String) (x : Exec) :
    x.SplitsUpTo ((m.methods.map fun e => e.2.length).foldl max 0) (m.create dst method args x) := by
  refine splitsUpTo_need fun ts _ => ?_
  have hcall := (x.splitsUpTo_allocate dst method.produced none).bind
    (m.splitsUpTo_call method (.localVar dst method.produced) ts)
  rwa [Nat.zero_add] at hcall

theorem splitsUpTo_invoke (receiver : String) (method : Method) (args : List String) (x : Exec) :
    x.SplitsUpTo (1 + (m.methods.map fun e => e.2.length).foldl max 0) (m.invoke receiver method args x) := by
  refine splitsUpTo_need fun this _ => ?_
  split
  · exact Nat.le_add_right _ _
  · have hcall (y : Exec) : y.SplitsUpTo ((m.methods.map fun e => e.2.length).foldl max 0)
        (y.need (y.operands? args) fun args => m.call method this args y) :=
      splitsUpTo_need fun ts _ => m.splitsUpTo_call method this ts y
    cases this with
    | localVar y t => exact (hcall x).mono (Nat.le_add_left _ _)
    | _ => exact .of_le (Nat.le_of_eq (length_siblings_demand x _ _)) (hcall _)

theorem splitsUpTo_exec (x : Exec) (stmt : Stmt) :
    x.SplitsUpTo ((m.methods.map fun e => e.2.length).foldl max 0 + 2) (m.exec x stmt) := by
  cases stmt with
  | assignNull dst t => exact (x.splitsUpTo_bind _ _).mono (Nat.zero_le _)
  | copy dst src => exact splitsUpTo_need fun v _ => (x.splitsUpTo_bind _ _).mono (Nat.zero_le _)
  | construct dst method args => exact (m.splitsUpTo_create _ _ _ x).mono (Nat.le_add_right _ _)
  | produce dst method args => exact (m.splitsUpTo_create _ _ _ x).mono (Nat.le_add_right _ _)
  | invoke receiver method args => exact (m.splitsUpTo_invoke _ _ _ x).mono (by omega)
  | allocate dst kind t length =>
    refine splitsUpTo_need fun n _ => SplitsUpTo.mono (j := 0) ?_ (Nat.zero_le _)
    exact (x.splitsUpTo_allocate _ _ _).bind (k := 0) fun y => Nat.le_refl y.siblings.length
  | store c key value =>
    refine splitsUpTo_need fun t _ => splitsUpTo_need fun k _ => splitsUpTo_need fun v _ => ?_
    refine SplitsUpTo.mono (j := 2) ?_ (Nat.le_add_left _ _)
    dsimp only
    by_cases hk : k.ty = .int
    · rw [if_pos hk]
      have hlow := length_siblings_demand x (.ge k (.int 0)) (Atom.ge k (.int 0)).negate
      have hhigh := length_siblings_demand (x.demand (.ge k (.int 0)) (Atom.ge k (.int 0)).negate)
        (.lt k (.length t)) (Atom.lt k (.length t)).negate
      exact Nat.le_of_eq (hhigh.trans (congrArg (· + 1) hlow))
    · rw [if_neg hk]
      exact Nat.le_add_right _ _

/-- A step gives no more states than the machine makes room for. -/
theorem length_step_le (p : Probe) (n : Nat) (s : State) : (m.step p n s).1.length ≤ m.degree := by
  unfold step
  cases p.body[s.location]? with
  | none => exact Nat.zero_le _
  | some stmt =>
    have hsplits := m.splitsUpTo_exec { state := s.fork n 0 (s.location + 1), next := n + 1 } stmt
    have hfinish (last : Bool) (r : Run) (x : Exec) (k : Nat) (h : x.SplitsUpTo k r) :
        (finish last r).siblings.length ≤ x.siblings.length + k := by
      cases r with
      | ok y => cases last <;> exact h
      | error y => exact h
    have hle := hfinish (s.location + 1 = p.body.length) _ _ _ hsplits
    rw [List.length_nil] at hle
    rw [List.length_cons, degree]
    omega

end Machine

end Symex
