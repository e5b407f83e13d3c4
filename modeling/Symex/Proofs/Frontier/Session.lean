import Mathlib.Data.List.Induction
import Symex.Proofs.Frontier.Held

/-!
# Selectors in use

A session is a selector with the instruments that it reads and reports to. It is served requests one after the other:
states are put in, picked and removed, and traversals are reported. What has been put in is at every moment what was
given back together with what the frontier still holds, each state as often as it came.
-/

namespace Symex

/-- What a selector is asked to do. -/
inductive Request where
  | push (state : State)
  | pushAll (states : List State)
  | pick
  | remove (id : Nat)
  | traverse (edge : Edge)

/-- The states that a request puts in. -/
def Request.states : Request → List State
  | push s => [s]
  | pushAll ss => ss
  | _ => []

structure Session where
  selector : Selector
  instruments : Instruments

namespace Session

/-- Answers with a state if one was taken out. -/
def serve (x : Session) : Request → Except Fault (Option State × Session)
  | .push s => do return (none, { x with selector := ← x.selector.push s })
  | .pushAll ss => do return (none, { x with selector := ← x.selector.pushAll ss })
  | .pick =>
    match x.selector.pick x.instruments with
    | some (s, t) => .ok (some s, { x with selector := t })
    | none => .ok (none, x)
  | .remove id =>
    match x.selector.remove id with
    | some (s, t) => .ok (some s, { x with selector := t })
    | none => .ok (none, x)
  | .traverse e => .ok (none, { x with instruments := x.selector.traverse e x.instruments })

/-- Serves requests in order, and keeps the answers. -/
def run (x : Session) (requests : List Request) : Except Fault (List (Option State) × Session) :=
  requests.foldlM (fun y c => do
    let (a, x) ← y.2.serve c
    return (y.1 ++ [a], x)) ([], x)

/-- The states that requests put in. -/
def pushed (requests : List Request) : List State := requests.flatMap Request.states

/-- The states that were given back. -/
def returned (answers : List (Option State)) : List State := answers.flatMap Option.toList

/-- What was there at the start and was put in since is what was given back and what is held. -/
def Balanced (start : List State) (requests : List Request) (answers : List (Option State)) (held : List State) : Prop :=
  (start ++ pushed requests).Perm (returned answers ++ held)

/-! ### One more request -/

theorem run_concat {x y z : Session} {requests : List Request} {c : Request} {answers : List (Option State)} {a : Option State}
    (hrun : x.run requests = .ok (answers, y)) (hserve : y.serve c = .ok (a, z)) :
    x.run (requests ++ [c]) = .ok (answers ++ [a], z) := by
  unfold run at hrun ⊢
  rw [List.foldlM_append]
  refine bind_eq_ok.mpr ⟨_, hrun, ?_⟩
  simp only [List.foldlM_cons, List.foldlM_nil, hserve]
  rfl

theorem pushed_concat (requests : List Request) (c : Request) : pushed (requests ++ [c]) = pushed requests ++ c.states := by
  simp [pushed]

theorem returned_concat (answers : List (Option State)) (a : Option State) :
    returned (answers ++ [a]) = returned answers ++ a.toList := by
  simp [returned]

theorem Balanced.concat {start held held' : List State} {requests : List Request} {answers : List (Option State)} {c : Request}
    {a : Option State} (h : Balanced start requests answers held) (hc : (held ++ c.states).Perm (a.toList ++ held')) :
    Balanced start (requests ++ [c]) (answers ++ [a]) held' := by
  unfold Balanced at h ⊢
  rw [pushed_concat, returned_concat, ← List.append_assoc]
  calc (start ++ pushed requests) ++ c.states
    _ |>.Perm ((returned answers ++ held) ++ c.states) := h.append_right _
    _ |>.Perm (returned answers ++ (held ++ c.states)) := by rw [List.append_assoc]
    _ |>.Perm (returned answers ++ (a.toList ++ held')) := hc.append_left _
    _ |>.Perm ((returned answers ++ a.toList) ++ held') := by rw [List.append_assoc]

/-! ### Sessions with one frontier -/

variable {inv : State → Prop} {f : Frontier} {w : Wiring} {i : Instruments}

/-- A request puts its states into the frontier, or takes its answer out, or leaves it alone. -/
theorem exists_serve (hf : f.Judges inv) (c : Request) (hc : ∀ s ∈ c.states, inv s) :
    ∃ a g j, serve ⟨.single f w, i⟩ c = .ok (a, ⟨.single g w, j⟩) ∧ g.Judges inv ∧
      (f.toList ++ c.states).Perm (a.toList ++ g.toList) := by
  cases c with
  | push s =>
    obtain ⟨g, hg, hj⟩ := hf.exists_push (hc s (List.mem_singleton_self s))
    refine ⟨none, g, i, by simp [serve, Selector.push, hg, bind, Except.bind, pure, Except.pure], hj, ?_⟩
    simp [Frontier.toList_push hg, Request.states]
  | pushAll ss =>
    have hss : ∀ s ∈ ss, inv s := hc
    obtain ⟨g, hg, hj⟩ := hf.exists_pushAll hss
    refine ⟨none, g, i, by simp [serve, Selector.pushAll, hg, bind, Except.bind, pure, Except.pure], hj, ?_⟩
    simp [Frontier.toList_pushAll hg, Request.states]
  | pick =>
    cases hp : f.pick i with
    | none => exact ⟨none, f, i, by simp [serve, Selector.pick, hp], hf, by simp [Request.states]⟩
    | some r =>
      have hperm := Frontier.pick_perm hp
      exact ⟨some r.1, r.2, i, by simp [serve, Selector.pick, hp], hf.pick hp, by simpa [Request.states] using hperm.symm⟩
  | remove id =>
    cases hp : f.remove id with
    | none => exact ⟨none, f, i, by simp [serve, Selector.remove, hp], hf, by simp [Request.states]⟩
    | some r =>
      have hperm := Frontier.remove_perm hp
      exact ⟨some r.1, r.2, i, by simp [serve, Selector.remove, hp], hf.remove hp,
        by simpa [Request.states] using hperm.symm⟩
  | traverse e => exact ⟨none, f, _, rfl, hf, by simp [Request.states]⟩

theorem exists_run (hf : f.Judges inv) (requests : List Request) (hc : ∀ s ∈ pushed requests, inv s) :
    ∃ answers g j, run ⟨.single f w, i⟩ requests = .ok (answers, ⟨.single g w, j⟩) ∧ g.Judges inv ∧
      Balanced f.toList requests answers g.toList := by
  induction requests using List.reverseRecOn with
  | nil => exact ⟨[], f, i, rfl, hf, by simp [Balanced, pushed, returned]⟩
  | append_singleton requests c ih =>
    simp only [pushed_concat, List.mem_append] at hc
    obtain ⟨answers, g, j, hrun, hg, hbal⟩ := ih fun s hs => hc s (Or.inl hs)
    obtain ⟨a, g', j', hserve, hg', hperm⟩ := exists_serve (w := w) (i := j) hg c fun s hs => hc s (Or.inr hs)
    exact ⟨answers ++ [a], g', j', run_concat hrun hserve, hg', hbal.concat hperm⟩

/-- Whatever the policy, the statistics and the dice, and whatever requests are made, no state is lost and none is given
back more often than it was put in. -/
theorem run_conserves (f : Frontier) (w : Wiring) (i : Instruments) (requests : List Request)
    (hjudges : f.Judges (· ∈ pushed requests)) :
    ∃ answers g j, run ⟨.single f w, i⟩ requests = .ok (answers, ⟨.single g w, j⟩) ∧
      Balanced f.toList requests answers g.toList ∧
      (Selector.single g w).size = g.toList.length ∧
      ((Selector.single g w).pick j = none ↔ g.toList = []) ∧
      ∀ id, (((Selector.single g w).remove id).isSome ↔ ∃ s ∈ g.toList, s.id = id) ∧
        ∀ s t, (Selector.single g w).remove id = some (s, t) → s.id = id := by
  obtain ⟨answers, g, j, hrun, -, hbal⟩ := exists_run (w := w) (i := i) hjudges requests fun s hs => hs
  refine ⟨answers, g, j, hrun, hbal, g.size_eq, ?_, ?_⟩
  · have hsome := Frontier.pick_isSome (i := j) (f := g)
    rw [Selector.pick, Option.map_eq_none_iff, ← Option.not_isSome_iff_eq_none, hsome, not_not]
  · intro id
    constructor
    · rw [Selector.remove, Option.isSome_map, Frontier.remove_isSome]
      simp
    · intro s t hs
      obtain ⟨r, hr, he⟩ := Option.map_eq_some_iff.mp hs
      cases he
      exact Frontier.id_of_remove hr

/-- A frontier that goes by the numbers of states, and finds one of them infeasible. -/
def byNumber : Frontier :=
  .scored { judge := fun s => .ok (if s.id = 2 then .infeasible else .feasible (.finite s.id)) } [] 0

def mixedRequests : List Request :=
  [.push { id := 3 }, .pushAll [{ id := 1 }, { id := 2 }], .traverse ⟨0, 1⟩, .pick, .remove 2, .remove 2, .push { id := 2 }]

theorem run_conserves_byNumber :
    byNumber.Judges (· ∈ pushed mixedRequests) ∧
      ∃ answers g j, run ⟨.single byNumber {}, { graph := .line 1 }⟩ mixedRequests = .ok (answers, ⟨.single g {}, j⟩) ∧
        Balanced byNumber.toList mixedRequests answers g.toList ∧
        (Selector.single g {}).size = g.toList.length ∧
        ((Selector.single g {}).pick j = none ↔ g.toList = []) ∧
        ∀ id, (((Selector.single g {}).remove id).isSome ↔ ∃ s ∈ g.toList, s.id = id) ∧
          ∀ s t, (Selector.single g {}).remove id = some (s, t) → s.id = id :=
  have hjudges : byNumber.Judges (· ∈ pushed mixedRequests) := fun _ _ => ⟨_, rfl⟩
  ⟨hjudges, run_conserves byNumber {} { graph := .line 1 } mixedRequests hjudges⟩

end Session

end Symex
