import Symex.Frontier.Basic

/-!
# What a frontier holds

Through the view `toList`: a push adds the state at the end, a pick and a removal take one state out, a pick finds
one exactly if there is any, and a removal exactly if there is one with the number. None of this depends on the
policy, on the statistics or on what is drawn.
-/

namespace Symex

/-! ### Batches -/

@[simp] theorem Batch.flatMap_ofList? (ss : List State) : (Batch.ofList? ss).toList.flatMap Batch.toList = ss := by
  cases ss with
  | nil => rfl
  | cons s ss => simp [Batch.ofList?, Batch.toList]

theorem Batch.length_toList (b : Batch) : b.toList.length = b.size := rfl

namespace Batches

@[simp] theorem flatMap_restore (rest : List State) (bs : List Batch) :
    (restore rest bs).flatMap Batch.toList = rest ++ bs.flatMap Batch.toList := by
  simp [restore]

theorem pick_perm {below : State → State → Bool} {bs rest : List Batch} {s : State}
    (h : pick below bs = some (s, rest)) : (s :: rest.flatMap Batch.toList).Perm (bs.flatMap Batch.toList) := by
  cases bs with
  | nil => simp [pick] at h
  | cons b bs =>
    simp only [pick, Option.map_eq_some_iff, Prod.mk.injEq, Prod.exists] at h
    obtain ⟨t, r, ht, rfl, rfl⟩ := h
    rw [flatMap_restore, List.flatMap_cons]
    exact (takeLeast_perm ht).append_right (bs.flatMap Batch.toList)

/-- No batch is empty, so the first one has a state to give. -/
theorem pick_isSome {below : State → State → Bool} {bs : List Batch} :
    (pick below bs).isSome ↔ bs.flatMap Batch.toList ≠ [] := by
  cases bs with
  | nil => simp [pick]
  | cons b bs =>
    have hb : b.toList ≠ [] := List.cons_ne_nil b.first b.others
    simp [pick, takeLeast_isSome, hb]

theorem remove_perm {id : Nat} {bs rest : List Batch} {s : State}
    (h : remove id bs = some (s, rest)) : (s :: rest.flatMap Batch.toList).Perm (bs.flatMap Batch.toList) := by
  induction bs generalizing rest with
  | nil => simp [remove] at h
  | cons b bs ih =>
    simp only [remove] at h
    split at h
    · next r hr =>
      simp only [Option.some.injEq, Prod.mk.injEq] at h
      obtain ⟨rfl, rfl⟩ := h
      rw [flatMap_restore, List.flatMap_cons]
      exact (takeFirst_perm hr).append_right (bs.flatMap Batch.toList)
    · simp only [Option.map_eq_some_iff, Prod.mk.injEq, Prod.exists] at h
      obtain ⟨t, r, ht, rfl, rfl⟩ := h
      rw [List.flatMap_cons, List.flatMap_cons]
      exact List.perm_middle.symm.trans ((ih ht).append_left b.toList)

theorem remove_isSome {id : Nat} {bs : List Batch} :
    (remove id bs).isSome = (bs.flatMap Batch.toList).any (·.id == id) := by
  induction bs with
  | nil => rfl
  | cons b bs ih =>
    have hf : (takeFirst (fun s : State => s.id == id) b.toList).isSome = b.toList.any (·.id == id) := takeFirst_isSome
    simp only [remove, List.flatMap_cons, List.any_append]
    split
    · next r hr => rw [← hf, hr]; simp
    · next hn => rw [← hf, hn, Option.isSome_map, ih]; simp

end Batches

/-! ### Frontiers -/

namespace Frontier

theorem size_eq (f : Frontier) : f.size = f.toList.length := by
  cases f with
  | queue o r bs => simp [size, toList, List.length_flatMap, List.sum_eq_foldr, Batch.length_toList]
  | _ => simp [size, toList]

theorem toList_push {f g : Frontier} {s : State} (h : f.push s = .ok g) : g.toList = f.toList ++ [s] := by
  cases f with
  | scored sc es n =>
    simp only [push, bind, Except.bind] at h
    split at h
    · cases h
    · simp only [pure, Except.pure, Except.ok.injEq] at h
      subst h
      simp [toList]
  | _ =>
    simp only [push, Except.ok.injEq] at h
    subst h
    simp [toList, Batch.toList]

theorem toList_foldlM_push {f g : Frontier} {ss : List State} (h : ss.foldlM push f = .ok g) :
    g.toList = f.toList ++ ss := by
  induction ss generalizing f with
  | nil =>
    simp only [List.foldlM_nil, pure, Except.pure, Except.ok.injEq] at h
    simp [h]
  | cons s ss ih =>
    simp only [List.foldlM_cons, bind, Except.bind] at h
    split at h
    · cases h
    · next k hk => rw [ih h, toList_push hk, List.append_assoc]; rfl

theorem toList_pushAll {f g : Frontier} {ss : List State} (h : f.pushAll ss = .ok g) :
    g.toList = f.toList ++ ss := by
  cases f with
  | queue o r bs =>
    simp only [pushAll, Except.ok.injEq] at h
    subst h
    simp [toList]
  | _ => exact toList_foldlM_push h

theorem pick_perm {i : Instruments} {f g : Frontier} {s : State} (h : f.pick i = some (s, g)) :
    (s :: g.toList).Perm f.toList := by
  cases f with
  | queue o r bs =>
    cases o with
    | oldest =>
      simp only [pick, Option.map_eq_some_iff, Prod.mk.injEq, Prod.exists] at h
      obtain ⟨t, rest, ht, rfl, rfl⟩ := h
      exact Batches.pick_perm ht
    | newest =>
      simp only [pick, Option.map_eq_some_iff, Prod.mk.injEq, Prod.exists] at h
      obtain ⟨t, rest, ht, rfl, rfl⟩ := h
      have hr := (List.reverse_perm rest).flatMap_right Batch.toList
      have hb := (List.reverse_perm bs).flatMap_right Batch.toList
      exact (hr.cons t).trans ((Batches.pick_perm ht).trans hb)
  | ranked r ss =>
    simp only [pick, Option.map_eq_some_iff, Prod.mk.injEq, Prod.exists] at h
    obtain ⟨t, rest, ht, rfl, rfl⟩ := h
    exact takeLeast_perm ht
  | uniform d ss =>
    simp only [pick] at h
    split at h
    · cases h
    · simp only [Option.map_eq_some_iff, Prod.mk.injEq, Prod.exists] at h
      obtain ⟨t, rest, ht, rfl, rfl⟩ := h
      exact takeAt_perm ht
  | walk d ss =>
    simp only [pick, Walk.take, Option.map_eq_some_iff, Option.bind_eq_some_iff, Prod.mk.injEq, Prod.exists] at h
    obtain ⟨t, rest, ⟨k, _, ht⟩, rfl, rfl⟩ := h
    exact takeAt_perm ht
  | weighted r d ss =>
    simp only [pick] at h
    split at h
    · cases h
    · simp only [Option.map_eq_some_iff, Prod.mk.injEq, Prod.exists] at h
      obtain ⟨t, rest, ht, rfl, rfl⟩ := h
      exact takeAt_perm ht
  | scored sc es n =>
    simp only [pick, Option.map_eq_some_iff, Prod.mk.injEq, Prod.exists] at h
    obtain ⟨v, t, rest, ht, rfl, rfl⟩ := h
    exact (takeLeast_perm ht).map (·.2)

theorem remove_perm {id : Nat} {f g : Frontier} {s : State} (h : f.remove id = some (s, g)) :
    (s :: g.toList).Perm f.toList := by
  cases f with
  | queue o r bs =>
    simp only [remove, Option.map_eq_some_iff, Prod.mk.injEq, Prod.exists] at h
    obtain ⟨t, rest, ht, rfl, rfl⟩ := h
    exact Batches.remove_perm ht
  | scored sc es n =>
    simp only [remove, Option.map_eq_some_iff, Prod.mk.injEq, Prod.exists] at h
    obtain ⟨v, t, rest, ht, rfl, rfl⟩ := h
    exact (takeFirst_perm ht).map (·.2)
  | _ =>
    simp only [remove, Option.map_eq_some_iff, Prod.mk.injEq, Prod.exists] at h
    obtain ⟨t, rest, ht, rfl, rfl⟩ := h
    exact takeFirst_perm ht

theorem remove_isSome {id : Nat} {f : Frontier} : (f.remove id).isSome = f.toList.any (·.id == id) := by
  cases f with
  | queue o r bs => simp [remove, toList, Batches.remove_isSome]
  | scored sc es n => simp [remove, toList, takeFirst_isSome, List.any_map, Function.comp_def]
  | _ => simp [remove, toList, takeFirst_isSome]

end Frontier

end Symex
