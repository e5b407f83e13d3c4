import Mathlib.Data.List.Nodup
import Symex.Data.OrderedTable
import Symex.Data.Table

/-!
# Looking up entries

Association lists with pairwise different keys, tables and ordered tables that are read from a list, and lists
without repetitions: a look-up finds an entry exactly if the entry is there.
-/

namespace Symex

/-! ### Association lists -/

section Lookup

variable {κ β : Type} [DecidableEq κ]

theorem mem_of_lookup {l : List (κ × β)} {k : κ} {v : β} (h : l.lookup k = some v) : (k, v) ∈ l := by
  induction l with
  | nil => simp at h
  | cons e l ih =>
    obtain ⟨a, b⟩ := e
    rw [Table.lookup_cons_if] at h
    by_cases hk : k = a
    · rw [if_pos hk] at h
      have hb : b = v := Option.some.inj h
      rw [hk, hb]
      exact List.mem_cons_self
    · rw [if_neg hk] at h
      exact List.mem_cons_of_mem _ (ih h)

theorem lookup_of_mem {l : List (κ × β)} {k : κ} {v : β} (hn : (l.map (·.1)).Nodup) (h : (k, v) ∈ l) :
    l.lookup k = some v := by
  induction l with
  | nil => cases h
  | cons e l ih =>
    obtain ⟨a, b⟩ := e
    have hn' : a ∉ l.map (·.1) ∧ (l.map (·.1)).Nodup := by simpa using hn
    rw [Table.lookup_cons_if]
    rcases List.mem_cons.mp h with he | hm
    · have hk : k = a := congrArg Prod.fst he
      have hv : v = b := congrArg Prod.snd he
      rw [if_pos hk, hv]
    · have hk : k ≠ a := by
        intro he
        exact hn'.1 (he ▸ List.mem_map.mpr ⟨(k, v), hm, rfl⟩)
      rw [if_neg hk]
      exact ih hn'.2 hm

theorem lookup_eq_some_iff_mem {l : List (κ × β)} {k : κ} {v : β} (hn : (l.map (·.1)).Nodup) :
    l.lookup k = some v ↔ (k, v) ∈ l :=
  ⟨mem_of_lookup, lookup_of_mem hn⟩

theorem exists_lookup_of_mem {l : List (κ × β)} {k : κ} (h : k ∈ l.map (·.1)) : ∃ v, l.lookup k = some v := by
  cases hl : l.lookup k with
  | some v => exact ⟨v, rfl⟩
  | none =>
    obtain ⟨e, he, hk⟩ := List.mem_map.mp h
    have hne := List.lookup_eq_none_iff.mp hl e he
    simp [hk] at hne

end Lookup

/-! ### Lists without repetitions -/

theorem nodup_eraseDups {α : Type} [DecidableEq α] (l : List α) : l.eraseDups.Nodup := by
  -- The tail is filtered before it is looked at again, so the induction is on the length.
  induction hn : l.length using Nat.strongRecOn generalizing l with
  | _ n ih =>
    cases l with
    | nil => simp
    | cons a l =>
      rw [List.eraseDups_cons, List.nodup_cons]
      have hlt : (l.filter fun b => !b == a).length < n := by
        have hle := List.length_filter_le (fun b => !b == a) l
        rw [List.length_cons] at hn
        omega
      refine ⟨?_, ih _ hlt _ rfl⟩
      rw [List.mem_eraseDups]
      simp

/-! ### Tables -/

namespace Table

variable {κ β : Type} [DecidableEq κ]

theorem find?_foldl_insert (ps : List (κ × β)) (t : Table κ β) (k : κ) :
    (ps.foldl (fun t p => t.insert p.1 p.2) t).find? k = (ps.reverse.lookup k).or (t.find? k) := by
  induction ps generalizing t with
  | nil => simp
  | cons p ps ih =>
    rw [List.foldl_cons, ih, List.reverse_cons, List.lookup_append, Option.or_assoc, find?_insert]
    congr 1
    obtain ⟨a, b⟩ := p
    rw [lookup_cons_if]
    by_cases h : k = a
    · simp [h]
    · simp [h]

theorem find?_ofList (ps : List (κ × β)) (k : κ) : (ofList ps).find? k = ps.reverse.lookup k := by
  rw [ofList, find?_foldl_insert, find?_empty, Option.or_none]

theorem mem_of_find?_ofList {ps : List (κ × β)} {k : κ} {v : β} (h : (ofList ps).find? k = some v) : (k, v) ∈ ps := by
  rw [find?_ofList] at h
  exact List.mem_reverse.mp (mem_of_lookup h)

theorem exists_find?_ofList {ps : List (κ × β)} {k : κ} (h : k ∈ ps.map (·.1)) : ∃ v, (ofList ps).find? k = some v := by
  rw [find?_ofList]
  apply exists_lookup_of_mem
  rw [List.map_reverse]
  exact List.mem_reverse.mpr h

theorem find?_ofList_singleton (k k' : κ) (v : β) : (ofList [(k', v)]).find? k = if k = k' then some v else none := by
  rw [find?_ofList, List.reverse_singleton, lookup_cons_if]
  rfl

theorem find?_ofList_of_nodup {ps : List (κ × β)} (hn : (ps.map (·.1)).Nodup) {k : κ} {v : β} :
    (ofList ps).find? k = some v ↔ (k, v) ∈ ps := by
  have hr : (ps.reverse.map (·.1)).Nodup := by
    rw [List.map_reverse]
    exact List.nodup_reverse.mpr hn
  rw [find?_ofList, lookup_eq_some_iff_mem hr, List.mem_reverse]

theorem find?_insertNew (t : Table κ β) (k j : κ) (v : β) :
    (t.insertNew k v).find? j = (t.find? j).or (if j = k then some v else none) := by
  unfold insertNew contains
  by_cases hj : j = k
  · subst hj
    cases hf : t.find? j with
    | some x => simp [hf]
    | none => simp
  · cases hf : t.find? k with
    | some x => simp [hj]
    | none => simp [hj, find?_insert]

end Table

namespace OrderedTable

variable {κ β : Type} [DecidableEq κ] [Ord κ]

theorem find?_foldl_insert (ps : List (κ × β)) (t : OrderedTable κ β) (k : κ) :
    (ps.foldl (fun t p => t.insert p.1 p.2) t).find? k = (ps.reverse.lookup k).or (t.find? k) := by
  induction ps generalizing t with
  | nil => simp
  | cons p ps ih =>
    rw [List.foldl_cons, ih, List.reverse_cons, List.lookup_append, Option.or_assoc, find?_insert]
    congr 1
    obtain ⟨a, b⟩ := p
    rw [Table.lookup_cons_if]
    by_cases h : k = a
    · simp [h]
    · simp [h]

theorem mem_of_mem_insertInto {k : κ} {v : β} {l : List (κ × β)} {e : κ × β} (h : e ∈ insertInto k v l) :
    e = (k, v) ∨ e ∈ l := by
  induction l with
  | nil => exact Or.inl (List.mem_singleton.mp h)
  | cons x l ih =>
    rw [insertInto] at h
    split at h
    · rcases List.mem_cons.mp h with h | h
      · exact Or.inl h
      · exact Or.inr (List.mem_cons_of_mem _ h)
    · split at h
      · exact (List.mem_cons.mp h)
      · rcases List.mem_cons.mp h with rfl | h
        · exact Or.inr List.mem_cons_self
        · exact (ih h).imp_right (List.mem_cons_of_mem _)

theorem find?_ofList (ps : List (κ × β)) (k : κ) : (ofList ps).find? k = ps.reverse.lookup k := by
  have he : (empty : OrderedTable κ β).find? k = none := rfl
  rw [ofList, find?_foldl_insert, he, Option.or_none]

theorem exists_find?_ofList {ps : List (κ × β)} {k : κ} (h : k ∈ ps.map (·.1)) : ∃ v, (ofList ps).find? k = some v := by
  rw [find?_ofList]
  apply exists_lookup_of_mem
  rw [List.map_reverse]
  exact List.mem_reverse.mpr h

theorem find?_ofList_of_nodup {ps : List (κ × β)} (hn : (ps.map (·.1)).Nodup) {k : κ} {v : β} :
    (ofList ps).find? k = some v ↔ (k, v) ∈ ps := by
  have hr : (ps.reverse.map (·.1)).Nodup := by
    rw [List.map_reverse]
    exact List.nodup_reverse.mpr hn
  rw [find?_ofList, lookup_eq_some_iff_mem hr, List.mem_reverse]

/-- Numbers stay in increasing order. -/
theorem pairwise_insertInto {k : Nat} {v : β} {l : List (Nat × β)} (h : (l.map (·.1)).Pairwise (· < ·)) :
    ((insertInto k v l).map (·.1)).Pairwise (· < ·) := by
  induction l with
  | nil => simp [insertInto]
  | cons e l ih =>
    obtain ⟨hfirst, hrest⟩ := List.pairwise_cons.mp h
    rw [insertInto]
    split
    next he => exact List.pairwise_cons.mpr ⟨he ▸ hfirst, hrest⟩
    next hne =>
      split
      next hlt =>
        have hlt' : k < e.1 := Nat.compare_eq_lt.mp hlt
        refine List.pairwise_cons.mpr ⟨List.forall_mem_cons.mpr ⟨hlt', fun i hi => ?_⟩, h⟩
        exact Nat.lt_trans hlt' (hfirst i hi)
      next hge =>
        refine List.pairwise_cons.mpr ⟨fun i hi => ?_, ih hrest⟩
        obtain ⟨x, hx, rfl⟩ := List.mem_map.mp hi
        rcases mem_of_mem_insertInto hx with rfl | hx
        · have hle : ¬ k < e.1 := fun hlt => hge (Nat.compare_eq_lt.mpr hlt)
          show e.1 < k
          omega
        · exact hfirst _ (List.mem_map_of_mem hx)

end OrderedTable

end Symex
