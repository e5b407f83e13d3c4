import Mathlib.Data.List.Nodup
import Symex.Proofs.Resolve.Built
import Symex.Proofs.Term.Parts

/-!
# What a pass shares

A pass keeps a record of the references it answers. Every object, every container and every alias in the store is
the answer to one of them. All answers for one address lead to one and the same object or container: the first answer
is that model, the others are aliases of it. Answers for different addresses lead to different models.
-/

namespace Symex

namespace Resolve

/-- What stands at the handle that a reference was answered with. -/
def Work.Answers (w : Work) (h : Handle) : Option Address → Prop
  | none => ∃ t as, w.store.get? h = some (.object t as)
  | some a =>
    if a.isNull then ∃ t, w.store.get? h = some (.null t)
    else ∃ k, w.known.find? a = some k ∧ (h = k ∨ ∃ t, w.store.get? h = some (.sameAs t k))

/-- The record is right and complete: what is not in it is null or a primitive. -/
structure Work.Recorded (w : Work) : Prop where
  entries : ∀ {a : Option Address} {h : Handle}, (a, h) ∈ w.answers → h.index < w.store.size ∧ w.Answers h a
  nodup : (w.answers.map (·.2)).Nodup
  known : ∀ {a : Address} {k : Handle}, w.known.find? a = some k → (some a, k) ∈ w.answers
  slots : ∀ {h : Handle}, h.index < w.store.size →
    (∃ m, w.store.get? h = some m ∧ m.isPlain = true) ∨ ∃ a, (a, h) ∈ w.answers

theorem Work.recorded_empty : ({} : Work).Recorded :=
  ⟨nofun, List.nodup_nil, nofun, fun h => absurd h (Nat.not_lt_zero _)⟩

variable {p : Pass} {ample : Prop} {w w' : Work}

/-! ### One action -/

/-- Models stay where they are. -/
theorem Action.get?_some (h : Action p ample w w') {k : Handle} {m : Model} (hm : w.store.get? k = some m) :
    w'.store.get? k = some m := by
  cases h with
  | standIn => exact hm
  | reserve => exact (Store.extends_reserve w.store).get?_some hm
  | fill hlt hn hf _ => exact (Store.gains_fill hlt hn _).get?_some hm
  | _ => exact (Store.extends_alloc w.store _).get?_some hm

theorem Action.size_le (h : Action p ample w w') : w.store.size ≤ w'.store.size := by
  cases h with
  | standIn => exact Nat.le_refl _
  | reserve => exact (Store.extends_reserve w.store).size_le
  | fill hlt hn hf _ => exact (Store.gains_fill hlt hn _).size_le
  | _ => exact (Store.extends_alloc w.store _).size_le

theorem Action.answers (h : Action p ample w w') {e : Option Address × Handle} (he : e ∈ w.answers) :
    e ∈ w'.answers := by
  cases h with
  | unplaced => exact List.mem_cons_of_mem _ he
  | null => exact List.mem_cons_of_mem _ he
  | again => exact List.mem_cons_of_mem _ he
  | reserve => exact List.mem_cons_of_mem _ he
  | _ => exact he

theorem Work.Answers.mono {h : Handle} {a : Option Address} (hs : w.Answers h a)
    (hget : ∀ {k : Handle} {m : Model}, w.store.get? k = some m → w'.store.get? k = some m)
    (hknown : ∀ {b : Address} {k : Handle}, w.known.find? b = some k → w'.known.find? b = some k) :
    w'.Answers h a := by
  cases a with
  | none =>
    obtain ⟨t, as, hm⟩ := hs
    exact ⟨t, as, hget hm⟩
  | some a =>
    rw [Work.Answers] at hs ⊢
    split at hs
    next hn =>
      obtain ⟨t, hm⟩ := hs
      rw [if_pos hn]
      exact ⟨t, hget hm⟩
    next hn =>
      obtain ⟨k, hk, hm⟩ := hs
      rw [if_neg hn]
      exact ⟨k, hknown hk, hm.imp_right (Exists.imp fun _ ht => hget ht)⟩

namespace Work.Recorded

/-- The record does not change, and what is new is null or a primitive. -/
theorem same (hr : w.Recorded) (ha : Action p ample w w') (hanswers : w'.answers = w.answers)
    (hknown : w'.known = w.known)
    (hnew : ∀ {h : Handle}, w.store.size ≤ h.index → h.index < w'.store.size →
      ∃ m, w'.store.get? h = some m ∧ m.isPlain = true) : w'.Recorded := by
  refine ⟨?_, hanswers ▸ hr.nodup, ?_, ?_⟩
  · intro a h he
    rw [hanswers] at he
    obtain ⟨hlt, hm⟩ := hr.entries he
    exact ⟨Nat.lt_of_lt_of_le hlt ha.size_le, hm.mono ha.get?_some ha.known⟩
  · intro a k hk
    rw [hknown] at hk
    rw [hanswers]
    exact hr.known hk
  · intro h hlt
    rcases Nat.lt_or_ge h.index w.store.size with hh | hh
    · rw [hanswers]
      exact (hr.slots hh).imp_left fun ⟨m, hm, hp⟩ => ⟨m, ha.get?_some hm, hp⟩
    · exact Or.inl (hnew hh hlt)

/-- One more answer, in a slot of its own. -/
theorem cons (hr : w.Recorded) (ha : Action p ample w w') {a : Option Address}
    (hanswers : w'.answers = (a, ⟨w.store.size⟩) :: w.answers) (hsize : w'.store.size = w.store.size + 1)
    (hm : w'.Answers ⟨w.store.size⟩ a)
    (hknown : ∀ {b : Address} {k : Handle}, w'.known.find? b = some k →
      w.known.find? b = some k ∨ (some b, k) = (a, ⟨w.store.size⟩)) : w'.Recorded := by
  refine ⟨?_, ?_, ?_, ?_⟩
  · intro b h he
    rw [hanswers] at he
    rcases List.mem_cons.mp he with he | he
    · cases he
      exact ⟨by rw [hsize]; exact Nat.lt_succ_self _, hm⟩
    · obtain ⟨hlt, hb⟩ := hr.entries he
      exact ⟨by omega, hb.mono ha.get?_some ha.known⟩
  · rw [hanswers]
    refine List.nodup_cons.mpr ⟨?_, hr.nodup⟩
    intro hmem
    -- The answers so far are slots of the store so far.
    obtain ⟨⟨b, h⟩, he, hh⟩ := List.mem_map.mp hmem
    have hlt := (hr.entries he).1
    have hi : h.index = w.store.size := congrArg Handle.index hh
    omega
  · intro b k hk
    rw [hanswers]
    rcases hknown hk with hk | hk
    · exact List.mem_cons_of_mem _ (hr.known hk)
    · exact hk ▸ List.mem_cons_self
  · intro h hlt
    rw [hanswers]
    by_cases hh : h.index = w.store.size
    · refine Or.inr ⟨a, ?_⟩
      cases h
      exact List.mem_cons.mpr (Or.inl (congrArg (fun i => (a, Handle.mk i)) hh))
    · rcases hr.slots (h := h) (by omega) with ⟨m, hm, hp⟩ | ⟨b, hb⟩
      · exact Or.inl ⟨m, ha.get?_some hm, hp⟩
      · exact Or.inr ⟨b, List.mem_cons_of_mem _ hb⟩

end Work.Recorded

theorem Action.recorded (h : Action p True w w') (hr : w.Recorded) : w'.Recorded := by
  have hget : ∀ m, (w.store.alloc m).2.get? ⟨w.store.size⟩ = some m := Store.get?_alloc_self w.store
  have hsize : ∀ m, (w.store.alloc m).2.size = w.store.size + 1 := Store.size_alloc w.store
  have action := h
  cases h with
  | standIn array n hx => exact hr.same action rfl rfl fun h h' => absurd h' (Nat.not_lt_of_le h)
  | @put m hm =>
    refine hr.same action rfl rfl ?_
    intro h hle hlt
    have hlt' : h.index < w.store.size + 1 := Nat.lt_of_lt_of_eq hlt (hsize m)
    exact ⟨m, (Store.get?_alloc w.store m h).trans (if_pos (by omega)), hm⟩
  | giveUp t h => exact absurd trivial h
  | unplaced as ha => exact hr.cons action rfl (hsize _) ⟨_, _, hget _⟩ Or.inl
  | null ha hn =>
    refine hr.cons action rfl (hsize _) ?_ Or.inl
    rw [Work.Answers, if_pos hn]
    exact ⟨_, hget _⟩
  | again ha hn hk =>
    refine hr.cons action rfl (hsize _) ?_ Or.inl
    rw [Work.Answers, if_neg (Bool.eq_false_iff.mp hn)]
    exact ⟨_, hk, Or.inr ⟨_, hget _⟩⟩
  | @reserve t a ha hn hk =>
    have hfind : ∀ b, (w.reserve a).2.known.find? b = if b = a then some ⟨w.store.size⟩ else w.known.find? b :=
      fun b => Table.find?_insert w.known a b _
    refine hr.cons action rfl (Store.size_reserve w.store) ?_ ?_
    · rw [Work.Answers, if_neg (Bool.eq_false_iff.mp hn)]
      exact ⟨_, (hfind a).trans (if_pos rfl), Or.inl rfl⟩
    · intro b k hb
      rw [hfind] at hb
      split at hb
      next he => exact Or.inr (by rw [he, Option.some.inj hb])
      next => exact Or.inl hb
  | fill hlt hn hm _ =>
    exact hr.same action rfl rfl
      fun h h' => absurd (Nat.lt_of_lt_of_eq h' (Store.size_fill _ _ _)) (Nat.not_lt_of_le h)

/-! ### A whole pass -/

namespace Step

theorem answers (h : Step p ample w w') {e : Option Address × Handle} (he : e ∈ w.answers) : e ∈ w'.answers :=
  h.keep (fun ha => ha.answers) he

variable (h : Step p True {} w)
include h

theorem recorded : w.Recorded := h.keep (fun ha => ha.recorded) Work.recorded_empty

theorem exists_subject {a : Address} (hn : a.isNull = false) {x : Handle} (hx : (some a, x) ∈ w.answers) :
    ∃ k m, w.known.find? a = some k ∧ w.store.get? k = some m ∧ m.isSubject = true ∧
      (x = k ∨ ∃ t, w.store.get? x = some (.sameAs t k)) := by
  have hs : w.Sound := h.keep (fun ha => ha.sound) Work.sound_empty
  have hm := (h.recorded.entries hx).2
  rw [Work.Answers, if_neg (Bool.eq_false_iff.mp hn)] at hm
  obtain ⟨k, hk, hxk⟩ := hm
  obtain ⟨hlt, hsub⟩ := hs.known hk
  obtain ⟨m, hm⟩ := h.wellFormed.exists_get? hlt
  exact ⟨k, m, hk, hm, hsub m hm, hxk⟩

theorem exists_deref {a : Address} (hn : a.isNull = false) {x : Handle} (hx : (some a, x) ∈ w.answers) :
    ∃ k, w.known.find? a = some k ∧ w.store.deref x = .ok k := by
  obtain ⟨k, m, hk, hm, hsub, rfl | ⟨t, ht⟩⟩ := h.exists_subject hn hx
  · exact ⟨x, hk, Store.deref_of_subject hm hsub⟩
  · exact ⟨k, hk, Store.deref_of_sameAs ht hm (Model.ne_sameAs_of_isSubject hsub)⟩

/-- A handle answers one reference, and so stands for one address. -/
theorem known_inj {a b : Address} {k : Handle} (ha : w.known.find? a = some k) (hb : w.known.find? b = some k) :
    a = b := by
  have hr := h.recorded
  have he := List.inj_on_of_nodup_map hr.nodup (hr.known ha) (hr.known hb) rfl
  exact Option.some.inj (congrArg Prod.fst he)

end Step

/-- Only indices are made up, so a reference that a variable holds is the one that the assignment gives. -/
theorem eval_of_variable {settings : Settings} {s : State} {m : Assignment} {snapshot : Snapshot} {w : Work}
    (hw : w.StandsIn (Pass.start settings s m snapshot)) {t : Term} (hv : t.isVariable = true)
    (hr : t.isReference = true) : (Pass.start settings s m snapshot).eval w t = m.eval t := by
  have hheap : (Pass.start settings s m snapshot).heap.assignment = m := assignment_withReads { assignment := m } _
  have hnone : w.standIns.find? t = none := by
    cases hx : w.standIns.find? t with
    | none => rfl
    | some x =>
      obtain ⟨⟨array, n, rfl⟩, -⟩ := hw t x hx
      cases hr
  have hlayer : ∀ (h : Heap) overlay hop, h.assignment = m → h.evalLayer w.standIns overlay hop t = m.eval t := by
    intro h overlay hop hm
    have hown : h.evalLayer w.standIns overlay hop t = Heap.standIn w.standIns hop t (h.valueAt overlay t none) := by
      cases t with
      | param => rfl
      | localVar => rfl
      | static => rfl
      | _ => cases hv
    rw [hown, Heap.standIn, hnone, Heap.valueAt, hm]
    exact Option.or_none
  rw [Pass.eval]
  split
  · exact hlayer _ _ _ hheap
  · exact hlayer _ _ _ hheap

theorem address?_of_variable {settings : Settings} {s : State} {m : Assignment} {snapshot : Snapshot} {w : Work}
    (hw : w.StandsIn (Pass.start settings s m snapshot)) {t : Term} (hv : t.isVariable = true)
    (hr : t.isReference = true) : (Pass.start settings s m snapshot).address? w t = (m.eval t).bind Value.addr? := by
  rw [Pass.address?, eval_of_variable hw hv hr]

theorem mem_answers_resolveReference {n : Nat} (wrapper : Option Wrapper) {t : Term} {a : Address}
    (ha : p.address? w t = some a) (hn : a.isNull = false) :
    let r := resolveReference p (n + 1) wrapper t w
    (some a, r.1) ∈ r.2.answers := by
  rw [resolveReference, ha]
  dsimp only
  rw [if_neg (Bool.eq_false_iff.mp hn)]
  split
  · exact List.mem_cons_self
  · have hnew := (resolveNew_ok (w := (w.reserve a).2) (innerOk_reference p n) t wrapper a fun h => h.elim).step
    exact hnew.answers List.mem_cons_self

section Requested

variable {m : Assignment} {values : List Sym}

theorem step_start (settings : Settings) (s : State) (m : Assignment) (snapshot : Snapshot) (values : List Sym) :
    Step (Pass.start settings s m snapshot) True {}
      (resolveValues (Pass.start settings s m snapshot) values {}).2 :=
  (resolveValues_step (fun _ => ample_start settings s m snapshot) values fun _ => Work.standsIn_empty _).1

/-- A reference that is asked for is answered with the address it has in the assignment. -/
theorem mem_answers_of_requested (settings : Settings) (s : State) (snapshot : Snapshot) {i : Nat} {t : Term}
    {wrapper : Option Wrapper} (hi : values[i]? = some (.ref t wrapper)) (hv : t.isVariable = true)
    (hr : t.isReference = true) {a : Address} (ha : m.eval t = some (.addr a)) (hn : a.isNull = false) :
    ∃ h, (resolve settings s m snapshot values).params[i]? = some h ∧
      (some a, h) ∈ (resolveValues (Pass.start settings s m snapshot) values {}).2.answers := by
  obtain ⟨hget, hbefore, hafter⟩ := resolveValues_split True (fun _ => ample_start settings s m snapshot) hi
    fun _ => Work.standsIn_empty _
  have hstands := hbefore.standsIn (Work.standsIn_empty _)
  obtain ⟨n, hb⟩ : ∃ n, (Pass.start settings s m snapshot).bound + t.subterms.length = n + 1 :=
    Nat.exists_eq_add_one_of_ne_zero (by have := List.length_pos_of_mem t.self_mem_subterms; omega)
  refine ⟨_, hget, hafter.answers ?_⟩
  have haddr := address?_of_variable hstands hv hr
  rw [ha] at haddr
  rw [resolveValue, hb]
  exact mem_answers_resolveReference wrapper haddr hn

/-- Two variables lead to the same model exactly if they hold the same address. In the whole store, every model that
is not null and not a primitive answers one reference; the answers for an address are one object or container, and
aliases of it. -/
theorem resolve_shares (settings : Settings) (s : State) (m : Assignment) (snapshot : Snapshot) (values : List Sym) :
    (∀ (i j : Nat) (t u : Term) (v v' : Option Wrapper) (a b : Address), values[i]? = some (.ref t v) →
      values[j]? = some (.ref u v') → t.isVariable = true → t.isReference = true → u.isVariable = true →
      u.isReference = true → m.eval t = some (.addr a) → m.eval u = some (.addr b) → a.isNull = false →
      b.isNull = false →
      ∃ h h' x y, (resolve settings s m snapshot values).params[i]? = some h ∧
        (resolve settings s m snapshot values).params[j]? = some h' ∧
        (resolve settings s m snapshot values).store.deref h = .ok x ∧
        (resolve settings s m snapshot values).store.deref h' = .ok y ∧ (x = y ↔ a = b)) ∧
    let w := (resolveValues (Pass.start settings s m snapshot) values {}).2
    (resolve settings s m snapshot values).store = w.store ∧
      (w.answers.map (·.2)).Nodup ∧
      (∀ {h : Handle} {x : Model}, w.store.get? h = some x → x.isPlain = false → ∃ a, (a, h) ∈ w.answers) ∧
      (∀ {a : Address} {h : Handle}, (some a, h) ∈ w.answers → a.isNull = false →
        ∃ k x, (some a, k) ∈ w.answers ∧ w.store.get? k = some x ∧ x.isSubject = true ∧
          ∀ h, (some a, h) ∈ w.answers → h = k ∨ ∃ t, w.store.get? h = some (.sameAs t k)) := by
  have hstep := step_start settings s m snapshot values
  refine ⟨?_, rfl, hstep.recorded.nodup, ?_, ?_⟩
  · intro i j t u v v' a b hi hj hvt hrt hvu hru ha hb hna hnb
    obtain ⟨h, hh, hha⟩ := mem_answers_of_requested settings s snapshot hi hvt hrt ha hna
    obtain ⟨h', hh', hhb⟩ := mem_answers_of_requested settings s snapshot hj hvu hru hb hnb
    obtain ⟨x, hx, hdx⟩ := hstep.exists_deref hna hha
    obtain ⟨y, hy, hdy⟩ := hstep.exists_deref hnb hhb
    refine ⟨h, h', x, y, hh, hh', hdx, hdy, ?_, ?_⟩
    · rintro rfl
      exact hstep.known_inj hx hy
    · rintro rfl
      exact Option.some.inj (hx.symm.trans hy)
  · intro h x hx hplain
    rcases hstep.recorded.slots (Store.lt_size_of_get? hx) with ⟨y, hy, hp⟩ | ha
    · rw [Option.some.inj (hx.symm.trans hy), hp] at hplain
      cases hplain
    · exact ha
  · intro a h hh hn
    obtain ⟨k, x, hk, hx, hsub, -⟩ := hstep.exists_subject hn hh
    refine ⟨k, x, hstep.recorded.known hk, hx, hsub, ?_⟩
    intro h' hh'
    obtain ⟨k', -, hk', -, -, hor⟩ := hstep.exists_subject hn hh'
    cases hk.symm.trans hk'
    exact hor

end Requested

/-- An array `a` that has itself as its element. -/
def ring : State :=
  let a : Term := .param "a" (.array (.object "Node"))
  { path := { hard := [.eq (.length a) (.int 1), .eq (.element a (.int 0) (.object "Node")) a] } }

/-- The array of `ring` is known by two names, and something else is at `c`. -/
def ringValues : Assignment :=
  let a : Term := .param "a" (.array (.object "Node"))
  .ofList [(a, .addr ⟨1⟩), (.static ⟨"Node", "b", .object "Node"⟩, .addr ⟨1⟩),
    (.localVar "c" (.object "Node"), .addr ⟨2⟩), (.length a, .int 1), (.element a (.int 0) (.object "Node"), .addr ⟨1⟩)]

def ringRequests : List Sym :=
  [.ref (.param "a" (.array (.object "Node"))) none, .ref (.static ⟨"Node", "b", .object "Node"⟩) (some .list),
    .ref (.localVar "c" (.object "Node")) none]

theorem resolve_shares_ring :
    let r := resolve {} ring ringValues .current ringRequests
    (∃ h h' x, r.params[0]? = some h ∧ r.params[1]? = some h' ∧ r.store.deref h = .ok x ∧ r.store.deref h' = .ok x) ∧
      ∃ h h' x y, r.params[1]? = some h ∧ r.params[2]? = some h' ∧ r.store.deref h = .ok x ∧
        r.store.deref h' = .ok y ∧ x ≠ y := by
  have hshare := (resolve_shares {} ring ringValues .current ringRequests).1
  constructor
  · obtain ⟨h, h', x, y, hh, hh', hx, hy, he⟩ := hshare 0 1 _ _ _ _ ⟨1⟩ ⟨1⟩ rfl rfl rfl rfl rfl rfl (by decide)
      (by decide) rfl rfl
    exact ⟨h, h', x, hh, hh', hx, he.mpr rfl ▸ hy⟩
  · obtain ⟨h, h', x, y, hh, hh', hx, hy, he⟩ := hshare 1 2 _ _ _ _ ⟨1⟩ ⟨2⟩ rfl rfl rfl rfl rfl rfl (by decide)
      (by decide) rfl rfl
    exact ⟨h, h', x, y, hh, hh', hx, hy, fun hxy => absurd (he.mp hxy) (by decide)⟩

end Resolve

end Symex
