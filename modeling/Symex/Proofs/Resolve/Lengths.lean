import Symex.Proofs.Resolve.Requested
import Symex.Proofs.Resolve.Snapshot

/-!
# Lengths and indices in signed words

A length that is spoken about is what it evaluates to, as long as it fits an unsigned word of 64 bits, and the entries
of the array are the reads below it. Both are put into the store through a signed word, so numbers from `2 ^ 63` on
come out negative, and all others are kept.
-/

namespace Symex

/-- What an unsigned word of 64 bits is as a signed one. -/
def signed (n : Int) : Int := if n < 2 ^ 63 then n else n - 2 ^ 64

theorem Value.ofIndex_eq {k : Nat} (h : k < 2 ^ 64) : Value.ofIndex k = .int (signed k) := by
  have hb : Int.bmod k (2 ^ 64) = signed k := by
    rw [Int.bmod_def, signed]
    omega
  rw [Value.ofIndex_eq_bmod, hb]

namespace Resolve

/-- The array `c` was resolved with the work `u`, where its term has the address `a`. -/
structure ResolvedWith (p : Pass) (u : Work) (a : Address) (c : Container) : Prop where
  isArray : c.term.isArray = true
  standsIn : u.StandsIn p
  address : p.address? u c.term = some a
  made : ∃ n v, resolveArray p (resolveReference p n none) c.term (c.term :: p.aliases a)
    (p.about (c.term :: p.aliases a)) c.atoms u = (c, v)

/-- An atom speaks about the length of `t` or of another name of its address. -/
def LengthSpoken (p : Pass) (a : Address) (t : Term) : Prop :=
  ∃ x ∈ t :: p.aliases a, Term.length x ∈ p.atoms.flatMap Atom.terms

/-- The entry is for the reads at `i`: its index is equal to the indices of some reads of the atoms, all of which
evaluate to `i`. -/
def ReadsIndex (p : Pass) (u : Work) (a : Address) (t : Term) (s : Store) (e : Handle × Handle) (i : Int) : Prop :=
  ∃ name as, s.get? e.1 = some (.primitive (.localVar name .int) (.int (signed i)) as) ∧
    (∃ index, Atom.eq index (.localVar name .int) ∈ as) ∧
    ∀ index, Atom.eq index (.localVar name .int) ∈ as → p.eval u index = some (.int i) ∧
      ∃ base elem, base ∈ t :: p.aliases a ∧ Term.element base index elem ∈ p.atoms.flatMap Atom.terms

variable {p : Pass} {w : Work}

/-! ### Where arrays come from -/

theorem Step.exists_made (h : Step p True {} w) {k : Handle} {c : Container}
    (hc : w.store.get? k = some (.container .array c)) : ∃ v, Made p True v k (.container .array c) ∧ Keeps v w := by
  refine h.keep (P := fun w => ∀ k c, w.store.get? k = some (.container .array c) →
    ∃ v, Made p True v k (.container .array c) ∧ Keeps v w) ?_ ?_ k c hc
  · intro u v ha hu k c hc
    have hkeep : Keeps u v := ⟨fun _ _ hm => ha.get?_some hm, fun _ _ hk => ha.known hk⟩
    rcases ha.container hc with hc | hmade
    · obtain ⟨x, hmade, hx⟩ := hu k c hc
      exact ⟨x, hmade, hx.trans hkeep⟩
    · exact ⟨u, hmade, hkeep⟩
  · intro k c hc
    rw [Store.get?_eq_none_of_le (Nat.zero_le _)] at hc
    cases hc

theorem Made.resolvedWith {k : Handle} {c : Container} (h : Made p True w k (.container .array c)) :
    ∃ a u, w.known.find? a = some k ∧ ResolvedWith p u a c ∧ LaidOut p u a w.store c := by
  obtain ⟨n, t, wrapper, a, u, hstands, ha, rfl, hnew⟩ := h
  obtain ⟨harray, hmade⟩ := resolveNew_array hnew
  obtain ⟨hterm, hlaid⟩ := laidOut_resolveArray (innerOk_reference p n) (u.reserve a).2 a t
    (canonical (p.about (t :: p.aliases a)) t (t :: p.aliases a))
  have hatoms := congrArg (fun r => r.1.atoms) hmade
  rw [hmade] at hterm hlaid
  subst hterm
  refine ⟨a, (u.reserve a).2, (slot_of_resolveNew hnew).2.1, ⟨harray, hstands trivial, ha, n, w, ?_⟩, hlaid⟩
  rw [← hmade]
  exact congrArg (resolveArray p _ _ _ _ · _) hatoms.symm

/-! ### Numbers -/

theorem lengthAt_of_spoken {a : Address} {t : Term} (hspoken : LengthSpoken p a t) {n : Int} (h₀ : 0 ≤ n)
    (h₁ : n < 2 ^ 64) (hn : p.eval w (.length t) = some (.int n)) : lengthAt p w a t = n.toNat := by
  obtain ⟨x, hx, hmem⟩ := hspoken
  obtain ⟨b, hb, hxb⟩ := List.mem_flatMap.mp hmem
  have hsub : x ∈ b.terms := Atom.mem_terms_of_subterm hxb (List.mem_cons_of_mem _ x.self_mem_subterms)
  have habout : b ∈ p.about (t :: p.aliases a) :=
    List.mem_filter.mpr ⟨hb, List.any_eq_true.mpr ⟨x, hx, Atom.mentions_iff.mpr hsub⟩⟩
  have hany : ((p.about (t :: p.aliases a)).any fun b => b.mentionsAny ((t :: p.aliases a).map Term.length)) = true :=
    List.any_eq_true.mpr ⟨b, habout, List.any_eq_true.mpr
      ⟨_, List.mem_map_of_mem hx, Atom.mentions_iff.mpr hxb⟩⟩
  simp only [lengthAt, arrayLength, hn, hany, if_true, Value.index?_int h₀ h₁, Option.getD_some]

theorem mem_elementReads {as : List Atom} {names : List Term} {r : Term × Term} (hr : r ∈ elementReads as names) :
    ∃ base elem, base ∈ names ∧ Term.element base r.1 elem ∈ as.flatMap Atom.terms := by
  obtain ⟨t, ht, he⟩ := List.mem_filterMap.mp hr
  split at he
  next base i elem =>
    split at he
    next hbase =>
      cases he
      exact ⟨base, elem, hbase, List.mem_eraseDups.mp ht⟩
    next => cases he
  next => cases he

theorem LaidOut.readsIndex {a : Address} {c : Container} {s : Store} (h : LaidOut p w a s c) {n : Nat}
    (hn : lengthAt p w a c.term = n) (hlt : n < 2 ^ 64) {e : Handle × Handle} (he : e ∈ c.entries) :
    ∃ i : Nat, i < n ∧ ReadsIndex p w a c.term s e i := by
  obtain ⟨j, hj, rfl⟩ := List.getElem_of_mem he
  obtain ⟨g, hg⟩ : ∃ g, (groupsAt p w a c.term)[j]? = some g := ⟨_, List.getElem?_eq_getElem (h.count ▸ hj)⟩
  have hentry := h.entries j g _ hg (List.getElem?_eq_getElem hj)
  obtain ⟨hlength, hne, hreads⟩ := mem_groupReads_iff.mp (List.mem_of_getElem? hg)
  rw [show lengthAt p w a c.term = n from hn] at hlength
  have hindex := hentry.index
  rw [Value.ofIndex_eq (hlength.trans hlt)] at hindex
  refine ⟨g.1, hlength, _, _, hindex, ?_, fun index hmem => ?_⟩
  · obtain ⟨r, hr⟩ := List.exists_mem_of_ne_nil _ hne
    exact ⟨r.1, OrderedSet.mem_ofList.mpr (List.mem_append_left _ (List.mem_map_of_mem hr))⟩
  · -- The bounds of the index are no equations, so an equation is that of a read.
    rcases List.mem_append.mp (OrderedSet.mem_ofList.mp hmem) with hmem | hmem
    · obtain ⟨r, hr, heq⟩ := List.mem_map.mp hmem
      injection heq with _ hri
      subst hri
      rw [hreads] at hr
      obtain ⟨hr, hvalue⟩ := List.mem_filter.mp hr
      obtain ⟨x, hx, hxi⟩ := Option.bind_eq_some_iff.mp (of_decide_eq_true hvalue)
      rw [(Value.index?_eq_some_iff.mp hxi).1] at hx
      obtain ⟨base, elem, hbase, hread⟩ := mem_elementReads hr
      obtain ⟨b, hb, hbr⟩ := List.mem_flatMap.mp hread
      exact ⟨hx, base, elem, hbase, List.mem_flatMap.mpr ⟨b, (List.mem_filter.mp hb).1, hbr⟩⟩
    · simp [Atom.eq, Atom.ge, Atom.lt] at hmem

/-! ### What a length evaluates to -/

theorem find?_writes_length (h : Heap) (ws : List Write) (a : Address) :
    (h.withWrites (h.latest ws)).writes.find? (.length a) = none := by
  rw [find?_withWrites, Option.map_eq_none_iff, List.find?_eq_none]
  intro w _ hw
  have hw : h.writePlace w = some (.length a) := of_decide_eq_true hw
  cases w with
  | field b f x =>
    obtain ⟨_, -, he⟩ := fieldPlace_eq_some.mp hw
    cases he
  | element b i x =>
    obtain ⟨_, _, -, -, he⟩ := elementPlace_eq_some.mp hw
    cases he

theorem eval_length_congr (hp : ∀ a, p.heap.writes.find? (.length a) = none) {u w : Work} (hu : u.StandsIn p)
    (hw : w.StandsIn p) {t : Term} (ht : p.eval u t = p.eval w t) : p.eval u (.length t) = p.eval w (.length t) := by
  -- Lengths are neither made up nor written, so only the address of the array matters.
  have hnone : ∀ {x : Work}, x.StandsIn p → x.standIns.find? (.length t) = none := by
    intro x hx
    refine Option.eq_none_iff_forall_ne_some.mpr fun y hy => ?_
    obtain ⟨⟨_, _, he⟩, -⟩ := hx _ y hy
    cases he
  have hplace : ∀ (o : Place → Option (Option Value)), (∀ a, o (.length a) = none) → ∀ x : Option Value,
      p.heap.valueAt o (.length t) (lengthPlace x) = p.heap.valueAt (fun _ => none) (.length t) (lengthPlace x) := by
    intro o ho x
    cases hx : lengthPlace x with
    | none => rfl
    | some q =>
      obtain ⟨a, -, rfl⟩ := lengthPlace_eq_some.mp hx
      simp [Heap.valueAt, ho a]
  have hvalue : ∀ {x : Work}, x.StandsIn p →
      p.eval x (.length t) = p.heap.valueAt (fun _ => none) (.length t) (lengthPlace (p.eval x t)) := by
    intro x hx
    unfold Pass.eval
    split
    · rw [← hplace (fun q => (p.heap.writes.find? q).map (p.heap.before x.standIns))
        fun a => Option.map_eq_none_iff.mpr (hp a)]
      show Heap.standIn _ _ _ _ = _
      rw [Heap.standIn, hnone hx]
      rfl
    · show Heap.standIn _ _ _ _ = _
      rw [Heap.standIn, hnone hx]
      rfl
  rw [hvalue hu, hvalue hw, ht]

/-- A length that is spoken about and evaluates to an unsigned word of 64 bits is put into the store as a signed word,
and so is the index of each entry, which is what the indices of its reads evaluate to and lies below the length. -/
theorem run_array_numbers (settings : Settings) (s : State) (m : Assignment) (snapshot : Snapshot) (values : List Sym)
    (statics : List (Field × Sym)) :
    let p := Pass.start settings s m snapshot
    let store := (p.run values statics).store
    ∀ k c, store.get? k = some (.container .array c) →
      ∃ a u, (resolveValues p (values ++ statics.map (·.2)) {}).2.known.find? a = some k ∧ ResolvedWith p u a c ∧
        (c.term.isVariable = true → p.eval u (.length c.term) = p.eval {} (.length c.term)) ∧
        ∀ n, p.eval u (.length c.term) = some (.int n) → 0 ≤ n → n < 2 ^ 64 → LengthSpoken p a c.term →
          (∃ as, store.get? c.length = some (.primitive (.length c.term) (.int (signed n)) as)) ∧
          ∀ e ∈ c.entries, ∃ i, 0 ≤ i ∧ i < n ∧ ReadsIndex p u a c.term store e i := by
  intro p store k c hc
  have hstore : store = (resolveValues p (values ++ statics.map (·.2)) {}).2.store := by
    rw [resolveValues_append]
    rfl
  rw [hstore] at hc ⊢
  obtain ⟨v, hmade, hkeep⟩ := (step_start settings s m snapshot _).exists_made hc
  obtain ⟨a, u, hknown, hwith, hlaid⟩ := hmade.resolvedWith
  have hlaid := hlaid.mono hkeep.store
  refine ⟨a, u, hkeep.known a k hknown, hwith, fun hv => ?_, fun n hn h₀ h₁ hspoken => ?_⟩
  · have href := Term.isReference_of_isArray hwith.isArray
    refine eval_length_congr (find?_writes_length _ _) hwith.standsIn (Work.standsIn_empty _) ?_
    rw [eval_of_variable hwith.standsIn hv href, eval_of_variable (Work.standsIn_empty _) hv href]
  · have hlength := lengthAt_of_spoken hspoken h₀ h₁ hn
    obtain ⟨l, rfl⟩ := Int.eq_ofNat_of_zero_le h₀
    have hlt : l < 2 ^ 64 := by omega
    rw [Int.toNat_natCast] at hlength
    constructor
    · obtain ⟨as, hget⟩ := hlaid.length
      rw [hlength, Value.ofIndex_eq hlt] at hget
      exact ⟨as, hget⟩
    · intro e he
      obtain ⟨i, hi, hreads⟩ := hlaid.readsIndex hlength hlt he
      exact ⟨i, Int.natCast_nonneg i, by omega, hreads⟩

/-- An array of a given length that is read at a given index. -/
def readAt (length index : Int) : State :=
  let a : Term := .param "a" (.array .int)
  { path := { hard := [.ne a .null, .eq (.length a) (.int length), .eq (.element a (.int index) .int) (.int 7)] } }

theorem run_array_numbers_longest : ∃ m, Solver.check 1000 (readAt (2 ^ 63 - 1) (2 ^ 63 - 2)).path false = some m ∧
    let p := Pass.start {} (readAt (2 ^ 63 - 1) (2 ^ 63 - 2)) m .initial
    let store := (p.run [.ref (.param "a" (.array .int)) none] []).store
    ∃ c a u, store.get? ⟨0⟩ = some (.container .array c) ∧ p.eval {} (.length c.term) = some (.int (2 ^ 63 - 1)) ∧
      LengthSpoken p a c.term ∧ c.entries.length = 1 ∧
      (∃ as, store.get? c.length = some (.primitive (.length c.term) (.int (2 ^ 63 - 1)) as)) ∧
      ∀ e ∈ c.entries, ∃ i, 0 ≤ i ∧ i < 2 ^ 63 - 1 ∧ ReadsIndex p u a c.term store e i := by
  have hall : ∃ m ∈ Solver.check 1000 (readAt (2 ^ 63 - 1) (2 ^ 63 - 2)).path false,
      let p := Pass.start {} (readAt (2 ^ 63 - 1) (2 ^ 63 - 2)) m .initial
      ∃ c ∈ arrayOf ((p.run [.ref (.param "a" (.array .int)) none] []).store.get? ⟨0⟩),
        c.term.isVariable = true ∧ p.eval {} (.length c.term) = some (.int (2 ^ 63 - 1)) ∧
        Term.length c.term ∈ p.atoms.flatMap Atom.terms ∧ c.entries.length = 1 := by
    decide +kernel
  obtain ⟨m, hm, c, hc, hv, hn, hspoken, hcount⟩ := hall
  have hc := arrayOf_eq_some_iff.mp hc
  obtain ⟨a, u, -, -, hvalue, hnumbers⟩ := run_array_numbers {} (readAt (2 ^ 63 - 1) (2 ^ 63 - 2)) m .initial
    [.ref (.param "a" (.array .int)) none] [] ⟨0⟩ c hc
  have hspoken : LengthSpoken (Pass.start {} (readAt (2 ^ 63 - 1) (2 ^ 63 - 2)) m .initial) a c.term :=
    ⟨c.term, List.mem_cons_self, hspoken⟩
  have hsigned : signed (2 ^ 63 - 1) = 2 ^ 63 - 1 := by decide
  have hall := hnumbers (2 ^ 63 - 1) ((hvalue hv).trans hn) (by decide) (by decide) hspoken
  rw [hsigned] at hall
  exact ⟨m, hm, c, a, u, hc, hn, hspoken, hcount, hall⟩

/-- One more element than a signed word can count, and the last of them is read: both numbers come out negative. -/
theorem run_array_numbers_negative : ∃ m ∈ Solver.check 1000 (readAt (2 ^ 63 + 1) (2 ^ 63)).path false,
    let p := Pass.start {} (readAt (2 ^ 63 + 1) (2 ^ 63)) m .initial
    let store := (p.run [.ref (.param "a" (.array .int)) none] []).store
    p.eval {} (.length (.param "a" (.array .int))) = some (.int (2 ^ 63 + 1)) ∧
      Term.length (.param "a" (.array .int)) ∈ p.atoms.flatMap Atom.terms ∧
      ∃ c ∈ arrayOf (store.get? ⟨0⟩), (store.get? c.length).bind Model.value? = some (.int (1 - 2 ^ 63)) ∧
        c.entries.map (fun e => (store.get? e.1).bind Model.value?) = [some (.int (-2 ^ 63))] := by
  decide +kernel

end Resolve

end Symex
