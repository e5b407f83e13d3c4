import Symex.Proofs.Explore.Turns

/-!
# States can be told apart

Every state takes its number from one counter, and its trail is that of the state it came from with one branch added.
A state that is picked is taken out of every frontier that holds it, under its number, so no state is picked twice.
Hence no two states that come from one first state have taken the same branches.
-/

namespace Symex

/-! ### Numbers in a selector -/

namespace Selector

/-- The states in each frontier have different numbers, all of them with a property. -/
inductive Numbered (q : Nat → Prop) : Selector → Prop
  | single {f : Frontier} {w : Wiring} (ids : (f.toList.map State.id).Nodup) (held : ∀ s ∈ f.toList, q s.id) :
    Numbered q (.single f w)
  | interleaved {ms : List Selector} {turn : Nat} {w : Wiring} (members : ∀ m ∈ ms, Numbered q m) :
    Numbered q (.interleaved ms turn w)

variable {q q' : Nat → Prop} {s s' : Selector}

theorem Numbered.mono (h : Numbered q s) (hq : ∀ n, q n → q' n) : Numbered q' s := by
  induction h with
  | single ids held => exact .single ids fun x hx => hq _ (held x hx)
  | interleaved members ih => exact .interleaved ih

theorem Only.numbered (h : Only (fun _ => False) s) : Numbered q s := by
  induction h with
  | @single f w held =>
    have hnil : f.toList = [] := List.eq_nil_iff_forall_not_mem.mpr held
    refine .single ?_ fun x hx => (held x hx).elim
    rw [hnil]
    exact List.nodup_nil
  | interleaved members ih => exact .interleaved ih

theorem numbered_append {f g : Frontier} {w : Wiring} {xs : List State} (hg : g.toList = f.toList ++ xs)
    (ids : (f.toList.map State.id).Nodup) (held : ∀ s ∈ f.toList, q s.id) (hxs : (xs.map State.id).Nodup)
    (hnew : ∀ x ∈ xs, ¬ q x.id) : Numbered (fun n => q n ∨ n ∈ xs.map State.id) (.single g w) := by
  refine .single ?_ ?_
  · rw [hg, List.map_append]
    refine List.nodup_append.mpr ⟨ids, hxs, ?_⟩
    rintro a ha b hb rfl
    obtain ⟨y, hy, rfl⟩ := List.mem_map.mp ha
    obtain ⟨x, hx, he⟩ := List.mem_map.mp hb
    exact hnew x hx (he ▸ held y hy)
  · intro y hy
    rw [hg, List.mem_append] at hy
    exact hy.imp (held y) (List.mem_map_of_mem (f := State.id))

theorem Numbered.push (h : Numbered q s) {x : State} (hx : ¬ q x.id) (hs : s.push x = .ok s') :
    Numbered (fun n => q n ∨ n ∈ [x].map State.id) s' := by
  induction h generalizing s' with
  | @single f w ids held =>
    obtain ⟨g, hg, he⟩ := bind_eq_ok.mp hs
    rw [← pure_eq_ok.mp he]
    exact numbered_append (Frontier.toList_push hg) ids held (List.nodup_singleton _) (List.forall_mem_singleton.mpr hx)
  | interleaved members ih =>
    obtain ⟨ns, rfl, hns⟩ := push_interleaved hs
    refine .interleaved fun n hn => ?_
    obtain ⟨m, hm, hmn⟩ := hns n hn
    exact ih m hm hmn

theorem Numbered.pushAll (h : Numbered q s) {xs : List State} (hids : (xs.map State.id).Nodup)
    (hnew : ∀ x ∈ xs, ¬ q x.id) (hs : s.pushAll xs = .ok s') : Numbered (fun n => q n ∨ n ∈ xs.map State.id) s' := by
  induction h generalizing s' with
  | @single f w ids held =>
    obtain ⟨g, hg, he⟩ := bind_eq_ok.mp hs
    rw [← pure_eq_ok.mp he]
    exact numbered_append (Frontier.toList_pushAll hg) ids held hids hnew
  | interleaved members ih =>
    obtain ⟨ns, rfl, hns⟩ := pushAll_interleaved hs
    refine .interleaved fun n hn => ?_
    obtain ⟨m, hm, hmn⟩ := hns n hn
    exact ih m hm hmn

/-- What is left when a state was taken out. -/
theorem numbered_of_perm {f g : Frontier} {w : Wiring} {x : State} (hp : (x :: g.toList).Perm f.toList)
    (ids : (f.toList.map State.id).Nodup) (held : ∀ s ∈ f.toList, q s.id) :
    Numbered (fun n => q n ∧ n ≠ x.id) (.single g w) := by
  have hids := (hp.map State.id).nodup_iff.mpr ids
  rw [List.map_cons, List.nodup_cons] at hids
  refine .single hids.2 fun y hy => ⟨held y (hp.mem_iff.mp (List.mem_cons_of_mem _ hy)), ?_⟩
  intro he
  exact hids.1 (he ▸ List.mem_map_of_mem hy)

theorem removeEach_eq_none {id : Nat} {ms : List Selector} (h : (removeEach id ms).1 = none) :
    ∀ m ∈ ms, m.remove id = none := by
  induction ms with
  | nil => nofun
  | cons m ms ih =>
    rw [removeEach] at h
    cases hm : m.remove id with
    | some r =>
      rw [hm] at h
      cases h
    | none =>
      rw [hm] at h
      exact List.forall_mem_cons.mpr ⟨hm, ih h⟩

/-- After a removal, whether it found something or not, the number is gone. -/
theorem Numbered.remove (h : Numbered q s) (id : Nat) :
    (∀ x s', s.remove id = some (x, s') → Numbered (fun n => q n ∧ n ≠ id) s') ∧
      (s.remove id = none → Numbered (fun n => q n ∧ n ≠ id) s) := by
  induction h with
  | @single f w ids held =>
    constructor
    · intro x s' hs
      obtain ⟨⟨y, g⟩, hr, he⟩ := Option.map_eq_some_iff.mp hs
      cases he
      have hnumbered := numbered_of_perm (w := w) (Frontier.remove_perm hr) ids held
      rwa [Frontier.id_of_remove hr] at hnumbered
    · intro hs
      have hnone : (f.remove id).isSome = false := by
        rw [Option.map_eq_none_iff.mp hs]
        rfl
      rw [Frontier.remove_isSome, List.any_eq_false] at hnone
      exact .single ids fun y hy => ⟨held y hy, by simpa using hnone y hy⟩
  | @interleaved ms turn w members ih =>
    constructor
    · intro x s' hs
      obtain ⟨r, -, he⟩ := Option.map_eq_some_iff.mp hs
      cases he
      refine .interleaved fun n hn => ?_
      rcases mem_removeEach hn with ⟨hn, hnone⟩ | ⟨m, hm, y, hy⟩
      · exact (ih n hn).2 hnone
      · exact (ih m hm).1 y n hy
    · intro hs
      exact .interleaved fun m hm => (ih m hm).2 (removeEach_eq_none (Option.map_eq_none_iff.mp hs) m hm)

theorem Numbered.pick (h : Numbered q s) {i : Instruments} {x : State} (hs : s.pick i = some (x, s')) :
    q x.id ∧ Numbered (fun n => q n ∧ n ≠ x.id) s' := by
  induction h generalizing x s' with
  | @single f w ids held =>
    obtain ⟨⟨y, g⟩, hr, he⟩ := Option.map_eq_some_iff.mp hs
    cases he
    have hp := Frontier.pick_perm hr
    exact ⟨held _ (hp.mem_iff.mp List.mem_cons_self), numbered_of_perm hp ids held⟩
  | interleaved members ih =>
    obtain ⟨ns, turn', rfl, m, hm, n, hr, hns⟩ := pick_interleaved hs
    obtain ⟨hx, hn⟩ := ih m hm hr
    refine ⟨hx, .interleaved fun n' hn' => ?_⟩
    rcases hns n' hn' with hn' | rfl
    · rcases mem_removeEach hn' with ⟨hn', hnone⟩ | ⟨m', hm', z, hz⟩
      · exact ((members n' hn').remove _).2 hnone
      · exact ((members m' hm').remove _).1 z n' hz
    · exact hn

theorem Only.mono {inv inv' : State → Prop} (h : Only inv s) (hi : ∀ x, inv x → inv' x) : Only inv' s := by
  induction h with
  | single held => exact .single fun x hx => hi x (held x hx)
  | interleaved members ih => exact .interleaved ih

end Selector

namespace Explore

variable {α : Type}

namespace Turn

/-- A state that comes from `s` by way of the turns: `s` itself, or a child of such a state. -/
inductive Descends (ts : List Turn) (s : State) : State → Prop
  | self : Descends ts s s
  | child {t : Turn} {c : State} (parent : Descends ts s t.picked) (ht : t ∈ ts) (hc : c ∈ t.children) :
    Descends ts s c

theorem Descends.mono {ts ts' : List Turn} {s u : State} (h : Descends ts s u) (hsub : ∀ t ∈ ts, t ∈ ts') :
    Descends ts' s u := by
  induction h with
  | self => exact .self
  | child _ ht hc ih => exact .child ih (hsub _ ht) hc

/-- Every child takes the branch of its position. -/
def Branching (ts : List Turn) : Prop :=
  ∀ t ∈ ts, ∀ b c, t.children[b]? = some c → c.trail = t.picked.trail ++ [b]

/-- By induction on the way from the first state: where the trails are the same, so are the parents, and each parent
had one turn. -/
theorem Descends.eq_of_trail {ts : List Turn} (hts : Branching ts) (hids : (ids ts).Nodup) {first u v : State}
    (hfirst : first.trail = []) (hu : Descends ts first u) (hv : Descends ts first v) (he : u.trail = v.trail) :
    u = v := by
  have hchild : ∀ {t : Turn} {c : State}, t ∈ ts → c ∈ t.children →
      ∃ b : Nat, t.children[b]? = some c ∧ c.trail = t.picked.trail ++ [b] := by
    intro t c ht hc
    obtain ⟨b, hb⟩ := List.mem_iff_getElem?.mp hc
    exact ⟨b, hb, hts t ht b c hb⟩
  induction hu generalizing v with
  | self =>
    cases hv with
    | self => rfl
    | child _ ht hc =>
      obtain ⟨b, -, htrail⟩ := hchild ht hc
      rw [hfirst, htrail] at he
      exact absurd he.symm (by simp)
  | @child t c _ ht hc ih =>
    obtain ⟨b, hb, htrail⟩ := hchild ht hc
    cases hv with
    | self =>
      rw [hfirst, htrail] at he
      exact absurd he (by simp)
    | @child t' c' hp' ht' hc' =>
      obtain ⟨b', hb', htrail'⟩ := hchild ht' hc'
      rw [htrail, htrail'] at he
      obtain ⟨hparent, hbranch⟩ := List.append_inj' he rfl
      have hpicked := ih hp' hparent
      have hturn : t = t' := List.inj_on_of_nodup_map hids ht ht' (congrArg State.id hpicked)
      rw [← hturn, ← List.singleton_inj.mp hbranch, hb] at hb'
      exact Option.some.inj hb'

end Turn

namespace Progress

open Turn

variable {p : Setup α}

/-! ### What turns keep -/

/-- All children are numbered one after the other, whatever is picked. -/
theorem keeps_numbers (hp : p.Numbers) (start : Nat) :
    Keeps p (fun ts => (pushed ts).map State.id = List.range' start (pushed ts).length ∧ Branching ts)
      fun ts x => x.nextId = start + (pushed ts).length := by
  constructor
  · rintro ts x t ⟨hids, hbranch⟩ hnext - ht
    constructor
    · rw [pushed_concat, List.map_append, List.length_append, hids, ids_of_turn? hp ht, hnext, List.range'_append_1]
    · intro u hu b c hc
      rcases List.mem_append.mp hu with hu | hu
      · exact hbranch u hu b c hc
      · rw [List.mem_singleton.mp hu] at hc ⊢
        exact (numbers_of_turn? hp ht hc).2.1
  · rintro ts x y t why - hnext - htakes
    rw [htakes.nextId, hnext, pushed_concat, List.length_append, Nat.add_assoc]

/-- No number that was picked is held or can be given again. -/
structure Once (counted : List Nat) (ts : List Turn) (x : Progress α) : Prop where
  apart : x.selector.Numbered fun n => n < x.nextId ∧ n ∉ ids ts
  below : ∀ n ∈ ids ts, n < x.nextId
  visited : ∃ new, x.tally.visited = counted ++ new ∧ new.Sublist (ids ts)

theorem keeps_once (hp : p.Numbers) (counted : List Nat) : Keeps p (fun ts => (ids ts).Nodup) (Once counted) := by
  constructor
  · rintro ts x t hids hx - ht
    obtain ⟨⟨selector, hpick⟩, -⟩ := turn?_eq_some ht
    have hnew := (hx.apart.pick hpick).1.2
    rw [ids_concat]
    exact hids.append (List.nodup_singleton _) (List.disjoint_singleton.mpr hnew)
  · rintro ts x y t why - hx - htakes
    obtain ⟨selector, hpick, hpush, -⟩ := htakes.exchange
    obtain ⟨⟨hlt, -⟩, hleft⟩ := hx.apart.pick hpick
    have hnext := htakes.nextId
    have hids := ids_of_turn? hp htakes.turn
    have hbelow : ∀ n ∈ ids (ts ++ [t]), n < x.nextId := by
      intro n hn
      rw [ids_concat, List.mem_append, List.mem_singleton] at hn
      rcases hn with hn | rfl
      · exact hx.below n hn
      · exact hlt
    refine ⟨?_, ?_, ?_⟩
    · have hpushed := hleft.pushAll (hids ▸ List.nodup_range') (fun c hc hq =>
        Nat.not_lt.mpr (htakes.id_bounds hp hc).1 hq.1.1) hpush
      refine hpushed.mono ?_
      rintro n (⟨⟨hn, hnew⟩, hne⟩ | hn)
      · refine ⟨by omega, ?_⟩
        rw [ids_concat, List.mem_append, List.mem_singleton]
        exact not_or.mpr ⟨hnew, hne⟩
      · obtain ⟨c, hc, rfl⟩ := List.mem_map.mp hn
        obtain ⟨hge, hlt⟩ := htakes.id_bounds hp hc
        exact ⟨hlt, fun hold => Nat.not_lt.mpr hge (hbelow _ hold)⟩
    · intro n hn
      have hlt := hbelow n hn
      omega
    · obtain ⟨new, hnew, hsub⟩ := hx.visited
      rw [ids_concat]
      rcases htakes.visited with hsame | hmore
      · exact ⟨new, hsame.trans hnew, hsub.trans (List.sublist_append_left _ _)⟩
      · exact ⟨new ++ [t.picked.id], by rw [hmore, hnew, List.append_assoc], hsub.append (List.Sublist.refl _)⟩

/-- Where nothing else was held, all that is held comes from the first state. -/
theorem keeps_descent (p : Setup α) (first : State) :
    Keeps p (fun ts => ∀ s ∈ pushed ts, Descends ts first s) fun ts x => x.selector.Only (Descends ts first) := by
  have hturn : ∀ {ts : List Turn} {x : Progress α} {t : Turn}, (∀ s ∈ pushed ts, Descends ts first s) →
      x.selector.Only (Descends ts first) → x.turn? p = some t → ∀ s ∈ pushed (ts ++ [t]), Descends (ts ++ [t]) first s := by
    intro ts x t hpushed hx ht s hs
    obtain ⟨⟨selector, hpick⟩, -⟩ := turn?_eq_some ht
    have hmono : ∀ {u : State}, Descends ts first u → Descends (ts ++ [t]) first u := fun hu =>
      hu.mono fun v hv => List.mem_append_left _ hv
    rw [pushed_concat] at hs
    rcases List.mem_append.mp hs with hs | hs
    · exact hmono (hpushed s hs)
    · exact .child (hmono (hx.pick hpick).1) (List.mem_append_right _ (List.mem_singleton_self t)) hs
  constructor
  · intro ts x t hpushed hx _ ht
    exact hturn hpushed hx ht
  · intro ts x y t why hpushed hx _ htakes
    obtain ⟨selector, hpick, hpush, -⟩ := htakes.exchange
    have hleft := (hx.pick hpick).2.mono fun u hu => hu.mono fun v hv => List.mem_append_left [t] hv
    refine hleft.pushAll (fun c hc => hturn hpushed hx htakes.turn c ?_) hpush
    rw [pushed_concat]
    exact List.mem_append_right _ hc

end Progress

theorem Engine.id_initial (e : Engine) (id : Nat) : (e.initial id).id = id := by
  cases e <;> rfl

theorem Engine.trail_initial (e : Engine) (id : Nat) : (e.initial id).trail = [] := by
  cases e <;> rfl

open Turn in
/-- In every run of either engine from a first state that has its number from the same counter, with any selector, all
states that are pushed have different numbers, and a child has taken one branch more than the state that was stepped.
If the numbers of what the selector holds are apart, no state is visited twice, and the states that come from the
first one have different trails. A selector that holds nothing is such a one, and there all states come from the
first one. -/
theorem Engine.run_identifies (e : Engine) (limit : Nat) (visit : State → α → Except Fault (α × Bool)) (rounds : Nat)
    (x : Progress α) {id : Nat} (hid : id < x.nextId) :
    let p := e.setup limit visit
    let first := e.initial id
    let turns := x.turnsFrom p rounds first
    ((first :: pushed turns).map State.id).Nodup ∧
    (∀ t ∈ turns, ∀ b c, t.children[b]? = some c → c.trail = t.picked.trail ++ [b]) ∧
    (x.selector.Numbered (fun n => n < x.nextId ∧ n ≠ id) →
      (∀ y why, x.run p rounds first = .ok (y, why) →
        ∃ new, y.tally.visited = x.tally.visited ++ new ∧ new.Sublist (ids turns) ∧ new.Nodup) ∧
      ∀ s t, Descends turns first s → Descends turns first t → s.trail = t.trail → s = t) ∧
    (x.selector.Only (fun _ => False) →
      x.selector.Numbered (fun n => n < x.nextId ∧ n ≠ id) ∧ ((first :: pushed turns).map State.trail).Nodup) := by
  intro p first turns
  have hp : p.Numbers := e.numbers limit visit
  obtain ⟨⟨hnumbers, hbranching⟩, -⟩ := (Progress.keeps_numbers hp x.nextId).run hp rounds x first ⟨rfl, nofun⟩
    fun selector _ => rfl
  have hids : ((first :: pushed turns).map State.id).Nodup := by
    rw [List.map_cons, e.id_initial, hnumbers, List.nodup_cons, List.mem_range'_1]
    exact ⟨fun h => Nat.not_lt.mpr h.1 hid, List.nodup_range'⟩
  have hapart : x.selector.Numbered (fun n => n < x.nextId ∧ n ≠ id) → (ids turns).Nodup ∧
      ∀ y why, x.run p rounds first = .ok (y, why) → y.Once x.tally.visited turns := by
    intro hx
    refine (Progress.keeps_once hp x.tally.visited).run hp rounds x first List.nodup_nil fun selector hpush => ?_
    have hpushed := hx.push (x := first) (fun hq => hq.2 (e.id_initial id)) hpush
    refine ⟨hpushed.mono ?_, nofun, [], (List.append_nil _).symm, List.Sublist.refl _⟩
    rintro n (hn | hn)
    · exact ⟨hn.1, List.not_mem_nil⟩
    · rw [List.map_singleton, List.mem_singleton, e.id_initial] at hn
      exact ⟨hn ▸ hid, List.not_mem_nil⟩
  have htrails : (ids turns).Nodup → ∀ s t, Descends turns first s → Descends turns first t → s.trail = t.trail → s = t :=
    fun hturns s t hs ht => hs.eq_of_trail hbranching hturns (e.trail_initial id) ht
  refine ⟨hids, hbranching, fun hx => ⟨?_, htrails (hapart hx).1⟩, fun hx => ⟨hx.numbered, ?_⟩⟩
  · intro y why hrun
    obtain ⟨new, hnew, hsub⟩ := ((hapart hx).2 y why hrun).visited
    exact ⟨new, hnew, hsub, (hapart hx).1.sublist hsub⟩
  · have hdescent := ((Progress.keeps_descent p first).run hp rounds x first nofun
      fun selector hpush => (hx.mono fun _ h => h.elim).push .self hpush).1
    have hall : ∀ s ∈ first :: pushed turns, Descends turns first s := List.forall_mem_cons.mpr ⟨.self, hdescent⟩
    exact (List.Nodup.of_map State.id hids).map_on fun s hs t ht =>
      htrails (hapart hx.numbered).1 s t (hall s hs) (hall t ht)

/-- Each statement splits off a state that throws. -/
theorem run_identifies_narrowing :
    let first := narrowing.initial 0
    let turns := fromBothEnds.turnsFrom (narrowing.setup 100 (Walker.gather none)) 10 first
    fromBothEnds.selector.Only (fun _ => False) ∧
    (first :: Turn.pushed turns).map (fun s => (s.id, s.trail)) = [(0, []), (1, [0]), (2, [1]), (3, [0, 0]), (4, [0, 1])] ∧
    ((first :: Turn.pushed turns).map State.id).Nodup ∧ ((first :: Turn.pushed turns).map State.trail).Nodup ∧
    ∃ y why, fromBothEnds.run (narrowing.setup 100 (Walker.gather none)) 10 first = .ok (y, why) ∧
      y.tally.visited.Nodup := by
  have hempty : fromBothEnds.selector.Only (fun _ => False) :=
    .interleaved (List.forall_mem_cons.mpr ⟨.single nofun, List.forall_mem_singleton.mpr (.single nofun)⟩)
  obtain ⟨hids, -, hvisited, htrails⟩ :=
    narrowing.run_identifies 100 (Walker.gather none) 10 fromBothEnds (Nat.zero_lt_one : 0 < fromBothEnds.nextId)
  refine ⟨hempty, by decide +kernel, hids, (htrails hempty).2, ?_⟩
  cases hrun : fromBothEnds.run (narrowing.setup 100 (Walker.gather none)) 10 (narrowing.initial 0) with
  | error f =>
    have hok : (fromBothEnds.run (narrowing.setup 100 (Walker.gather none)) 10 (narrowing.initial 0)).isOk := by
      decide +kernel
    rw [hrun] at hok
    cases hok
  | ok r =>
    obtain ⟨new, hnew, -, hnodup⟩ := (hvisited (htrails hempty).1).1 r.1 r.2 hrun
    exact ⟨r.1, r.2, rfl, hnew ▸ hnodup⟩

end Explore

end Symex
