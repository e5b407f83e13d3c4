import Mathlib.Algebra.Ring.Nat
import Symex.Frontier.Basic
import Symex.Random.Draw

/-!
# Walks end, and can end anywhere

A walk makes at most one draw for every level of the longest trail, and one more. Whatever is drawn, it ends at one of
the candidates; and for each candidate there are draws that lead to it: those of its own branches, and where several
candidates end at one node, of its place among them.
-/

namespace Symex

theorem takeAt_eq {α : Type} (k : Nat) (as : List α) : takeAt k as = as[k]?.map fun a => (a, as.eraseIdx k) := by
  induction as generalizing k with
  | nil => simp [takeAt]
  | cons a as ih =>
    cases k with
    | zero => rfl
    | succ k =>
      rw [takeAt, ih, Option.map_map, List.getElem?_cons_succ, List.eraseIdx_cons_succ]
      rfl

namespace Walk

/-! ### Branches -/

theorem mem_insertBranch {b c : Option Nat} {bs : List (Option Nat)} : c ∈ insertBranch b bs ↔ c = b ∨ c ∈ bs := by
  induction bs with
  | nil => simp [insertBranch]
  | cons d bs ih =>
    unfold insertBranch
    split
    next hbd => simp [hbd]
    next =>
      split
      · exact List.mem_cons
      · rw [List.mem_cons, ih, List.mem_cons, or_left_comm]
      · split
        · exact List.mem_cons
        · rw [List.mem_cons, ih, List.mem_cons, or_left_comm]

theorem length_insertBranch_le (b : Option Nat) (bs : List (Option Nat)) :
    (insertBranch b bs).length ≤ bs.length + 1 := by
  induction bs with
  | nil => exact Nat.le_refl 1
  | cons d bs ih =>
    unfold insertBranch
    split
    · exact Nat.le_succ _
    · split
      · exact Nat.le_refl _
      · exact Nat.succ_le_succ ih
      · split
        · exact Nat.le_refl _
        · exact Nat.succ_le_succ ih

theorem mem_branches {cs : List Candidate} {b : Option Nat} : b ∈ branches cs ↔ ∃ c ∈ cs, c.trail.head? = b := by
  induction cs with
  | nil => simp [branches]
  | cons c cs ih =>
    have hstep : branches (c :: cs) = insertBranch c.trail.head? (branches cs) := rfl
    rw [hstep, mem_insertBranch, ih]
    simp [eq_comm]

theorem length_branches_le (cs : List Candidate) : (branches cs).length ≤ cs.length := by
  induction cs with
  | nil => exact Nat.le_refl 0
  | cons c cs ih => exact Nat.le_trans (length_insertBranch_le _ _) (Nat.succ_le_succ ih)

theorem branches_pos {cs : List Candidate} (h : cs ≠ []) : 0 < (branches cs).length := by
  obtain ⟨c, hc⟩ := List.exists_mem_of_ne_nil cs h
  exact List.length_pos_of_mem (mem_branches.mpr ⟨c, hc, rfl⟩)

theorem mem_follow {c : Candidate} {cs : List Candidate} (h : c ∈ cs) :
    ⟨c.position, c.trail.tail⟩ ∈ follow c.trail.head? cs :=
  List.mem_map.mpr ⟨c, List.mem_filter.mpr ⟨h, decide_eq_true rfl⟩, rfl⟩

theorem exists_of_mem_follow {d : Candidate} {b : Option Nat} {cs : List Candidate} (h : d ∈ follow b cs) :
    ∃ c ∈ cs, c.position = d.position := by
  obtain ⟨c, hc, rfl⟩ := List.mem_map.mp h
  exact ⟨c, (List.mem_filter.mp hc).1, rfl⟩

theorem length_follow_le (b : Option Nat) (cs : List Candidate) : (follow b cs).length ≤ cs.length := by
  rw [follow, List.length_map]
  exact List.length_filter_le _ _

/-! ### Descending -/

variable {σ : Type} {choose : Nat → σ → Nat × σ} {cs : List Candidate}

theorem descend_few (h : cs.length ≤ 1) (t : σ) : descend choose cs t = (cs.head?.map (·.position), t) := by
  rw [descend, if_pos h]

theorem descend_ended (hmany : ¬ cs.length ≤ 1) (h : branches cs = [none]) {t u : σ} {k : Nat}
    (hk : choose cs.length t = (k, u)) : descend choose cs t = (cs[k]?.map (·.position), u) := by
  rw [descend, if_neg hmany]
  simp only [h, if_true, hk]

theorem descend_level (hmany : ¬ cs.length ≤ 1) (h : branches cs ≠ [none]) {t u : σ} {k : Nat} {b : Option Nat}
    (hk : choose (branches cs).length t = (k, u)) (hb : (branches cs)[k]? = some b) :
    descend choose cs t = descend choose (follow b cs) u := by
  rw [descend, if_neg hmany]
  simp only [h, if_false, hk, List.getD_eq_getElem?_getD, hb, Option.getD_some]

/-- The three ways in which a level of a walk goes: it is the end, or candidates that end here are drawn from, or a
branch is followed, which is a shorter walk. -/
theorem level_induction {motive : List Candidate → Prop} (few : ∀ cs, cs.length ≤ 1 → motive cs)
    (ended : ∀ cs, ¬ cs.length ≤ 1 → branches cs = [none] → motive cs)
    (level : ∀ cs, ¬ cs.length ≤ 1 → branches cs ≠ [none] → (∀ b, motive (follow b cs)) → motive cs)
    (cs : List Candidate) : motive cs := by
  by_cases hfew : cs.length ≤ 1
  · exact few cs hfew
  · by_cases hended : branches cs = [none]
    · exact ended cs hfew hended
    · refine level cs hfew hended fun b => level_induction few ended level (follow b cs)
termination_by longest cs
decreasing_by
  have hne : cs ≠ [] := by
    rintro rfl
    exact hfew (Nat.zero_le 1)
  exact longest_follow_lt hne hended b

/-- The draws that lead from one state of the source of draws to another, each with the number that it was below. -/
inductive Serves (choose : Nat → σ → Nat × σ) : σ → List (Nat × Nat) → σ → Prop where
  | done (t : σ) : Serves choose t [] t
  | draw {t u w : σ} {n x : Nat} {rest : List (Nat × Nat)} (h : choose n t = (x, u)) (hrest : Serves choose u rest w) :
      Serves choose t ((n, x) :: rest) w

/-- A walk ends at a candidate, after at most one draw more than the longest trail is long. -/
theorem exists_descend (hchoose : ∀ n t, 0 < n → (choose n t).1 < n) (cs : List Candidate) (hcs : cs ≠ []) (t : σ) :
    ∃ c ∈ cs, ∃ draws u, descend choose cs t = (some c.position, u) ∧ Serves choose t draws u ∧
      draws.length ≤ longest cs + 1 := by
  induction cs using level_induction generalizing t with
  | few cs hfew =>
    obtain ⟨c, cs, rfl⟩ := List.exists_cons_of_ne_nil hcs
    exact ⟨c, List.mem_cons_self, [], t, descend_few hfew t, .done t, Nat.zero_le _⟩
  | ended cs hmany hended =>
    cases hk : choose cs.length t with
    | mk k u =>
      have hlt : k < cs.length := by
        have hin := hchoose cs.length t (by omega)
        rw [hk] at hin
        exact hin
      refine ⟨cs[k], List.getElem_mem hlt, [(cs.length, k)], u, ?_, .draw hk (.done u), Nat.succ_le_succ (Nat.zero_le _)⟩
      rw [descend_ended hmany hended hk, List.getElem?_eq_getElem hlt, Option.map_some]
  | level cs hmany hended ih =>
    cases hk : choose (branches cs).length t with
    | mk k u =>
      have hlt : k < (branches cs).length := by
        have hin := hchoose (branches cs).length t (branches_pos hcs)
        rw [hk] at hin
        exact hin
      -- A branch that is drawn is taken by some candidate, so there is one left to go on with.
      obtain ⟨c, hc, hb⟩ := mem_branches.mp (List.getElem_mem hlt)
      obtain ⟨d, hd, draws, w, hw, hserves, hlen⟩ := ih (branches cs)[k] (List.ne_nil_of_mem (hb ▸ mem_follow hc)) u
      obtain ⟨e, he, hed⟩ := exists_of_mem_follow hd
      refine ⟨e, he, ((branches cs).length, k) :: draws, w, ?_, .draw hk hserves, ?_⟩
      · rw [descend_level hmany hended hk (List.getElem?_eq_getElem hlt), hw, hed]
      · have hshorter := longest_follow_lt hcs hended (branches cs)[k]
        rw [List.length_cons]
        omega

/-- For every candidate there are draws in range that lead to it, whatever they are made with. -/
theorem exists_draws {cs : List Candidate} {c : Candidate} (hc : c ∈ cs) :
    ∃ draws : List (Nat × Nat), (∀ e ∈ draws, e.2 < e.1 ∧ e.1 ≤ cs.length) ∧
      ∀ {σ : Type} {choose : Nat → σ → Nat × σ} {t u : σ}, Serves choose t draws u →
        descend choose cs t = (some c.position, u) := by
  induction cs using level_induction generalizing c with
  | few cs hfew =>
    refine ⟨[], nofun, ?_⟩
    intro σ choose t u hserves
    cases hserves
    obtain ⟨d, rfl⟩ := List.length_eq_one_iff.mp (Nat.le_antisymm hfew (List.length_pos_of_mem hc))
    rw [descend_few hfew, List.mem_singleton.mp hc]
    rfl
  | ended cs hmany hended =>
    obtain ⟨k, hk⟩ := List.mem_iff_getElem?.mp hc
    have hlt : k < cs.length := (List.getElem?_eq_some_iff.mp hk).1
    refine ⟨[(cs.length, k)], ?_, ?_⟩
    · intro e he
      rw [List.mem_singleton.mp he]
      exact ⟨hlt, Nat.le_refl _⟩
    · intro σ choose t u hserves
      cases hserves with
      | draw h hrest =>
        cases hrest
        rw [descend_ended hmany hended h, hk]
        rfl
  | level cs hmany hended ih =>
    obtain ⟨k, hk⟩ := List.mem_iff_getElem?.mp (mem_branches.mpr ⟨c, hc, rfl⟩)
    have hlt : k < (branches cs).length := (List.getElem?_eq_some_iff.mp hk).1
    obtain ⟨draws, hrange, hleads⟩ := ih c.trail.head? (mem_follow hc)
    refine ⟨((branches cs).length, k) :: draws, ?_, ?_⟩
    · intro e he
      rcases List.mem_cons.mp he with rfl | he
      · exact ⟨hlt, length_branches_le cs⟩
      · exact ⟨(hrange e he).1, Nat.le_trans (hrange e he).2 (length_follow_le _ cs)⟩
    · intro σ choose t u hserves
      cases hserves with
      | draw h hrest =>
        rw [descend_level hmany hended h hk]
        exact hleads hrest

theorem serves_of_states {draws : List (Nat × Nat)} (s : Nat → σ)
    (h : ∀ i e, draws[i]? = some e → choose e.1 (s i) = (e.2, s (i + 1))) :
    Serves choose (s 0) draws (s draws.length) := by
  induction draws generalizing s with
  | nil => exact .done (s 0)
  | cons e draws ih => exact .draw (h 0 e rfl) (ih (fun i => s (i + 1)) fun i e he => h (i + 1) e he)

/-! ### Taking -/

variable {α : Type} (trail : α → List Nat) {as : List α}

theorem take_of_descend {t u : σ} {k : Nat}
    (h : descend choose ((as.map trail).mapIdx fun i trail => ⟨i, trail⟩) t = (some k, u)) :
    take choose trail as t = (as[k]?.map fun a => (a, as.eraseIdx k), u) := by
  rw [take, position, h]
  dsimp only
  rw [Option.bind_some, takeAt_eq]

/-- Whatever is drawn, one element is taken, and the others stay as they are. -/
theorem exists_take (hchoose : ∀ n t, 0 < n → (choose n t).1 < n) (has : as ≠ []) (t : σ) :
    ∃ k a draws u, as[k]? = some a ∧ take choose trail as t = (some (a, as.eraseIdx k), u) ∧
      Serves choose t draws u ∧ ∀ m, (∀ a ∈ as, (trail a).length ≤ m) → draws.length ≤ m + 1 := by
  have hne : (as.map trail).mapIdx (fun i trail => (⟨i, trail⟩ : Candidate)) ≠ [] := by
    simpa using has
  obtain ⟨c, hc, draws, u, hu, hserves, hlen⟩ := exists_descend hchoose _ hne t
  obtain ⟨k, hk, rfl⟩ := List.mem_mapIdx.mp hc
  rw [List.length_map] at hk
  refine ⟨k, as[k], draws, u, List.getElem?_eq_getElem hk, ?_, hserves, ?_⟩
  · rw [take_of_descend trail hu, List.getElem?_eq_getElem hk, Option.map_some]
  · intro m hm
    have hlongest : longest ((as.map trail).mapIdx fun i trail => ⟨i, trail⟩) < m + 1 := by
      apply longest_lt (Nat.succ_pos m)
      intro d hd
      obtain ⟨j, hj, rfl⟩ := List.mem_mapIdx.mp hd
      rw [List.getElem_map]
      exact Nat.lt_succ_of_le (hm _ (List.getElem_mem _))
    omega

/-- Every element is taken with some draws. -/
theorem exists_draws_take {k : Nat} {a : α} (h : as[k]? = some a) :
    ∃ draws : List (Nat × Nat), (∀ e ∈ draws, e.2 < e.1 ∧ e.1 ≤ as.length) ∧
      ∀ {σ : Type} {choose : Nat → σ → Nat × σ} {t u : σ}, Serves choose t draws u →
        take choose trail as t = (some (a, as.eraseIdx k), u) := by
  have hmem : (⟨k, trail a⟩ : Candidate) ∈ (as.map trail).mapIdx fun i trail => ⟨i, trail⟩ := by
    rw [List.mem_iff_getElem?]
    exact ⟨k, by rw [List.getElem?_mapIdx, List.getElem?_map, h]; rfl⟩
  obtain ⟨draws, hrange, hleads⟩ := exists_draws hmem
  rw [List.length_mapIdx, List.length_map] at hrange
  refine ⟨draws, hrange, ?_⟩
  intro σ choose t u hserves
  rw [take_of_descend trail (hleads hserves), h, Option.map_some]

/-! ### Sources of draws -/

/-- A sequence of draws in range: what draw number `i` gives when it is made below `n`. -/
structure Draws where
  value : Nat → Nat → Nat
  lt : ∀ i n, 0 < n → value i n < n

namespace Draws

def next (d : Draws) (n i : Nat) : Nat × Nat := (d.value i n, i + 1)

/-- The draws of a list, and after them the least ones. -/
def ofList (draws : List (Nat × Nat)) : Draws where
  value i n := (draws.getD i (0, 0)).2 % n
  lt _ _ hn := Nat.mod_lt _ hn

theorem serves_ofList {draws : List (Nat × Nat)} (h : ∀ e ∈ draws, e.2 < e.1) :
    Serves (ofList draws).next 0 draws draws.length := by
  apply serves_of_states fun i => i
  intro i e he
  have hget : draws.getD i (0, 0) = e := by rw [List.getD_eq_getElem?_getD, he, Option.getD_some]
  have hmod := Nat.mod_eq_of_lt (h e (List.mem_of_getElem? he))
  rw [next, ofList]
  dsimp only
  rw [hget, hmod]

theorem eq_add_of_serves {d : Draws} {i j : Nat} {draws : List (Nat × Nat)} (h : Serves d.next i draws j) :
    j = i + draws.length := by
  induction h with
  | done => rfl
  | draw h _ ih =>
    cases h
    rw [ih, List.length_cons]
    omega

end Draws

end Walk

namespace Tape

/-- The least word that gives `x` when a draw is made below `n`. -/
def wordFor (n x : Nat) : Nat := (x * 2 ^ 64 + (n - 1)) / n

theorem exists_wordFor_mul {n x : Nat} (hx : x < n) : ∃ r < n, wordFor n x * n = x * 2 ^ 64 + r := by
  have hdiv := Nat.div_add_mod (x * 2 ^ 64 + (n - 1)) n
  have hmod := Nat.mod_lt (x * 2 ^ 64 + (n - 1)) (by omega : 0 < n)
  refine ⟨n - 1 - (x * 2 ^ 64 + (n - 1)) % n, by omega, ?_⟩
  rw [wordFor, Nat.mul_comm]
  omega

theorem wordFor_lt {n x : Nat} (hx : x < n) (hn : n ≤ 2 ^ 64) : wordFor n x < 2 ^ 64 := by
  obtain ⟨r, hr, hmul⟩ := exists_wordFor_mul hx
  apply Nat.lt_of_mul_lt_mul_right (a := n)
  have hle := Nat.mul_le_mul_right (2 ^ 64) (Nat.le_sub_one_of_lt hx)
  have hpred : (n - 1) * 2 ^ 64 + 2 ^ 64 = n * 2 ^ 64 := by
    rw [← Nat.succ_mul, Nat.succ_eq_add_one, Nat.sub_add_cancel (by omega)]
  rw [hmul, Nat.mul_comm (2 ^ 64) n]
  omega

theorem below_of_word {t : Tape} {n x : Nat} (hx : x < n) (hn : n ≤ 2 ^ 64)
    (hw : t.word t.position = UInt64.ofNat (wordFor n x)) :
    t.below n = (x, { t with position := t.position + 1 }) := by
  obtain ⟨r, hr, hmul⟩ := exists_wordFor_mul hx
  have hword : (t.word t.position).toNat * n = x * 2 ^ 64 + r := by
    rw [hw, UInt64.toNat_ofNat_of_lt' (wordFor_lt hx hn), hmul]
  have hr' : r < 2 ^ 64 := Nat.lt_of_lt_of_le hr hn
  have hsize : UInt64.size = 2 ^ 64 := rfl
  have hquot : (x * 2 ^ 64 + r) / 2 ^ 64 = x := by omega
  have hrest : (x * 2 ^ 64 + r) % 2 ^ 64 = r := by omega
  have hzone : r ≤ zone n := by
    have hle := Nat.le_mul_of_pos_right n (Nat.two_pow_pos (63 - n.log2))
    rw [zone, Nat.shiftLeft_eq]
    omega
  have htries : below n t = belowWithin n (999 + 1) t := rfl
  rw [htries, belowWithin, draw]
  dsimp only
  rw [hword, hsize, hquot, hrest, if_pos hzone]

/-- A tape that gives the draws of a list, with the next draw at a position. -/
def ofDraws (draws : List (Nat × Nat)) (position : Nat) : Tape where
  word i := UInt64.ofNat (wordFor (draws.getD i (0, 0)).1 (draws.getD i (0, 0)).2)
  position

theorem serves_ofDraws {draws : List (Nat × Nat)} (h : ∀ e ∈ draws, e.2 < e.1 ∧ e.1 ≤ 2 ^ 64) :
    Walk.Serves below (ofDraws draws 0) draws (ofDraws draws draws.length) := by
  apply Walk.serves_of_states (ofDraws draws)
  intro i e he
  obtain ⟨hlt, hle⟩ := h e (List.mem_of_getElem? he)
  have hget : draws.getD i (0, 0) = e := by rw [List.getD_eq_getElem?_getD, he, Option.getD_some]
  apply below_of_word hlt hle
  rw [ofDraws]
  dsimp only
  rw [hget]

theorem word_belowWithin (n fuel : Nat) (t : Tape) : (belowWithin n fuel t).2.word = t.word := by
  induction fuel generalizing t with
  | zero => rfl
  | succ fuel ih =>
    rw [belowWithin, draw]
    dsimp only
    split
    · rfl
    · rw [ih]

theorem dice_of_word {t u : Tape} (h : u.word = t.word) : u.dice = { t.dice with position := u.position } := by
  cases t
  cases u
  cases h
  rfl

/-- The dice of a tape draw what the tape draws. -/
theorem below_dice (n : Nat) (t : Tape) : t.dice.below n = ((t.below n).1, (t.below n).2.dice) := by
  have hword : (t.below n).2.word = t.word := word_belowWithin n tries t
  rw [dice_of_word hword]
  rfl

theorem serves_dice {t u : Tape} {draws : List (Nat × Nat)} (h : Walk.Serves below t draws u) :
    Walk.Serves Dice.below t.dice draws u.dice := by
  induction h with
  | done => exact .done _
  | draw h _ ih =>
    refine .draw ?_ ih
    rw [below_dice, h]

end Tape

namespace Frontier

theorem pick_walk {i : Instruments} {d e : Dice} {ss rest : List State} {s : State}
    (h : Walk.take Dice.below State.trail ss d = (some (s, rest), e)) :
    (walk d ss).pick i = some (s, walk e rest) := by
  rw [pick, h]
  rfl

/-- Whatever is drawn, a pick from a frontier that is not empty ends and takes one state out of it, after at most one
draw more than the longest trail is long; and every state of the frontier is the one that is taken with some draws. So
it is for a frontier: all dice lead to a state, and to every state lead the dice of some tape, as long as there are not
more states than words. -/
theorem pick_walk_reaches {ss : List State} (hne : ss ≠ []) :
    (∀ d : Walk.Draws, ∃ k s n, ss[k]? = some s ∧
      Walk.take d.next State.trail ss 0 = (some (s, ss.eraseIdx k), n) ∧
      ∀ m, (∀ s ∈ ss, s.trail.length ≤ m) → n ≤ m + 1) ∧
    (∀ k s, ss[k]? = some s → ∃ (d : Walk.Draws) (n : Nat),
      Walk.take d.next State.trail ss 0 = (some (s, ss.eraseIdx k), n)) ∧
    (∀ i d, ∃ k s e, ss[k]? = some s ∧ (walk d ss).pick i = some (s, walk e (ss.eraseIdx k))) ∧
    (ss.length ≤ 2 ^ 64 → ∀ i k s, ss[k]? = some s → ∃ t u : Tape,
      (walk t.dice ss).pick i = some (s, walk u.dice (ss.eraseIdx k))) := by
  refine ⟨?_, ?_, ?_, ?_⟩
  · intro d
    have hin : ∀ n i, 0 < n → (d.next n i).1 < n := fun n i hn => d.lt i n hn
    obtain ⟨k, s, draws, n, hk, htake, hserves, hlen⟩ := Walk.exists_take State.trail hin hne 0
    refine ⟨k, s, n, hk, htake, ?_⟩
    intro m hm
    rw [Walk.Draws.eq_add_of_serves hserves, Nat.zero_add]
    exact hlen m hm
  · intro k s hk
    obtain ⟨draws, hrange, hleads⟩ := Walk.exists_draws_take State.trail hk
    exact ⟨.ofList draws, _, hleads (Walk.Draws.serves_ofList fun e he => (hrange e he).1)⟩
  · intro i d
    have hin : ∀ n (d : Dice), 0 < n → (d.below n).1 < n := fun n d hn => d.below_lt hn
    obtain ⟨k, s, draws, e, hk, htake, -⟩ := Walk.exists_take State.trail hin hne d
    exact ⟨k, s, e, hk, pick_walk htake⟩
  · intro hsize i k s hk
    obtain ⟨draws, hrange, hleads⟩ := Walk.exists_draws_take State.trail hk
    have hserves := Tape.serves_ofDraws fun e he => ⟨(hrange e he).1, Nat.le_trans (hrange e he).2 hsize⟩
    exact ⟨_, _, pick_walk (hleads (Tape.serves_dice hserves))⟩

/-- A state at the root, two at one node below it, and one below these. -/
def tangled : List State :=
  [{ id := 0, trail := [4, 1] }, { id := 1, trail := [4] }, { id := 2, trail := [4] }, { id := 3 }]

theorem pick_walk_reaches_tangled : (tangled ≠ [] ∧ tangled.length ≤ 2 ^ 64) ∧
    (∀ d : Walk.Draws, ∃ k s n, tangled[k]? = some s ∧
      Walk.take d.next State.trail tangled 0 = (some (s, tangled.eraseIdx k), n) ∧ n ≤ 3) ∧
    (∃ (d : Walk.Draws) (n : Nat), Walk.take d.next State.trail tangled 0 =
      (some ({ id := 2, trail := [4] }, tangled.eraseIdx 2), n)) ∧
    ∀ i, ∃ t u : Tape, (walk t.dice tangled).pick i =
      some ({ id := 2, trail := [4] }, walk u.dice (tangled.eraseIdx 2)) := by
  have hne : tangled ≠ [] := List.cons_ne_nil _ _
  have hsize : tangled.length ≤ 2 ^ 64 := by decide
  obtain ⟨hends, hreaches, -, htape⟩ := pick_walk_reaches hne
  refine ⟨⟨hne, hsize⟩, ?_, hreaches 2 _ rfl, fun i => htape hsize i 2 _ rfl⟩
  intro d
  obtain ⟨k, s, n, hk, htake, hlen⟩ := hends d
  exact ⟨k, s, n, hk, htake, hlen 2 (by decide)⟩

end Frontier

end Symex
