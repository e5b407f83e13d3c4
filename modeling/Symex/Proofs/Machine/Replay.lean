import Symex.Machine.Basic
import Symex.Proofs.Probe.Assembled

/-!
# Replaying assemblies

A model that is an assembly can be replayed: its creation makes an object without fields, the effects of the creation
and then of the changes write them, and every test of an argument has to be passed. A recipe can be replayed in the
same way from the values of the parameters. Assembling a recipe, copying a model and adding to a store do not change
what is replayed.
-/

namespace Symex

/-- What a replay makes. -/
inductive Item where
  | value (v : Value)
  | null
  /-- An object with what was written to its fields, the latest first. -/
  | object (fields : List (Field × Item))
  deriving Inhabited

/-- What an effect does to the fields of an object; none if a test fails. -/
def Effect.perform (args : List Item) (fields : List (Field × Item)) : Effect → Option (List (Field × Item))
  | copyArg f i => args[i]?.map fun a => (f, a) :: fields
  | setConst f n => some ((f, .value (.int n)) :: fields)
  | require i r n =>
    match args[i]? with
    | some (.value v) => if r.holds v (.int n) then some fields else none
    | _ => none

namespace Machine

def perform (m : Machine) (method : Method) (args : List Item) (fields : List (Field × Item)) :
    Option (List (Field × Item)) := do
  (← m.effects? method).foldlM (fun fs e => e.perform args fs) fields

/-- What a call in a model does, where `replay` gives the arguments. -/
def performCall (m : Machine) (replay : Handle → Option Item) (fields : List (Field × Item)) (c : Call) :
    Option (List (Field × Item)) := do
  m.perform c.method (← c.args.mapM replay) fields

/-- What a model makes, where `replay` gives what it refers to. -/
def replayModel (m : Machine) (replay : Handle → Option Item) : Model → Option Item
  | .null _ => some .null
  | .primitive _ v _ => some (.value v)
  | .assembly _ (some creation) changes => do
    let made ← m.performCall replay [] creation
    return .object (← changes.foldlM (m.performCall replay) made)
  | _ => none

/-- Replays the model at a handle, through at most `n` models inside each other. -/
def replay (m : Machine) (s : Store) : Nat → Handle → Option Item
  | 0, _ => none
  | n + 1, h => (s.get? h).bind (m.replayModel (m.replay s n))

/-! ### Replays in other stores -/

variable {m : Machine} {f g : Handle → Option Item} {φ : Handle → Handle}

theorem performCall_map {c : Call} (h : ∀ a ∈ c.args, ∀ i, f a = some i → g (φ a) = some i)
    {fs fs' : List (Field × Item)} (hc : m.performCall f fs c = some fs') :
    m.performCall g fs { c with args := c.args.map φ } = some fs' := by
  obtain ⟨items, hitems, hp⟩ := Option.bind_eq_some_iff.mp hc
  exact Option.bind_eq_some_iff.mpr ⟨items, mapM_map_of_forall h hitems, hp⟩

theorem foldlM_performCall_map {cs : List Call} (h : ∀ c ∈ cs, ∀ a ∈ c.args, ∀ i, f a = some i → g (φ a) = some i)
    {fs fs' : List (Field × Item)} (hc : cs.foldlM (m.performCall f) fs = some fs') :
    (cs.map fun c => { c with args := c.args.map φ }).foldlM (m.performCall g) fs = some fs' := by
  induction cs generalizing fs with
  | nil => exact hc
  | cons c cs ih =>
    rw [List.foldlM_cons] at hc
    obtain ⟨mid, hmid, hrest⟩ := Option.bind_eq_some_iff.mp hc
    rw [List.map_cons, List.foldlM_cons]
    exact Option.bind_eq_some_iff.mpr
      ⟨mid, performCall_map (h c List.mem_cons_self) hmid, ih (fun d hd => h d (List.mem_cons_of_mem _ hd)) hrest⟩

theorem replayModel_mapHandles {x : Model} (h : ∀ a ∈ x.children, ∀ i, f a = some i → g (φ a) = some i) {i : Item}
    (hx : m.replayModel f x = some i) : m.replayModel g (x.mapHandles φ) = some i := by
  cases x with
  | null t => exact hx
  | primitive t v as => exact hx
  | object t as => cases hx
  | sameAs t k => cases hx
  | container k c => cases hx
  | assembly t creation changes =>
    cases creation with
    | none => cases hx
    | some c =>
      have hcall : ∀ d ∈ c :: changes, ∀ a ∈ d.args, ∀ i, f a = some i → g (φ a) = some i :=
        fun d hd a ha => h a (List.mem_flatMap.mpr ⟨d, hd, ha⟩)
      obtain ⟨made, hmade, hrest⟩ := Option.bind_eq_some_iff.mp hx
      obtain ⟨fs, hfs, hi⟩ := Option.bind_eq_some_iff.mp hrest
      refine Option.bind_eq_some_iff.mpr ⟨made, performCall_map (hcall c List.mem_cons_self) hmade, ?_⟩
      exact Option.bind_eq_some_iff.mpr
        ⟨fs, foldlM_performCall_map (fun d hd => hcall d (List.mem_cons_of_mem _ hd)) hfs, hi⟩

theorem replayModel_mono {x : Model} (h : ∀ a i, f a = some i → g a = some i) {i : Item}
    (hx : m.replayModel f x = some i) : m.replayModel g x = some i := by
  rw [← x.mapHandles_self]
  exact replayModel_mapHandles (fun a _ => h a) hx

/-- What is replayed stays the same when no slot loses its model, and when more models may be inside each other. -/
theorem replay_mono {s t : Store} (he : ∀ {h : Handle} {x : Model}, s.get? h = some x → t.get? h = some x)
    {n k : Nat} (hn : n ≤ k) {h : Handle} {i : Item} (hr : m.replay s n h = some i) : m.replay t k h = some i := by
  induction n generalizing k h i with
  | zero => cases hr
  | succ n ih =>
    obtain ⟨k, rfl⟩ := Nat.exists_eq_add_one_of_ne_zero (by omega : k ≠ 0)
    obtain ⟨x, hx, hi⟩ := Option.bind_eq_some_iff.mp hr
    refine Option.bind_eq_some_iff.mpr ⟨x, he hx, ?_⟩
    exact replayModel_mono (fun a j hj => ih (by omega) hj) hi

theorem replay_image {source : Store} {c : Copying} (hf : c.Faithful source []) {n : Nat} {h k : Handle} {i : Item}
    (hk : c.images.find? h = some k) (hr : m.replay source n h = some i) : m.replay c.store n k = some i := by
  induction n generalizing h k i with
  | zero => cases hr
  | succ n ih =>
    obtain ⟨x, hx, hi⟩ := Option.bind_eq_some_iff.mp hr
    obtain ⟨y, hy, hstore, hchildren⟩ := hf.copied hk List.not_mem_nil
    rw [hx] at hy
    cases hy
    refine Option.bind_eq_some_iff.mpr ⟨_, hstore, replayModel_mapHandles ?_ hi⟩
    intro a ha j hj
    obtain ⟨b, hb⟩ := Option.isSome_iff_exists.mp (hchildren a ha)
    have himage : c.image a = b := by
      rw [Copying.image, hb]
      rfl
    rw [himage]
    exact ih hb hj

theorem exists_of_foldlM_performCall {cs : List Call} {fs fs' : List (Field × Item)}
    (h : cs.foldlM (m.performCall f) fs = some fs') : ∀ c ∈ cs, ∀ a ∈ c.args, ∃ i, f a = some i := by
  induction cs generalizing fs with
  | nil => exact fun c hc => by cases hc
  | cons d cs ih =>
    rw [List.foldlM_cons] at h
    obtain ⟨mid, hmid, hrest⟩ := Option.bind_eq_some_iff.mp h
    obtain ⟨items, hitems, -⟩ := Option.bind_eq_some_iff.mp hmid
    intro c hc
    rcases List.mem_cons.mp hc with rfl | hc
    · exact exists_of_mapM hitems
    · exact ih hrest c hc

/-- A model that can be replayed refers only to models that can be replayed. -/
theorem closedOn_replay (m : Machine) (s : Store) : s.ClosedOn fun h => ∃ n i, m.replay s n h = some i := by
  rintro h ⟨n, i, hr⟩
  cases n with
  | zero => cases hr
  | succ n =>
    obtain ⟨x, hx, hi⟩ := Option.bind_eq_some_iff.mp hr
    refine ⟨x, hx, fun k hk => ⟨n, ?_⟩⟩
    cases x with
    | null t => cases hk
    | primitive t v as => cases hk
    | object t as => cases hk
    | sameAs t k => cases hi
    | container k c => cases hi
    | assembly t creation changes =>
      cases creation with
      | none => cases hi
      | some c =>
        obtain ⟨made, hmade, hrest⟩ := Option.bind_eq_some_iff.mp hi
        obtain ⟨fs, hfs, -⟩ := Option.bind_eq_some_iff.mp hrest
        have hall : (c :: changes).foldlM (m.performCall (m.replay s n)) [] = some fs := by
          rw [List.foldlM_cons]
          exact Option.bind_eq_some_iff.mpr ⟨made, hmade, hfs⟩
        obtain ⟨d, hd, hkd⟩ := List.mem_flatMap.mp hk
        exact exists_of_foldlM_performCall hall d hd k hkd

/-- What is replayed to an object is an assembly with a creation. -/
theorem assembly_of_replay {s : Store} {n : Nat} {h : Handle} {fs : List (Field × Item)}
    (hr : m.replay s n h = some (.object fs)) :
    ∃ t creation changes, s.get? h = some (.assembly t (some creation) changes) := by
  cases n with
  | zero => cases hr
  | succ n =>
    obtain ⟨x, hx, hi⟩ := Option.bind_eq_some_iff.mp hr
    cases x with
    | assembly t creation changes =>
      cases creation with
      | none => cases hi
      | some c => exact ⟨t, c, changes, hx⟩
    | _ => cases hi

end Machine

/-! ### Replaying recipes -/

/-- What a recipe makes of the values of the parameters. -/
inductive Makes (m : Machine) (values : List Value) : Recipe → Item → Prop
  | param {i : Nat} {v : Value} (h : values[i]? = some v) : Makes m values (.param i) (.value v)
  | null (x : String) (t : Ty) : Makes m values (.null x t) .null
  | create {x : String} {method : Method} {rs : List Recipe} {items : List Item} {fs : List (Field × Item)}
      (hlen : rs.length = items.length) (h : ∀ e ∈ rs.zip items, Makes m values e.1 e.2)
      (hp : m.perform method items [] = some fs) : Makes m values (.create x method rs) (.object fs)
  | change {x : String} {method : Method} {r : Recipe} {rs : List Recipe} {items : List Item}
      {fs fs' : List (Field × Item)} (hr : Makes m values r (.object fs)) (hlen : rs.length = items.length)
      (h : ∀ e ∈ rs.zip items, Makes m values e.1 e.2) (hp : m.perform method items fs = some fs') :
      Makes m values (.change x method r rs) (.object fs')

/-- The models of the parameters are primitives with the given values. -/
def Supplies.Gives (p : Supplies) (values : List Value) : Prop :=
  List.Forall₂ (fun h v => ∃ t as, p.source.get? h = some (.primitive t v as)) p.params values

namespace Makes

variable {m : Machine} {values : List Value} {p : Supplies} (hp : p.Gives values)

include hp

theorem param_spec {i : Nat} {v : Value} (hv : values[i]? = some v) {c c' : Copying}
    (hc : c.Faithful p.source []) {h : Handle} (hx : p.param i c = .ok (h, c')) :
    c.Grows c' ∧ c'.Faithful p.source [] ∧ ∃ t as, c'.store.get? h = some (.primitive t v as) := by
  obtain ⟨hi, hiv⟩ := List.getElem?_eq_some_iff.mp hv
  have hi' : i < p.params.length := hp.length_eq ▸ hi
  obtain ⟨t, as, hsource⟩ := hp.get hi' hi
  have hparam : p.params[i]? = some (p.params.get ⟨i, hi'⟩) := List.getElem?_eq_getElem hi'
  unfold Supplies.param at hx
  rw [hparam] at hx
  obtain ⟨hg, hf, himg⟩ := Copying.copy_spec hx hc
  obtain ⟨x, hsx, hstore, -⟩ := hf.copied himg List.not_mem_nil
  rw [hsource] at hsx
  cases hsx
  refine ⟨hg, hf, t, as, ?_⟩
  rw [hstore, ← hiv]
  rfl

/-- What is known of a recipe once it is assembled. -/
def Assembled (m : Machine) (p : Supplies) (r : Recipe) (i : Item) : Prop :=
  ∀ {c c' : Copying} {x : Model}, c.Faithful p.source [] → r.model p c = .ok (x, c') →
    c.Grows c' ∧ c'.Faithful p.source [] ∧ ∃ n, m.replayModel (m.replay c'.store n) x = some i

theorem place_spec {r : Recipe} {i : Item} (hr : Makes m values r i) (hm : Assembled m p r i) {c c' : Copying}
    (hc : c.Faithful p.source []) {h : Handle} (hx : Recipe.place p (fun c => Recipe.model p r c) r c = .ok (h, c')) :
    c.Grows c' ∧ c'.Faithful p.source [] ∧ ∃ n, m.replay c'.store n h = some i := by
  have halloc : (do
      let e ← Recipe.model p r c
      return ((e.2.store.alloc e.1).1, { e.2 with store := (e.2.store.alloc e.1).2 })) = Except.ok (h, c') →
      c.Grows c' ∧ c'.Faithful p.source [] ∧ ∃ n, m.replay c'.store n h = some i := by
    intro hx
    obtain ⟨⟨x, c₁⟩, hmodel, hrest⟩ := bind_eq_ok.mp hx
    obtain ⟨hg, hf, n, hn⟩ := hm hc hmodel
    have hg' := c₁.grows_alloc x
    cases hrest
    refine ⟨hg.trans hg', hf.extend hg'.store, n + 1, ?_⟩
    refine Option.bind_eq_some_iff.mpr ⟨x, Store.get?_alloc_self c₁.store x, ?_⟩
    exact Machine.replayModel_mono (fun a j hj => Machine.replay_mono hg'.store.get?_some (Nat.le_refl _) hj) hn
  cases hr with
  | param hv =>
    obtain ⟨hg, hf, t, as, hstore⟩ := param_spec hp hv hc hx
    exact ⟨hg, hf, 1, Option.bind_eq_some_iff.mpr ⟨_, hstore, rfl⟩⟩
  | null x t => exact halloc hx
  | create hlen h hpf => exact halloc hx
  | change hr hlen h hpf => exact halloc hx

theorem placeAll_spec {rs : List Recipe} {items : List Item} (hlen : rs.length = items.length)
    (hrs : ∀ e ∈ rs.zip items, Makes m values e.1 e.2) (hms : ∀ e ∈ rs.zip items, Assembled m p e.1 e.2)
    {c c' : Copying} (hc : c.Faithful p.source []) {hs : List Handle} (hx : Recipe.placeAll p rs c = .ok (hs, c')) :
    c.Grows c' ∧ c'.Faithful p.source [] ∧ ∃ n, hs.mapM (m.replay c'.store n) = some items := by
  induction rs generalizing items c c' hs with
  | nil =>
    cases items with
    | nil =>
      cases hx
      exact ⟨.refl c, hc, 0, rfl⟩
    | cons i items => cases hlen
  | cons r rs ih =>
    cases items with
    | nil => cases hlen
    | cons i items =>
      obtain ⟨⟨h, c₁⟩, hplace, hrest⟩ := bind_eq_ok.mp hx
      obtain ⟨⟨ks, c₂⟩, hall, hend⟩ := bind_eq_ok.mp hrest
      cases hend
      obtain ⟨hg₁, hf₁, n₁, hn₁⟩ :=
        place_spec hp (hrs (r, i) List.mem_cons_self) (hms (r, i) List.mem_cons_self) hc hplace
      obtain ⟨hg₂, hf₂, n₂, hn₂⟩ := ih (Nat.succ.inj hlen) (fun e he => hrs e (List.mem_cons_of_mem _ he))
        (fun e he => hms e (List.mem_cons_of_mem _ he)) hf₁ hall
      refine ⟨hg₁.trans hg₂, hf₂, max n₁ n₂, ?_⟩
      have hhead := Machine.replay_mono hg₂.store.get?_some (Nat.le_max_left n₁ n₂) hn₁
      have htail : (ks.map fun h => h).mapM (m.replay c'.store (max n₁ n₂)) = some items :=
        mapM_map_of_forall
          (fun a _ j hj => Machine.replay_mono (fun h => h) (Nat.le_max_right n₁ n₂) hj) hn₂
      rw [List.map_id'] at htail
      rw [List.mapM_cons, hhead, htail]
      rfl

/-- The model that is assembled from a recipe makes what the recipe makes. -/
theorem assembled {r : Recipe} {i : Item} (hr : Makes m values r i) : Assembled m p r i := by
  induction hr with
  | param hv =>
    intro c c' x hc hx
    obtain ⟨⟨h, c₁⟩, hparam, hrest⟩ := bind_eq_ok.mp hx
    obtain ⟨y, hy, hend⟩ := bind_eq_ok.mp hrest
    cases hend
    obtain ⟨hg, hf, t, as, hstore⟩ := param_spec hp hv hc hparam
    rw [Store.get_eq_ok] at hy
    rw [hstore] at hy
    cases hy
    exact ⟨hg, hf, 0, rfl⟩
  | null x t =>
    intro c c' y hc hx
    cases hx
    exact ⟨.refl c, hc, 0, rfl⟩
  | @create x method rs items fs hlen h hpf ih =>
    intro c c' y hc hx
    obtain ⟨⟨hs, c₁⟩, hall, hend⟩ := bind_eq_ok.mp hx
    cases hend
    obtain ⟨hg, hf, n, hn⟩ := placeAll_spec hp hlen h ih hc hall
    refine ⟨hg, hf, n, ?_⟩
    have hcall : m.performCall (m.replay c'.store n) [] ⟨method, hs⟩ = some fs :=
      Option.bind_eq_some_iff.mpr ⟨items, hn, hpf⟩
    rw [Machine.replayModel, hcall]
    rfl
  | @change x method r rs items fs fs' hr hlen h hpf ihr ih =>
    intro c c' y hc hx
    obtain ⟨⟨receiver, c₁⟩, hreceiver, hrest⟩ := bind_eq_ok.mp hx
    obtain ⟨⟨hs, c₂⟩, hall, hend⟩ := bind_eq_ok.mp hrest
    cases hend
    obtain ⟨hg₁, hf₁, n₁, hn₁⟩ := ihr hc hreceiver
    obtain ⟨hg₂, hf₂, n₂, hn₂⟩ := placeAll_spec hp hlen h ih hf₁ hall
    refine ⟨hg₁.trans hg₂, hf₂, max n₁ n₂, ?_⟩
    -- The receiver is an assembly already, and gets one more change.
    have hmono := Machine.replayModel_mono
      (fun a j hj => Machine.replay_mono hg₂.store.get?_some (Nat.le_max_left n₁ n₂) hj) hn₁
    have hargs : (hs.map fun h => h).mapM (m.replay c'.store (max n₁ n₂)) = some items :=
      mapM_map_of_forall (fun a _ j hj => Machine.replay_mono (fun h => h) (Nat.le_max_right n₁ n₂) hj) hn₂
    rw [List.map_id'] at hargs
    have hcall : m.performCall (m.replay c'.store (max n₁ n₂)) fs ⟨method, hs⟩ = some fs' :=
      Option.bind_eq_some_iff.mpr ⟨items, hargs, hpf⟩
    cases receiver with
    | assembly t creation changes =>
      cases creation with
      | none => cases hmono
      | some k =>
        obtain ⟨made, hmade, hmore⟩ := Option.bind_eq_some_iff.mp hmono
        obtain ⟨fs₁, hfs₁, hobj⟩ := Option.bind_eq_some_iff.mp hmore
        cases hobj
        refine Option.bind_eq_some_iff.mpr ⟨made, hmade, Option.bind_eq_some_iff.mpr ⟨fs', ?_, rfl⟩⟩
        rw [List.foldlM_append]
        refine Option.bind_eq_some_iff.mpr ⟨fs, hfs₁, ?_⟩
        rw [List.foldlM_cons, hcall]
        rfl
    | _ => cases hmono

end Makes

end Symex
