import Symex.Proofs.Data.Lookup
import Symex.Proofs.State.Interpretation

/-!
# Reading through the writes

A read is brought to the heap before the call by looking for a write through the same terms. Main statement: that
finds the value after the call, as long as no write reaches the place of the read through other terms.
-/

namespace Symex

namespace Term

/-- A parameter, a local or a constant. -/
def isSimple : Term → Bool
  | param _ _ => true
  | localVar _ _ => true
  | const _ => true
  | _ => false

theorem substitute_of_isVariable {t : Term} (ht : t.isVariable = true) (names : Renaming) :
    t.substitute names = (names.find? t).getD t := by
  cases t with
  | const | field | element | length => cases ht
  | _ => rfl

end Term

namespace Memory

theorem read_of_isSimple (m : Memory) {t : Term} (ht : t.isSimple = true) : m.read t = t := by
  cases t with
  | field | element | length | static => cases ht
  | _ => rfl

theorem read_of_isVariable (m : Memory) {t : Term} (ht : t.isVariable = true) : m.read t = t := by
  cases t with
  | const | field | element | length => cases ht
  | _ => rfl

end Memory

namespace Interpretation

variable (I : Interpretation)

/-- A write to the place of a read, whose parts are brought to the heap before the call by `before`, is made through
the same terms. -/
def Overt (m : Memory) (before : Term → Term) (t : Term) : Prop :=
  ∀ w ∈ m.writes, t.spot (fun u => I.eval (before u)) = some (I.spot w) → w.location.parts = t.parts.map before

instance (m : Memory) (before : Term → Term) (t : Term) : Decidable (I.Overt m before t) :=
  inferInstanceAs (Decidable (∀ w ∈ m.writes, _ → w.location.parts = t.parts.map before))

theorem heapAfter_field {m : Memory} {b : Term} {f : Field}
    (ho : ∀ w ∈ m.writes, I.spot w = .field (I.eval b) f → w.location.parts = [b]) :
    I.heapAfter m (.field (I.eval b) f) = I.eval ((m.lastField b f).getD (.field b f)) := by
  have hlast : I.heapAfter m (.field (I.eval b) f) =
      ((m.lastField b f).map I.eval).getD (I.heap (.field (I.eval b) f)) := by
    refine I.heapAfter_of_select ?_
    intro w hw
    cases w with
    | element a i v => rfl
    | field c g v =>
      refine if_congr ⟨?_, ?_⟩ rfl rfl
      · rintro ⟨rfl, rfl⟩
        rfl
      · intro he
        have hc : [c] = [b] := ho _ hw he.symm
        injection he with _ hf
        exact ⟨List.head_eq_of_cons_eq hc, hf.symm⟩
  rw [hlast]
  cases m.lastField b f with
  | none => rfl
  | some v => rfl

theorem heapAfter_element {m : Memory} {a i : Term} (e : Ty)
    (ho : ∀ w ∈ m.writes, I.spot w = .element (I.eval a) (I.eval i) → w.location.parts = [a, i]) :
    I.heapAfter m (.element (I.eval a) (I.eval i)) = I.eval ((m.lastElement a i).getD (.element a i e)) := by
  have hlast : I.heapAfter m (.element (I.eval a) (I.eval i)) =
      ((m.lastElement a i).map I.eval).getD (I.heap (.element (I.eval a) (I.eval i))) := by
    refine I.heapAfter_of_select ?_
    intro w hw
    cases w with
    | field b f v => rfl
    | element c j v =>
      refine if_congr ⟨?_, ?_⟩ rfl rfl
      · rintro ⟨rfl, rfl⟩
        rfl
      · intro he
        have hc : [c, j] = [a, i] := ho _ hw he.symm
        simpa using hc
  rw [hlast]
  cases m.lastElement a i with
  | none => rfl
  | some v => rfl

/-- A variable with an image has the value of its image, and the others keep theirs. -/
def renamed (image : Term → Option Term) (t : Term) : Value := ((image t).map I.eval).getD (I.env t)

theorem eval_read_variable (m : Memory) {names : Term.Renaming}
    (hval : ∀ k v, names.find? k = some v → v.isSimple = true) {t : Term} (ht : t.isVariable = true) :
    I.eval (m.read (t.substitute names)) = I.renamed names.find? t := by
  rw [Term.substitute_of_isVariable ht, renamed]
  cases hf : names.find? t with
  | none =>
    rw [Option.getD_none, m.read_of_isVariable ht]
    exact Term.valueIn_of_isVariable ht _ _
  | some v =>
    rw [Option.getD_some, m.read_of_isSimple (hval t v hf)]
    rfl

theorem eval_read {m : Memory} {names : Term.Renaming} (hkey : ∀ k v, names.find? k = some v → k.isVariable = true)
    (hval : ∀ k v, names.find? k = some v → v.isSimple = true) {t : Term}
    (ho : ∀ u ∈ t.subterms, I.Overt m (fun u => m.read (u.substitute names)) u) :
    I.eval (m.read (t.substitute names)) = t.valueIn (I.renamed names.find?) (I.heapAfter m) := by
  have hread : ∀ u : Term, u.isVariable = false → names.find? u = none := by
    intro u hu
    cases hf : names.find? u with
    | none => rfl
    | some v =>
      rw [hkey u v hf] at hu
      cases hu
  induction t with
  | const v =>
    have hc : (Term.const v).substitute names = (names.find? (.const v)).getD (.const v) := rfl
    rw [hc, hread _ rfl]
    rfl
  | field b f ih =>
    have hb := ih fun u hu => ho u (List.mem_cons_of_mem _ hu)
    have hself := fun w hw hq => ho _ (Term.self_mem_subterms _) w hw (congrArg some (Eq.symm hq))
    rw [Term.substitute, hread _ rfl, Option.getD_none, Term.valueIn, ← hb, I.heapAfter_field hself]
    rfl
  | element a i e iha ihi =>
    have ha := iha fun u hu => ho u (List.mem_cons_of_mem _ (List.mem_append_left _ hu))
    have hi := ihi fun u hu => ho u (List.mem_cons_of_mem _ (List.mem_append_right _ hu))
    have hself := fun w hw hq => ho _ (Term.self_mem_subterms _) w hw (congrArg some (Eq.symm hq))
    rw [Term.substitute, hread _ rfl, Option.getD_none, Term.valueIn, ← ha, ← hi, I.heapAfter_element e hself]
    rfl
  | length a ih =>
    have ha := ih fun u hu => ho u (List.mem_cons_of_mem _ hu)
    rw [Term.substitute, hread _ rfl, Option.getD_none, Term.valueIn, ← ha, I.heapAfter_of_forall_ne]
    · rfl
    · intro w hw
      cases w with
      | field => rintro ⟨⟩
      | element => rintro ⟨⟩
  | param | localVar | static => exact I.eval_read_variable m hval rfl

theorem trueIn_readAtom_iff {m : Memory} {names : Term.Renaming}
    (hkey : ∀ k v, names.find? k = some v → k.isVariable = true)
    (hval : ∀ k v, names.find? k = some v → v.isSimple = true) {a : Atom}
    (ho : ∀ u ∈ a.terms, I.Overt m (fun u => m.read (u.substitute names)) u) :
    (m.readAtom (a.substitute names)).TrueIn I.env I.heap ↔ a.TrueIn (I.renamed names.find?) (I.heapAfter m) := by
  have hl := I.eval_read hkey hval fun u hu => ho u (List.mem_append_left _ hu)
  have hr := I.eval_read hkey hval fun u hu => ho u (List.mem_append_right _ hu)
  rw [Atom.TrueIn, Atom.TrueIn, ← hl, ← hr]
  rfl

/-- What a read finds before the call is the value of the term after it, if the writes to the places it looks at are
made through the terms it looks with. -/
theorem eval_read_eq_after {m : Memory} {t : Term} (ho : ∀ u ∈ t.subterms, I.Overt m m.read u) :
    I.eval (m.read t) = I.after m t := by
  -- Nothing is renamed.
  have hnone : ∀ k, ({} : Term.Renaming).find? k = none := fun _ => rfl
  have henv : I.renamed ({} : Term.Renaming).find? = I.env := by
    funext k
    rw [renamed, hnone]
    rfl
  have hbefore : (fun u => m.read (u.substitute {})) = m.read := by
    funext u
    rw [Term.substitute_empty]
  rw [← hbefore] at ho
  have hread := I.eval_read (fun k v hk => absurd hk (by simp [hnone])) (fun k v hk => absurd hk (by simp [hnone])) ho
  rw [Term.substitute_empty, henv] at hread
  exact hread

/-- A link is made twice, an item is written through the local that the link leads to, and the item is an index. -/
def indexed : Memory :=
  let node : Ty := .object "Node"
  let next : Field := ⟨"Node", "next", node⟩
  let item : Field := ⟨"Node", "item", .int⟩
  let x : Term := .localVar "x" node
  let y : Term := .localVar "y" node
  let row : Term := .param "row" (.array .int)
  { writes := [.field x next .null, .field x next y, .field y item (.int 3), .element row (.int 3) (.int 7)] }

/-- The two locals and the array are at three places. -/
def apart : Interpretation where
  env t := if t = .localVar "x" (.object "Node") then .addr ⟨1⟩ else if t = .localVar "y" (.object "Node") then .addr ⟨2⟩
    else .addr ⟨3⟩
  heap _ := .null

theorem eval_read_eq_after_indexed :
    let item : Field := ⟨"Node", "item", .int⟩
    let link : Term := .field (.localVar "x" (.object "Node")) ⟨"Node", "next", .object "Node"⟩
    let t : Term := .element (.param "row" (.array .int)) (.field link item) .int
    (∀ u ∈ t.subterms, apart.Overt indexed indexed.read u) ∧ apart.after indexed t = .int 7 := by
  intro item link t
  have ho : ∀ u ∈ t.subterms, apart.Overt indexed indexed.read u := by decide +kernel
  exact ⟨ho, (apart.eval_read_eq_after ho).symm.trans (by decide)⟩

/-- The locals are at one place, and only one of them is written through. -/
example :
    let item : Field := ⟨"Node", "item", .int⟩
    let t : Term := .field (.localVar "p" (.object "Node")) item
    let m : Memory := { writes := [.field (.localVar "q" (.object "Node")) item (.int 1)] }
    apart.after m t = .int 1 ∧ apart.eval (m.read t) = .null := by
  decide

end Interpretation

end Symex
