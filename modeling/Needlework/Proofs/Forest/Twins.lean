import Mathlib.Algebra.Order.BigOperators.Group.Finset
import Needlework.Proofs.Forest.Edits

/-!
# Forests side by side

Two forests may differ in nodes that nothing refers to.  An edit that starts from nodes
in a *scope* does the same to both, as long as the nodes in scope are the same and refer
to nodes in scope only.

`Twins F In` says what a relation `F` between forests and a scope `In` must satisfy for
this.  The relation is respected by writes to nodes in scope and by new nodes, and a new
node is in scope.  Every edit whose nodes are in scope then ends the same way in related
forests, with the same result or the same fault, and leaves related forests behind
(`Twins.alike_edit`).  Equality is such a relation, with everything in scope (`twins_eq`),
so whatever is shown of two forests is shown of one.

*Steps of a destruction.*  A destruction takes its number of steps from the number of all
entries of the table, in scope or not.  More steps than needed make no difference
(`run_dismantle_of_le`), so the two need not agree in it.

*Faults.*  An edit fails for a reason of its own (`Fault.IsOwn`), or because a teardown does.
Which faults come up that way is settled by the nodes in scope and by those to be created.
-/

namespace Needlework

/-- A fault that the library has found itself: neither a grammar nor a filter has raised
it, and no scan has run out of rounds. -/
def Fault.IsOwn : Fault → Prop
  | .raised _ _ _ => False
  | .outOfRounds => False
  | _ => True

namespace Forest

variable {f f' : Forest} {c h n p r : Handle} {α β : Type}

/-! ## The steps of a destruction -/

theorem links_eq_sum (f : Forest) :
    f.links = ∑ k ∈ Finset.range f.size, (f.children k).length := by
  have entries : f.nodes.toList.map (fun n => n.children.length)
      = (List.range f.size).map fun k => (f.children k).length := by
    refine List.ext_getElem (by simp [size]) fun k hk _ => ?_
    have inside : k < f.nodes.size := by simpa using hk
    simp [children, node, inside]
  have total : ∑ k ∈ Finset.range f.size, (f.children k).length
      = ((List.range f.size).map fun k => (f.children k).length).sum := rfl
  rw [links, ← Array.foldl_toList, total, ← entries, List.sum_eq_foldl, List.foldl_map]

theorem LinksAgree.links (agree : LinksAgree f f') : f'.links = f.links := by
  rw [links_eq_sum, links_eq_sum, agree.size]
  exact Finset.sum_congr rfl fun k _ => by rw [agree.children]

/-- Taking the child at an index is refused, or uses up that entry. -/
theorem run_removeAt_cases (p : Handle) (i : Int) (f : Forest) :
    (∃ e, (removeAt p i).run f = .error (.edit e) f)
      ∨ ∃ k c, (f.children p)[k]? = some c ∧ (removeAt p i).run f
          = .ok c ((f.setChildren p ((f.children p).eraseIdx k)).setParent c none) := by
  simp only [removeAt, EStateM.run_bind, EStateM.run_get]
  by_cases hi : i < 0
  · rw [if_pos hi]
    exact .inl ⟨_, rfl⟩
  rw [if_neg hi]
  cases hk : (f.children p)[i.toNat]? with
  | none => exact .inl ⟨_, rfl⟩
  | some c =>
      by_cases hp : f.parent c = some p
      · refine .inr ⟨_, c, hk, ?_⟩
        simp only [hp, ne_eq, not_true_eq_false, if_false]
        rfl
      · simp only [hp, ne_eq, not_false_eq_true, if_true]
        exact .inl ⟨_, rfl⟩

theorem links_removeAt {i : Int} (hr : (removeAt p i).run f = .ok c f') : f'.links < f.links := by
  rcases run_removeAt_cases p i f with ⟨e, he⟩ | ⟨k, d, hk, hd⟩
  · rw [he] at hr
    cases hr
  rw [hd] at hr
  cases hr
  have hp : p < f.size := lt_size_of_mem_children (List.mem_of_getElem? hk)
  have shorter : ∀ j, ((f.setChildren p ((f.children p).eraseIdx k)).setParent c none).children j
      = if j = p then (f.children p).eraseIdx k else f.children j := by
    intro j
    simp only [children, setParent, setChildren, node_update, size_update]
    split <;> split <;> simp_all
  obtain ⟨hlt, -⟩ := List.getElem?_eq_some_iff.1 hk
  rw [links_eq_sum, links_eq_sum, size_setParent, size_setChildren]
  refine Finset.sum_lt_sum (fun j _ => ?_) ⟨p, Finset.mem_range.2 hp, ?_⟩
  · rw [shorter]
    split
    · rename_i hj
      rw [hj, List.length_eraseIdx]
      split <;> omega
    · exact Nat.le_refl _
  · rw [shorter, if_pos rfl, List.length_eraseIdx, if_pos hlt]
    omega

/-- A destruction that has enough steps is not changed by more of them. -/
theorem run_dismantle_of_le {n m : Nat} {pending : List Handle}
    (enough : 2 * f.links + pending.length ≤ n) (hm : n ≤ m) :
    (dismantle m pending).run f = (dismantle n pending).run f := by
  induction n generalizing m pending f with
  | zero =>
      cases pending with
      | nil => cases m <;> rfl
      | cons h pending => simp at enough
  | succ n ih =>
      obtain ⟨m, rfl⟩ : ∃ k, m = k + 1 := ⟨m - 1, by omega⟩
      cases pending with
      | nil => rfl
      | cons h pending =>
          rw [List.length_cons] at enough
          rw [dismantle, dismantle, EStateM.run_bind, EStateM.run_bind, EStateM.run_get]
          dsimp only
          split
          · rw [EStateM.run_bind, EStateM.run_bind]
            cases torn : (tearDown h).run f with
            | error e g => rfl
            | ok u g =>
                have agree := (after_tearDown f h).1.links
                rw [after_of_ok torn] at agree
                exact ih (by omega) (by omega)
          · rw [EStateM.run_bind, EStateM.run_bind]
            cases removed : (removeAt h 0).run f with
            | error e g => rfl
            | ok c g =>
                have fewer := links_removeAt removed
                refine ih ?_ (by omega)
                simp only [List.length_cons]
                omega

/-! ## Relations between forests -/

end Forest

/-- The teardown of a form raises certain faults only. -/
def Form.Raises (P : Fault → Prop) (form : Form) : Prop := ∀ e, form.teardown? = some e → P e

theorem Form.raises_text (P : Fault → Prop) (backwards : Text) (flags : Fields) :
    (Form.text backwards flags).Raises P := by
  intro e h
  cases h

/-- A node refers to nodes in scope only, and its teardown raises certain faults only. -/
structure Node.Within (In : Handle → Prop) (P : Fault → Prop) (n : Node) : Prop where
  parent : ∀ p, n.parent = some p → In p
  children : ∀ c ∈ n.children, In c
  teardown : n.form.Raises P

namespace Node.Within

variable {In : Handle → Prop} {P : Fault → Prop} {n : Node}

theorem appendText (hn : n.Within In P) (t : Text) : (n.appendText t).Within In P := by
  cases hf : n.form with
  | text b fs => rw [Node.appendText, hf]; exact ⟨hn.parent, hn.children, Form.raises_text P _ _⟩
  | _ => rw [Node.appendText, hf]; exact hn

theorem setContent (hn : n.Within In P) (t : Text) : (n.setContent t).Within In P := by
  cases hf : n.form with
  | text b fs => rw [Node.setContent, hf]; exact ⟨hn.parent, hn.children, Form.raises_text P _ _⟩
  | _ => rw [Node.setContent, hf]; exact hn

theorem setFlag (hn : n.Within In P) (name : Text) (value : Value) :
    (n.setFlag name value).Within In P := by
  cases hf : n.form with
  | text b fs => rw [Node.setFlag, hf]; exact ⟨hn.parent, hn.children, Form.raises_text P _ _⟩
  | _ => rw [Node.setFlag, hf]; exact hn

end Node.Within

/-- An argument that is in scope if it is a node. -/
def Arg.Scoped (In : Handle → Prop) : Arg → Prop
  | .node h => In h
  | .other _ => True

instance {In : Handle → Prop} [DecidablePred In] : DecidablePred (Arg.Scoped In)
  | .node h => inferInstanceAs (Decidable (In h))
  | .other _ => inferInstanceAs (Decidable True)

theorem Arg.scoped_of_forall {In : Handle → Prop} (h : ∀ k, In k) : ∀ n : Arg, n.Scoped In
  | .node k => h k
  | .other _ => trivial

/-- An edit whose nodes are in scope. -/
def Edit.Scoped (In : Handle → Prop) : Edit → Prop
  | .create _ => True
  | .append p n => In p ∧ n.Scoped In
  | .prepend p n => In p ∧ n.Scoped In
  | .insertBefore p n reference => In p ∧ n.Scoped In ∧ reference.Scoped In
  | .insertAfter p n reference => In p ∧ n.Scoped In ∧ reference.Scoped In
  | .remove p child _ => In p ∧ child.Scoped In
  | .destroy h => In h
  | .appendToLastText p _ _ => In p
  | .appendText h _ => In h
  | .setContent h _ => In h
  | .setFlag h _ _ => In h

instance {In : Handle → Prop} [DecidablePred In] : DecidablePred (Edit.Scoped In)
  | .create _ => inferInstanceAs (Decidable True)
  | .append p n | .prepend p n => inferInstanceAs (Decidable (In p ∧ n.Scoped In))
  | .insertBefore p n r | .insertAfter p n r =>
      inferInstanceAs (Decidable (In p ∧ n.Scoped In ∧ r.Scoped In))
  | .remove p c _ => inferInstanceAs (Decidable (In p ∧ c.Scoped In))
  | .destroy h | .appendToLastText h _ _ | .appendText h _ | .setContent h _ | .setFlag h _ _ =>
      inferInstanceAs (Decidable (In h))

theorem Edit.scoped_of_forall {In : Handle → Prop} (h : ∀ k, In k) (e : Edit) : e.Scoped In := by
  have args := Arg.scoped_of_forall h
  cases e with
  | create b => trivial
  | append p n => exact ⟨h p, args n⟩
  | prepend p n => exact ⟨h p, args n⟩
  | insertBefore p n r => exact ⟨h p, args n, args r⟩
  | insertAfter p n r => exact ⟨h p, args n, args r⟩
  | remove p c d => exact ⟨h p, args c⟩
  | _ => exact h _

/-- An edit that creates only nodes whose teardowns raise certain faults. -/
def Edit.Raises (P : Fault → Prop) : Edit → Prop
  | .create b => b.form.Raises P
  | _ => True

theorem Edit.raises_of_forall {P : Fault → Prop} (h : ∀ f, P f) (e : Edit) : e.Raises P := by
  cases e with
  | create b => exact fun f _ => h f
  | _ => trivial

/-- A write past the edits whose nodes are in scope. -/
def Tamper.Scoped (In : Handle → Prop) : Tamper → Prop
  | .parent h p => In h ∧ ∀ q, p = some q → In q
  | .child h c => In h ∧ In c
  | .id h _ => In h
  | .destroyed h _ => In h
  | .origin h _ => In h

instance {In : Handle → Prop} [DecidablePred In] : DecidablePred (Tamper.Scoped In)
  | .parent h p => inferInstanceAs (Decidable (In h ∧ ∀ q ∈ p, In q))
  | .child h c => inferInstanceAs (Decidable (In h ∧ In c))
  | .id h _ | .destroyed h _ | .origin h _ => inferInstanceAs (Decidable (In h))

theorem Tamper.scoped_of_forall {In : Handle → Prop} (h : ∀ k, In k) (t : Tamper) :
    t.Scoped In := by
  cases t with
  | parent k p => exact ⟨h k, fun q _ => h q⟩
  | child k c => exact ⟨h k, h c⟩
  | _ => exact h _

namespace Forest

/-- A relation between forests that agree on the nodes in scope, and whose teardowns raise certain
faults only. -/
structure Twins (F : Forest → Forest → Prop) (In : Handle → Prop) (P : Fault → Prop) : Prop where
  own : ∀ e : Fault, e.IsOwn → P e
  size : ∀ {f f'}, F f f' → f'.size = f.size
  node : ∀ {f f' h}, F f f' → In h → f'.node h = f.node h
  within : ∀ {f f' h}, F f f' → In h → (f.node h).Within In P
  fresh : ∀ {f f'}, F f f' → In f.size
  add : ∀ {f f'} (b : Blueprint), b.form.Raises P → F f f' → F (f.add b).2 (f'.add b).2
  update : ∀ {f f' h} {change : Node → Node}, F f f' → In h →
    (∀ m, m.Within In P → (change m).Within In P) → F (f.update h change) (f'.update h change)
  tear : ∀ {f f'} (h : Handle), F f f' →
    F { f with torn := h :: f.torn } { f' with torn := h :: f'.torn }

theorem twins_eq : Twins (fun f f' => f' = f) (fun _ => True) fun _ => True where
  own _ _ := trivial
  size h := by rw [h]
  node h _ := by rw [h]
  within _ _ := ⟨fun _ _ => trivial, fun _ _ => trivial, fun _ _ => trivial⟩
  fresh _ := trivial
  add _ _ h := by rw [h]
  update h _ _ := by rw [h]
  tear _ h := by rw [h]

/-- The teardowns of all nodes raise certain faults only. -/
def Raises (P : Fault → Prop) (f : Forest) : Prop := ∀ h, (f.node h).form.Raises P

theorem Raises.of_forall {P : Fault → Prop} (h : ∀ e, P e) (f : Forest) : f.Raises P :=
  fun _ e _ => h e

theorem twins_raising {P : Fault → Prop} (own : ∀ e : Fault, e.IsOwn → P e) :
    Twins (fun f f' => f' = f ∧ f.Raises P) (fun _ => True) P where
  own := own
  size h := by rw [h.1]
  node h _ := by rw [h.1]
  within h _ := ⟨fun _ _ => trivial, fun _ _ => trivial, h.2 _⟩
  fresh _ := trivial
  add b raises h := by
    refine ⟨by rw [h.1], fun k => ?_⟩
    rw [node_add]
    split
    · exact raises
    · exact h.2 k
  update h _ hc := by
    refine ⟨by rw [h.1], fun k => ?_⟩
    rw [node_update]
    split
    · exact (hc _ ⟨fun _ _ => trivial, fun _ _ => trivial, h.2 k⟩).teardown
    · exact h.2 k
  tear _ h := ⟨by rw [h.1], h.2⟩

/-! ## Actions that end the same way -/

/-- Two results agree: the same value or the same fault, and related forests. -/
inductive Matches (F : Forest → Forest → Prop) (P : Fault → Prop) (Q : α → Prop) :
    EStateM.Result Fault Forest α → EStateM.Result Fault Forest α → Prop where
  | ok {a : α} {f f' : Forest} : Q a → F f f' → Matches F P Q (.ok a f) (.ok a f')
  | error {e : Fault} {f f' : Forest} : P e → F f f' → Matches F P Q (.error e f) (.error e f')

/-- An action that ends the same way in related forests, with certain faults if any. -/
def Alike (F : Forest → Forest → Prop) (P : Fault → Prop) (Q : α → Prop) (x : TreeM α) : Prop :=
  ∀ f f', F f f' → Matches F P Q (x.run f) (x.run f')

section Alike

variable {F : Forest → Forest → Prop} {In : Handle → Prop} {P : Fault → Prop} {Q : α → Prop}
  {Q' : β → Prop}

namespace Alike

theorem pure {a : α} (ha : Q a) : Alike F P Q (Pure.pure a) := fun _ _ hf => .ok ha hf

theorem refuse (own : ∀ e : Fault, e.IsOwn → P e) (cause : EditFault) :
    Alike F P Q (Forest.refuse cause) :=
  fun _ _ hf => .error (own _ trivial) hf

theorem bind {x : TreeM α} {k : α → TreeM β} (hx : Alike F P Q x)
    (hk : ∀ a, Q a → Alike F P Q' (k a)) : Alike F P Q' (x >>= k) := by
  intro f f' hf
  rw [EStateM.run_bind, EStateM.run_bind]
  have first := hx f f' hf
  generalize x.run f = out, x.run f' = out' at first
  cases first with
  | ok ha hf' => exact hk _ ha _ _ hf'
  | error he hf' => exact .error he hf'

theorem get {k : Forest → TreeM α}
    (hk : ∀ f f', F f f' → Matches F P Q ((k f).run f) ((k f').run f')) :
    Alike F P Q (MonadState.get >>= k) := hk

theorem modify {change : Forest → Forest} (hc : ∀ f f', F f f' → F (change f) (change f')) :
    Alike F P (fun _ => True) (modify change : TreeM PUnit) :=
  fun f f' hf => .ok trivial (hc f f' hf)

theorem asChild (own : ∀ e : Fault, e.IsOwn → P e) {n : Arg} (hn : n.Scoped In)
    {x : Handle → TreeM Unit} (hx : ∀ h, In h → Alike F P (fun _ => True) (x h)) : Alike F P In (do
      let h ← n.asChild
      x h
      Pure.pure h) := by
  cases n with
  | node h => exact .bind (.pure hn) fun h hh => .bind (hx h hh) fun _ _ => .pure hh
  | other v => exact fun _ _ hf => .error (own _ trivial) hf

end Alike

namespace Twins

variable (twins : Twins F In P)

include twins

theorem parent (hf : F f f') (hh : In h) : f'.parent h = f.parent h := by
  rw [Forest.parent, Forest.parent, twins.node hf hh]

theorem children (hf : F f f') (hh : In h) : f'.children h = f.children h := by
  rw [Forest.children, Forest.children, twins.node hf hh]

theorem idOf (hf : F f f') (hh : In h) : f'.idOf h = f.idOf h := by
  rw [Forest.idOf, Forest.idOf, twins.node hf hh]

theorem in_parent (hf : F f f') (hh : In h) (hp : f.parent h = some p) : In p :=
  (twins.within hf hh).parent p hp

theorem in_children (hf : F f f') (hh : In h) (hc : c ∈ f.children h) : In c :=
  (twins.within hf hh).children c hc

theorem setChildren (hf : F f f') (hp : In p) {cs : List Handle} (hcs : ∀ c ∈ cs, In c) :
    F (f.setChildren p cs) (f'.setChildren p cs) :=
  twins.update hf hp fun _ hm => ⟨hm.parent, hcs, hm.teardown⟩

theorem setParent (hf : F f f') (hc : In c) {o : Option Handle} (ho : ∀ p, o = some p → In p) :
    F (f.setParent c o) (f'.setParent c o) :=
  twins.update hf hc fun _ hm => ⟨ho, hm.children, hm.teardown⟩

theorem climb (hf : F f f') (k : Nat) (hh : In h) : f'.climb k h = f.climb k h := by
  induction k generalizing h with
  | zero => rfl
  | succ k ih =>
      rw [Forest.climb, Forest.climb, twins.parent hf hh]
      cases hp : f.parent h with
      | none => rfl
      | some p =>
          dsimp only
          rw [ih (twins.in_parent hf hh hp)]

theorem lineage (hf : F f f') (hh : In h) : f'.lineage h = f.lineage h := by
  rw [Forest.lineage, Forest.lineage, twins.size hf, twins.climb hf _ hh]

theorem indexOf? (hf : F f f') (hp : In p) (hc : In c) : f'.indexOf? p c = f.indexOf? p c := by
  have ids : (f.children p).map f'.idOf = (f.children p).map f.idOf :=
    List.map_congr_left fun x hx => twins.idOf hf (twins.in_children hf hp hx)
  have byId : ∀ g : Forest, (f.children p).findIdx? (fun x => g.idOf x == f.idOf c)
      = ((f.children p).map g.idOf).findIdx? (· == f.idOf c) := fun g => by
    rw [List.findIdx?_map]
    rfl
  rw [Forest.indexOf?, Forest.indexOf?, twins.children hf hp, twins.idOf hf hc, byId, byId, ids]

/-! ### Checks and removals -/

theorem alike_requireIndex (hp : In p) (hc : In c) :
    Alike F P (fun _ => True) (requireIndex p c) := by
  intro f f' hf
  rw [run_requireIndex, run_requireIndex, twins.indexOf? hf hp hc, twins.idOf hf hp,
    twins.idOf hf hc]
  cases f.indexOf? p c with
  | some i => exact .ok trivial hf
  | none => exact .error (twins.own _ trivial) hf

theorem alike_checkInsertable (hp : In p) (hn : In n) :
    Alike F P (fun _ => True) (checkInsertable p n) := by
  refine .get fun f f' hf => ?_
  rw [twins.node hf hn, twins.lineage hf hp, twins.idOf hf hn, twins.idOf hf hp]
  dsimp only
  split
  · exact .error (twins.own _ trivial) hf
  split
  · exact .error (twins.own _ trivial) hf
  split
  · exact .error (twins.own _ trivial) hf
  · exact .ok trivial hf

theorem alike_checkBeside (hp : In p) (hn : In n) {reference : Arg}
    (hr : reference.Scoped In) : Alike F P In (checkBeside p n reference) := by
  refine .bind (twins.alike_checkInsertable hp hn) fun _ _ => ?_
  cases reference with
  | other v => exact .refuse twins.own _
  | node r =>
      dsimp only
      split
      · exact fun _ _ hf => .error (twins.own _ trivial) hf
      · exact .bind (twins.alike_requireIndex hp hr) fun _ _ => .pure hr

theorem alike_removeAt (hp : In p) (i : Int) : Alike F P In (removeAt p i) := by
  refine .get fun f f' hf => ?_
  dsimp only
  rw [twins.children hf hp, twins.idOf hf hp]
  split
  · exact .error (twins.own _ trivial) hf
  cases hk : (f.children p)[i.toNat]? with
  | none => exact .error (twins.own _ trivial) hf
  | some c =>
      have hc := twins.in_children hf hp (List.mem_of_getElem? hk)
      dsimp only
      rw [twins.parent hf hc, twins.idOf hf hc]
      split
      · exact .error (twins.own _ trivial) hf
      · refine .ok hc (twins.setParent (twins.setChildren hf hp fun d hd => ?_) hc nofun)
        exact twins.in_children hf hp (List.mem_of_mem_eraseIdx hd)

theorem alike_removeNode (hp : In p) (hc : In c) : Alike F P In (removeNode p c) :=
  .bind (twins.alike_requireIndex hp hc) fun i _ => twins.alike_removeAt hp i

theorem alike_detach (hn : In n) : Alike F P (fun _ => True) (detach n) := by
  refine .get fun f f' hf => ?_
  rw [twins.parent hf hn]
  cases hp : f.parent n with
  | none => exact .ok trivial hf
  | some p =>
      have removed := twins.alike_removeNode (twins.in_parent hf hn hp) hn
      exact Alike.bind removed (fun _ _ => .pure trivial) f f' hf

/-! ### Insertions -/

theorem alike_attach (hp : In p) (hn : In n) {place : List Handle → List Handle}
    (hplace : ∀ cs, ∀ c ∈ place cs, c ∈ cs ∨ c = n) :
    Alike F P (fun _ => True) (attach p n place) := by
  refine .modify fun f f' hf => ?_
  rw [twins.children hf hp]
  refine twins.setParent (twins.setChildren hf hp fun c hc => ?_) hn fun q hq => ?_
  · rcases hplace _ c hc with hc | rfl
    · exact twins.in_children hf hp hc
    · exact hn
  · cases hq
    exact hp

theorem alike_append (hp : In p) (hn : In n) : Alike F P (fun _ => True) (append p n) := by
  refine .bind (twins.alike_checkInsertable hp hn) fun _ _ => ?_
  refine .bind (twins.alike_detach hn) fun _ _ => twins.alike_attach hp hn fun cs c hc => ?_
  simpa using hc

theorem alike_prepend (hp : In p) (hn : In n) : Alike F P (fun _ => True) (prepend p n) := by
  refine .bind (twins.alike_checkInsertable hp hn) fun _ _ => ?_
  refine .bind (twins.alike_detach hn) fun _ _ => twins.alike_attach hp hn fun cs c hc => ?_
  exact (List.mem_cons.mp hc).symm

theorem alike_insertBeside (hp : In p) (hn : In n) {reference : Arg}
    (hr : reference.Scoped In) (shift : Nat) :
    Alike F P (fun _ => True) (insertBeside p n reference shift) := by
  refine .bind (twins.alike_checkBeside hp hn hr) fun r hr => ?_
  refine .bind (twins.alike_detach hn) fun _ _ => ?_
  refine .bind (twins.alike_requireIndex hp hr) fun i _ => ?_
  refine twins.alike_attach hp hn fun cs c hc => ?_
  exact (List.eq_or_mem_of_mem_insertIdx hc).symm

/-! ### Destruction -/

theorem alike_tearDown (hh : In h) : Alike F P (fun _ => True) (tearDown h) := by
  have mark : Alike F P (fun _ => True)
      (modify fun f => f.update h fun n => { n with destroyed := true } : TreeM PUnit) :=
    .modify fun f f' hf => twins.update hf hh fun _ hm => ⟨hm.parent, hm.children, hm.teardown⟩
  refine .bind (.modify fun f f' hf => twins.tear h hf) fun _ _ => .get fun f f' hf => ?_
  rw [twins.node hf hh]
  dsimp only
  split
  · have clear : Alike F P (fun _ => True)
        (modify fun f => f.update h fun n => { n with form := .text [] [] } : TreeM PUnit) :=
      .modify fun f f' hf => twins.update hf hh fun _ hm =>
        ⟨hm.parent, hm.children, Form.raises_text P _ _⟩
    exact Alike.bind clear (fun _ _ => mark) f f' hf
  next t custom =>
    cases torn : t.teardown with
    | none => exact mark f f' hf
    | some fault =>
        refine .error ((twins.within hf hh).teardown fault ?_) hf
        rw [custom]
        exact torn
  · exact mark f f' hf

theorem alike_dismantle (n : Nat) {pending : List Handle} (hp : ∀ h ∈ pending, In h) :
    Alike F P (fun _ => True) (dismantle n pending) := by
  induction n generalizing pending with
  | zero =>
      cases pending with
      | nil => exact .pure trivial
      | cons h pending => exact .pure trivial
  | succ n ih =>
      cases pending with
      | nil => exact .pure trivial
      | cons h pending =>
          have hh : In h := hp h List.mem_cons_self
          have rest : ∀ k ∈ pending, In k := fun k hk => hp k (List.mem_cons_of_mem h hk)
          refine .get fun f f' hf => ?_
          rw [twins.children hf hh]
          split
          · exact Alike.bind (twins.alike_tearDown hh) (fun _ _ => ih rest) f f' hf
          · refine Alike.bind (twins.alike_removeAt hh 0) (fun c hc => ih ?_) f f' hf
            intro k hk
            rcases List.mem_cons.mp hk with rfl | hk
            · exact hc
            · exact hp k hk

/-- The two forests may give the destruction different numbers of steps.  Both are
enough. -/
theorem alike_raze (hh : In h) : Alike F P (fun _ => True) (raze h) := by
  refine .get fun f f' hf => ?_
  have more : ∀ g : Forest, g.links ≤ max f.links f'.links →
      (dismantle (2 * g.links + 1) [h]).run g
        = (dismantle (2 * max f.links f'.links + 1) [h]).run g := fun g hg =>
    (run_dismantle_of_le (by simp) (by omega)).symm
  rw [more f (Nat.le_max_left ..), more f' (Nat.le_max_right ..)]
  refine twins.alike_dismantle _ (fun k hk => ?_) f f' hf
  rw [List.mem_singleton.mp hk]
  exact hh

theorem alike_destroy (hh : In h) : Alike F P (fun _ => True) (destroy h) := by
  refine .get fun f f' hf => ?_
  rw [twins.parent hf hh]
  cases hp : f.parent h with
  | none => exact twins.alike_raze hh f f' hf
  | some p =>
      have removed := twins.alike_removeNode (twins.in_parent hf hh hp) hh
      exact Alike.bind removed (fun c hc => twins.alike_raze hc) f f' hf

theorem alike_removeChild (hp : In p) {child : Arg} (hc : child.Scoped In)
    (andDestroy : Bool) : Alike F P In (removeChild p child andDestroy) := by
  have finished : ∀ c, In c → Alike F P In (do
      if andDestroy then destroy c
      Pure.pure c) := fun c hc => by
    cases andDestroy with
    | false => exact .pure hc
    | true => exact .bind (twins.alike_destroy hc) fun _ _ => .pure hc
  cases child with
  | node c => exact .bind (twins.alike_removeNode hp hc) finished
  | other v =>
      cases v with
      | int i => exact .bind (twins.alike_removeAt hp i) finished
      | _ => exact .bind (Alike.refuse (Q := In) twins.own _) finished

/-! ### Creation -/

theorem alike_create {b : Blueprint} (hb : b.form.Raises P) : Alike F P In (create b) := by
  intro f f' hf
  rw [create]
  split
  · exact .error (twins.own _ trivial) hf
  · have created : ∀ g : Forest, EStateM.run (do
        pure PUnit.unit
        modifyGet fun g => g.add b : TreeM Handle) g = .ok g.size (g.add b).2 := fun g => rfl
    rw [created, created, twins.size hf]
    exact .ok (twins.fresh hf) (twins.add b hb hf)

theorem alike_appendToLastText (hp : In p) (t : Text) (origin : Option Int) :
    Alike F P (fun _ => True) (appendToLastText p t origin) := by
  have grown : Alike F P (fun _ => True) (do append p (← create (.text t origin))) :=
    .bind (twins.alike_create (Form.raises_text P _ _)) fun n hn => twins.alike_append hp hn
  rw [appendToLastText]
  split
  · exact .pure trivial
  refine .get fun f f' hf => ?_
  rw [Forest.lastChild?, Forest.lastChild?, twins.children hf hp]
  cases hc : (f.children p).getLast? with
  | none => exact grown f f' hf
  | some c =>
      have inside := twins.in_children hf hp (List.mem_of_getLast? hc)
      dsimp only
      rw [twins.node hf inside]
      split
      · exact .ok trivial (twins.update hf inside fun _ hm => hm.appendText t)
      · exact grown f f' hf

/-! ### Edits and other writes -/

theorem alike_change (hh : In h) {change : Node → Node}
    (hc : ∀ m, m.Within In P → (change m).Within In P) : Alike F P In (do
      modify fun f => f.update h change
      Pure.pure h) :=
  .bind (.modify fun _ _ hf => twins.update hf hh hc) fun _ _ => .pure hh

/-- An edit whose nodes are in scope ends the same way in both forests. -/
theorem alike_edit {e : Edit} (he : e.Scoped In) (raises : e.Raises P) : Alike F P In e.run := by
  cases e with
  | create b => exact twins.alike_create raises
  | append p n => exact .asChild twins.own he.2 fun h hh => twins.alike_append he.1 hh
  | prepend p n => exact .asChild twins.own he.2 fun h hh => twins.alike_prepend he.1 hh
  | insertBefore p n r =>
      exact .asChild twins.own he.2.1 fun h hh => twins.alike_insertBeside he.1 hh he.2.2 0
  | insertAfter p n r =>
      exact .asChild twins.own he.2.1 fun h hh => twins.alike_insertBeside he.1 hh he.2.2 1
  | remove p c d => exact twins.alike_removeChild he.1 he.2 d
  | destroy h => exact .bind (twins.alike_destroy he) fun _ _ => .pure he
  | appendToLastText p t origin =>
      exact .bind (twins.alike_appendToLastText he t origin) fun _ _ => .pure he
  | appendText h t => exact twins.alike_change he fun _ hm => hm.appendText t
  | setContent h t => exact twins.alike_change he fun _ hm => hm.setContent t
  | setFlag h name value => exact twins.alike_change he fun _ hm => hm.setFlag name value

theorem tamper {t : Tamper} (ht : t.Scoped In) (hf : F f f') : F (t.apply f) (t.apply f') := by
  cases t with
  | parent h p => exact twins.setParent hf ht.1 ht.2
  | child h c =>
      rw [Tamper.apply, Tamper.apply, twins.children hf ht.1]
      refine twins.setChildren hf ht.1 fun d hd => ?_
      rcases List.mem_append.mp hd with hd | hd
      · exact twins.in_children hf ht.1 hd
      · rw [List.mem_singleton.mp hd]
        exact ht.2
  | id h i => exact twins.update hf ht fun _ hm => ⟨hm.parent, hm.children, hm.teardown⟩
  | destroyed h b => exact twins.update hf ht fun _ hm => ⟨hm.parent, hm.children, hm.teardown⟩
  | origin h o => exact twins.update hf ht fun _ hm => ⟨hm.parent, hm.children, hm.teardown⟩

end Twins

end Alike

/-! ## Ids -/

/-- Every id that was given out belongs to a node of the forest. -/
def Counted (f : Forest) : Prop := f.nextId = f.size

theorem twins_counted :
    Twins (fun f f' => f' = f ∧ f.Counted) (fun _ => True) fun _ => True where
  own _ _ := trivial
  size h := by rw [h.1]
  node h _ := by rw [h.1]
  within _ _ := ⟨fun _ _ => trivial, fun _ _ => trivial, fun _ _ => trivial⟩
  fresh _ := trivial
  add b _ h := by
    refine ⟨by rw [h.1], ?_⟩
    rw [Counted, size_add]
    exact congrArg (· + 1) h.2
  update h _ _ := by
    refine ⟨by rw [h.1], ?_⟩
    rw [Counted, size_update]
    exact h.2
  tear _ h := ⟨by rw [h.1], h.2⟩

/-! ## Forests that agree from a node on -/

/-- Two forests of one size that agree on all nodes from `base` on.  These refer to each
other only. -/
structure AgreeFrom (base : Handle) (f f' : Forest) : Prop where
  size : f'.size = f.size
  nextId : f'.nextId = f.nextId
  base_le : base ≤ f.size
  node : ∀ h, base ≤ h → f'.node h = f.node h
  within : ∀ h, base ≤ h → (f.node h).Within (base ≤ ·) fun _ => True

/-- Forests of one size that give out the same id next agree on the nodes to come. -/
theorem AgreeFrom.of_size (size : f'.size = f.size) (nextId : f'.nextId = f.nextId) :
    AgreeFrom f.size f f' where
  size := size
  nextId := nextId
  base_le := Nat.le_refl _
  node h hh := by rw [node_of_size_le hh, node_of_size_le (size ▸ hh)]
  within h hh := by
    rw [node_of_size_le hh]
    exact ⟨nofun, nofun, nofun⟩

theorem twins_agreeFrom (base : Handle) :
    Twins (AgreeFrom base) (base ≤ ·) fun _ => True where
  own _ _ := trivial
  size hf := hf.size
  node hf hh := hf.node _ hh
  within hf hh := hf.within _ hh
  fresh hf := hf.base_le
  add b _ hf := by
    have grown : ∀ h, base ≤ h →
        ((Forest.add _ b).2.node h).Within (base ≤ ·) fun _ => True := fun h hh => by
      rw [node_add]
      split
      · exact ⟨nofun, nofun, fun _ _ => trivial⟩
      · exact hf.within h hh
    refine ⟨?_, ?_, ?_, fun h hh => ?_, grown⟩
    · rw [size_add, size_add, hf.size]
    · simp only [Forest.add, hf.nextId]
    · rw [size_add]
      exact Nat.le_succ_of_le hf.base_le
    · rw [node_add, node_add, hf.size, hf.nextId, hf.node h hh]
  update {f f' k change} hf _ hc := by
    refine ⟨?_, hf.nextId, ?_, fun h hh => ?_, fun h hh => ?_⟩
    · rw [size_update, size_update, hf.size]
    · rw [size_update]
      exact hf.base_le
    · rw [node_update, node_update, hf.size, hf.node h hh]
    · rw [node_update]
      split
      · exact hc _ (hf.within h hh)
      · exact hf.within h hh
  tear _ hf := ⟨hf.size, hf.nextId, hf.base_le, hf.node, hf.within⟩

end Forest

end Needlework
