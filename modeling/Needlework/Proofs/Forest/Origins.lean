import Needlework.Proofs.Forest.Edits

/-!
# Origins

Where a node began is settled when it is created, and so are its kind and how its
teardown ends.  No edit changes them, whether the edit succeeds or is refused, in any
forest whatsoever: new nodes may come, and the nodes that are there keep their origins
(`originsKept_edit`).  No new node began before the text.
-/

namespace Needlework

/-- What is settled when a node is created: its origin, its kind and its teardown. -/
structure Node.SameOrigin (n n' : Node) : Prop where
  origin : n'.origin = n.origin
  kind : n'.kind = n.kind
  teardown? : n'.teardown? = n.teardown?

namespace Node

theorem SameOrigin.refl (n : Node) : n.SameOrigin n := ⟨rfl, rfl, rfl⟩

theorem SameOrigin.trans {a b c : Node} (h₁ : a.SameOrigin b) (h₂ : b.SameOrigin c) :
    a.SameOrigin c :=
  ⟨h₂.origin.trans h₁.origin, h₂.kind.trans h₁.kind, h₂.teardown?.trans h₁.teardown?⟩

/-- A text stays a text, and the teardown of a text does not fail. -/
theorem SameOrigin.of_text {n : Node} {b b' : Text} {fs fs' : Fields} (h : n.form = .text b fs) :
    n.SameOrigin { n with form := .text b' fs' } where
  origin := rfl
  kind := rfl
  teardown? := by
    rw [Node.teardown?, Node.teardown?, h]
    rfl

theorem sameOrigin_appendText (t : Text) (n : Node) : n.SameOrigin (n.appendText t) := by
  rw [appendText]
  split
  next h => exact .of_text h
  next => exact .refl n

theorem sameOrigin_setContent (t : Text) (n : Node) : n.SameOrigin (n.setContent t) := by
  rw [setContent]
  split
  next h => exact .of_text h
  next => exact .refl n

theorem sameOrigin_setFlag (name : Text) (value : Value) (n : Node) :
    n.SameOrigin (n.setFlag name value) := by
  rw [setFlag]
  split
  next h => exact .of_text h
  next => exact .refl n

end Node

namespace Forest

variable {f f' : Forest} {α β : Type}

/-- Every node of a forest is still there, with its origin, and no new one has a negative
origin. -/
structure OriginsKept (f f' : Forest) : Prop where
  size : f.size ≤ f'.size
  same : ∀ k, k < f.size → (f.node k).SameOrigin (f'.node k)
  fresh : ∀ k, f.size ≤ k → ∀ o, (f'.node k).origin = some o → 0 ≤ o

namespace OriginsKept

theorem origin (h : OriginsKept f f') (k : Handle) (hk : k < f.size) :
    (f'.node k).origin = (f.node k).origin := (h.same k hk).origin

theorem refl (f : Forest) : OriginsKept f f := by
  refine ⟨Nat.le_refl _, fun _ _ => .refl _, fun k hk o ho => ?_⟩
  rw [node_of_size_le hk] at ho
  cases ho

theorem trans {g : Forest} (h₁ : OriginsKept f f') (h₂ : OriginsKept f' g) : OriginsKept f g := by
  refine ⟨Nat.le_trans h₁.size h₂.size, fun k hk => ?_, fun k hk o ho => ?_⟩
  · exact (h₁.same k hk).trans (h₂.same k (Nat.lt_of_lt_of_le hk h₁.size))
  · by_cases known : k < f'.size
    · rw [h₂.origin k known] at ho
      exact h₁.fresh k hk o ho
    · exact h₂.fresh k (Nat.le_of_not_lt known) o ho

theorem update {h : Handle} {change : Node → Node}
    (hc : (f.node h).SameOrigin (change (f.node h))) : OriginsKept f (f.update h change) := by
  refine ⟨Nat.le_of_eq (size_update ..).symm, fun k _ => ?_, fun k hk o ho => ?_⟩
  · rw [node_update]
    split
    next found =>
      rw [found.1]
      exact hc
    next => exact .refl _
  · rw [node_of_size_le (by rw [size_update]; exact hk)] at ho
    cases ho

theorem add (bp : Blueprint) : OriginsKept f (f.add bp).2 := by
  refine ⟨by rw [size_add]; exact Nat.le_succ _, fun k hk => ?_, fun k hk o ho => ?_⟩
  · rw [node_add, if_neg (Nat.ne_of_lt hk)]
    exact .refl _
  · rw [node_add] at ho
    split at ho
    · exact of_decide_eq_true (Option.filter_eq_some_iff.mp ho).2
    · rw [node_of_size_le hk] at ho
      cases ho

theorem setChildren (p : Handle) (cs : List Handle) : OriginsKept f (f.setChildren p cs) :=
  update ⟨rfl, rfl, rfl⟩

theorem setParent (c : Handle) (o : Option Handle) : OriginsKept f (f.setParent c o) :=
  update ⟨rfl, rfl, rfl⟩

theorem appendText (h : Handle) (t : Text) : OriginsKept f (f.update h (Node.appendText t)) :=
  update (Node.sameOrigin_appendText t _)

theorem writes {p : Handle} {t : Text} {origin : Option Int} (hw : f.Writes p t origin f') :
    OriginsKept f f' := by
  cases hw with
  | last => exact appendText _ t
  | new => exact (add _).trans ((setChildren p _).trans (setParent _ _))

end OriginsKept

/-- No node began before the text. -/
def Forward (f : Forest) : Prop := ∀ h o, (f.node h).origin = some o → 0 ≤ o

theorem OriginsKept.forward (kept : OriginsKept f f') (forward : f.Forward) : f'.Forward := by
  intro h o origin
  by_cases known : h < f.size
  · rw [kept.origin h known] at origin
    exact forward h o origin
  · exact kept.fresh h (Nat.le_of_not_lt known) o origin

/-! ## Actions -/

/-- An action that keeps the origins, however it ends. -/
def Steady (x : TreeM α) : Prop := ∀ f : Forest, OriginsKept f (f.after x)

namespace Steady

theorem pure (a : α) : Steady (Pure.pure a : TreeM α) := .refl

theorem refuse (cause : EditFault) : Steady (Forest.refuse cause : TreeM α) := .refl

theorem bind {x : TreeM α} {k : α → TreeM β} (hx : Steady x) (hk : ∀ a, Steady (k a)) :
    Steady (x >>= k) := by
  intro f
  have hxf := hx f
  refine after_bind_of (fun e g hg => ?_) (fun r g hg => ?_)
  · rw [after_of_error hg] at hxf
    exact hxf
  · rw [after_of_ok hg] at hxf
    exact hxf.trans (hk r g)

theorem get {k : Forest → TreeM α} (hk : ∀ f : Forest, OriginsKept f (f.after (k f))) :
    Steady (MonadState.get >>= k) := hk

theorem modify {change : Forest → Forest} (hc : ∀ f, OriginsKept f (change f)) :
    Steady (modify change : TreeM PUnit) := hc

theorem ite {c : Prop} [Decidable c] {x y : TreeM α} (hx : Steady x) (hy : Steady y) :
    Steady (if c then x else y) := by
  split
  · exact hx
  · exact hy

end Steady

theorem steady_requireIndex (p c : Handle) : Steady (requireIndex p c) := by
  intro f
  rw [after, run_requireIndex]
  cases f.indexOf? p c <;> exact .refl f

theorem steady_checkInsertable (p n : Handle) : Steady (checkInsertable p n) := by
  refine Steady.get fun f => ?_
  exact (Steady.ite (Steady.bind (Steady.refuse _) fun _ => .ite (Steady.bind (Steady.refuse _) fun _ =>
    .ite (Steady.refuse _) (Steady.pure _)) (.ite (Steady.refuse _) (Steady.pure _))) (.ite (Steady.bind (Steady.refuse _) fun _ =>
    .ite (Steady.refuse _) (Steady.pure _)) (.ite (Steady.refuse _) (Steady.pure _)))) f

theorem steady_checkBeside (p n : Handle) (reference : Arg) :
    Steady (checkBeside p n reference) := by
  refine Steady.bind (steady_checkInsertable p n) fun _ => ?_
  cases reference with
  | other v => exact Steady.refuse _
  | node r =>
      have found : Steady (do
          let _ ← requireIndex p r
          Pure.pure r) := Steady.bind (steady_requireIndex p r) fun _ => Steady.pure r
      exact .ite (Steady.bind (Steady.refuse _) fun _ => found) found

theorem steady_removeAt (p : Handle) (i : Int) : Steady (removeAt p i) := by
  refine Steady.get fun f => ?_
  dsimp only
  split
  · exact Steady.refuse _ f
  · split
    · exact Steady.refuse _ f
    · split
      · exact .refl f
      · exact (OriginsKept.setChildren p _).trans (.setParent _ none)

theorem steady_removeNode (p c : Handle) : Steady (removeNode p c) :=
  Steady.bind (steady_requireIndex p c) fun i => steady_removeAt p i

theorem steady_detach (n : Handle) : Steady (detach n) := by
  refine Steady.get fun f => ?_
  cases f.parent n with
  | none => exact .refl f
  | some p => exact Steady.bind (steady_removeNode p n) (fun _ => Steady.pure _) f

theorem steady_attach (p n : Handle) (place : List Handle → List Handle) :
    Steady (attach p n place) :=
  Steady.modify fun _ => (OriginsKept.setChildren p _).trans (.setParent n _)

theorem steady_append (p n : Handle) : Steady (append p n) :=
  Steady.bind (steady_checkInsertable p n) fun _ => Steady.bind (steady_detach n) fun _ => steady_attach p n _

theorem steady_prepend (p n : Handle) : Steady (prepend p n) :=
  Steady.bind (steady_checkInsertable p n) fun _ => Steady.bind (steady_detach n) fun _ => steady_attach p n _

theorem steady_insertBeside (p n : Handle) (reference : Arg) (shift : Nat) :
    Steady (insertBeside p n reference shift) :=
  Steady.bind (steady_checkBeside p n reference) fun r => Steady.bind (steady_detach n) fun _ =>
    Steady.bind (steady_requireIndex p r) fun _ => steady_attach p n _

theorem steady_tearDown (h : Handle) : Steady (tearDown h) := by
  have recorded : ∀ f : Forest, OriginsKept f { f with torn := h :: f.torn } := fun f =>
    ⟨Nat.le_refl _, (OriginsKept.refl f).same, (OriginsKept.refl f).fresh⟩
  refine Steady.bind (Steady.modify recorded) fun _ => Steady.get fun f => ?_
  have mark : Steady (modify fun f => f.update h fun n => { n with destroyed := true } : TreeM PUnit) :=
    Steady.modify fun _ => .update ⟨rfl, rfl, rfl⟩
  dsimp only
  split
  next b fs hform =>
    have cleared : OriginsKept f (f.update h fun n => { n with form := .text [] [] }) :=
      .update ⟨rfl, rfl, by simp only [Node.teardown?, Form.teardown?, hform]⟩
    exact cleared.trans (mark _)
  · split
    · exact mark f
    · exact .refl f
  · exact mark f

theorem steady_dismantle : ∀ (n : Nat) (pending : List Handle), Steady (dismantle n pending)
  | _, [] => by
      unfold dismantle
      exact Steady.pure _
  | 0, _ :: _ => Steady.pure _
  | n + 1, h :: pending => by
      refine Steady.get fun f => ?_
      exact (Steady.ite (Steady.bind (steady_tearDown h) fun _ => steady_dismantle n pending)
        (Steady.bind (steady_removeAt h 0) fun c => steady_dismantle n (c :: h :: pending))) f

theorem steady_raze (h : Handle) : Steady (raze h) :=
  Steady.get fun f => steady_dismantle _ _ f

theorem steady_destroy (h : Handle) : Steady (destroy h) := by
  refine Steady.get fun f => ?_
  cases f.parent h with
  | none => exact steady_raze h f
  | some p => exact Steady.bind (steady_removeNode p h) steady_raze f

theorem steady_removeChild (p : Handle) (child : Arg) (andDestroy : Bool) :
    Steady (removeChild p child andDestroy) := by
  have finished : ∀ c, Steady (do
      if andDestroy then destroy c
      Pure.pure c) := fun c => by
    cases andDestroy with
    | false => exact Steady.pure c
    | true => exact Steady.bind (steady_destroy c) fun _ => Steady.pure c
  cases child with
  | node c => exact Steady.bind (steady_removeNode p c) finished
  | other v =>
      cases v with
      | int i => exact Steady.bind (steady_removeAt p i) finished
      | _ => exact Steady.bind (Steady.refuse _) finished

theorem steady_create (bp : Blueprint) : Steady (create bp) := by
  intro f
  rcases create_cases bp f with ⟨e, he⟩ | hr
  · rw [after_of_error he]
    exact .refl f
  · rw [after_of_ok hr]
    exact .add bp

theorem steady_appendToLastText (p : Handle) (t : Text) (origin : Option Int) :
    Steady (appendToLastText p t origin) := by
  have grown : Steady (do append p (← create (.text t origin))) :=
    Steady.bind (steady_create _) fun n => steady_append p n
  intro f
  rw [appendToLastText]
  split
  · exact .refl f
  · refine Steady.get (fun f => ?_) f
    split
    · split
      · exact .appendText _ t
      · exact grown f
    · exact grown f

/-- No edit changes where a node began. -/
theorem originsKept_edit (e : Edit) (f : Forest) : OriginsKept f (f.after e.run) := by
  have child : ∀ (n : Arg) (x : Handle → TreeM Unit), (∀ h, Steady (x h)) →
      Steady (do
        let h ← n.asChild
        x h
        Pure.pure h) := by
    intro n x hx
    refine Steady.bind ?_ fun h => Steady.bind (hx h) fun _ => Steady.pure h
    cases n with
    | node h => exact Steady.pure h
    | other v => exact fun f => .refl f
  cases e with
  | create bp => exact steady_create bp f
  | append p n => exact child n _ (steady_append p) f
  | prepend p n => exact child n _ (steady_prepend p) f
  | insertBefore p n r => exact child n _ (fun h => steady_insertBeside p h r 0) f
  | insertAfter p n r => exact child n _ (fun h => steady_insertBeside p h r 1) f
  | remove p c d => exact steady_removeChild p c d f
  | destroy h => exact Steady.bind (steady_destroy h) (fun _ => Steady.pure h) f
  | appendToLastText p t origin =>
      exact Steady.bind (steady_appendToLastText p t origin) (fun _ => Steady.pure p) f
  | appendText h t => exact .appendText h t
  | setContent h t =>
      show OriginsKept f (f.update h (Node.setContent t))
      exact .update (Node.sameOrigin_setContent t _)
  | setFlag h name value =>
      show OriginsKept f (f.update h (Node.setFlag name value))
      exact .update (Node.sameOrigin_setFlag name value _)

end Forest

end Needlework
