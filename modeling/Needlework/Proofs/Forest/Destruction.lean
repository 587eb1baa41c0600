import Needlework.Proofs.Forest.Dismantling
import Needlework.Proofs.Forest.Histories

/-!
# Destruction

A destruction comes to its end when no teardown below the node fails.  Then everything
that was below the node is *released*: destroyed, and linked to nothing
(`WellFormed.exists_destroy`).  The rest of the forest is as it was.

*Marks.*  An edit that destroys nothing leaves the marks of destruction alone
(`WellFormed.marksKept_edit`).
-/

namespace Needlework

open Relation

namespace Forest

variable {f f' : Forest} {a c d h n p r x : Handle}

/-- A node that is gone: it is destroyed, and linked to nothing. -/
structure Released (f : Forest) (h : Handle) : Prop where
  destroyed : (f.node h).destroyed = true
  parent : f.parent h = none
  children : f.children h = []

/-- No teardown fails. -/
def Sturdy (f : Forest) : Prop := ∀ h, (f.node h).teardown? = none

instance : DecidablePred Sturdy := fun f =>
  decidable_of_iff (∀ h < f.size, (f.node h).teardown? = none) (by
    refine ⟨fun inside h => ?_, fun sturdy h _ => sturdy h⟩
    by_cases known : h < f.size
    · exact inside h known
    · rw [node_of_size_le (Nat.le_of_not_lt known)]
      rfl)

/-- A forest whose nodes do not fail later does not fail now. -/
theorem Sturdy.of_originsKept (sturdy : f'.Sturdy) (kept : f.OriginsKept f') : f.Sturdy := by
  intro h
  by_cases known : h < f.size
  · rw [← (kept.same h known).teardown?]
    exact sturdy h
  · rw [node_of_size_le (Nat.le_of_not_lt known)]
    rfl

/-- What is left after a destruction does not fail either. -/
theorem Sturdy.destroyed (sturdy : f.Sturdy) (known : h < f.size) (kept : f.OriginsKept f')
    (others : ∀ x, ¬ f.Over h x → f'.node x = f.node x) : f'.Sturdy := by
  intro x
  by_cases hover : f.Over h x
  · have inside : x < f.size := by
      rcases over_iff.1 hover with rfl | ⟨q, hq, -⟩
      · exact known
      · exact lt_size_of_parent hq
    rw [(kept.same x inside).teardown?]
    exact sturdy x
  · rw [others x hover]
    exact sturdy x

theorem Released.of_node_eq (released : f.Released h) (same : f'.node h = f.node h) :
    f'.Released h := by
  obtain ⟨destroyed, parent, children⟩ := released
  rw [Forest.parent] at parent
  rw [Forest.children] at children
  rw [← same] at destroyed parent children
  exact ⟨destroyed, parent, children⟩

/-! ## Trees that stay -/

namespace WellFormed

/-- A node that is taken off its parent takes along what is below it, and nothing else. -/
theorem over_uproot_or (wf : f.WellFormed) (n : Handle) (h : f.Over a d) :
    (f.uproot n).Over a d ∨ (f.uproot n).Over n d := by
  induction h using ReflTransGen.head_induction_on with
  | refl => exact .inl (.refl _ a)
  | @head x q hp _ ih =>
      by_cases hx : x = n
      · subst hx
        exact .inr (.refl _ x)
      have hp' : (f.uproot n).parent x = some q := by
        rw [wf.parent_uproot, if_neg hx]
        exact hp
      rcases ih with ih | ih
      · exact .inl (ih.trans (.of_parent hp'))
      · exact .inr (ih.trans (.of_parent hp'))

/-- A tree whose nodes have not changed is the same tree. -/
theorem over_iff_of_node_eq (wf : f.WellFormed) (wf' : f'.WellFormed)
    (same : ∀ y, f.Over r y → f'.node y = f.node y) : f'.Over r x ↔ f.Over r x := by
  constructor
  · intro h
    induction h using ReflTransGen.head_induction_on with
    | refl => exact .refl f r
    | @head y q hp _ ih =>
        have listed : y ∈ f.children q := by
          rw [children, ← same q ih]
          exact (wf'.linked q y).1 hp
        exact ih.trans (.of_parent ((wf.linked q y).2 listed))
  · intro h
    induction h using ReflTransGen.head_induction_on with
    | refl => exact .refl f' r
    | @head y q hp above ih =>
        refine ih.trans (.of_parent ?_)
        have below : f.Over r y := Over.trans above (.of_parent hp)
        rw [parent, same y below]
        exact hp

/-- Nothing is below a node without children. -/
theorem eq_of_over_childless (wf : f.WellFormed) (leaf : f.children h = []) (hover : f.Over h x) :
    x = h := by
  rcases ReflTransGen.cases_tail hover with rfl | ⟨y, -, hy⟩
  · rfl
  · rw [wf.linked, leaf] at hy
    cases hy

end WellFormed

/-! ## One destruction -/

theorem Released.of_buried (gone : f'.node h = (f.node h).buried) : f'.Released h := by
  constructor
  · rw [gone]
    rfl
  · rw [Forest.parent, gone]
    rfl
  · rw [Forest.children, gone]
    rfl

namespace WellFormed

/-- When no teardown below a node without a parent fails, its destruction succeeds, releases
everything below it and leaves the rest alone. -/
theorem exists_destroy (wf : f.WellFormed) (top : f.parent h = none) (known : h < f.size)
    (sturdy : ∀ x, f.Over h x → (f.node x).teardown? = none) :
    ∃ f', (destroy h).run f = .ok () f' ∧ (∀ x, f.Over h x → f'.Released x)
      ∧ ∀ x, ¬ f.Over h x → f'.node x = f.node x := by
  obtain ⟨order, visits⟩ := (wf.shallow h).exists_visits .post
  have visited : ∀ {x}, x ∈ order ↔ f.Over h x := by
    intro x
    rw [visits.mem_iff, ← wf.below_iff_over]
    simp
  rw [← List.append_nil order] at visits
  obtain ⟨f', -, residue, razed⟩ := wf.exists_raze top known visits
    (fun y hy => sturdy y (visited.1 hy)) nofun
  have destroyed : (destroy h).run f = .ok () f' := by
    rw [wf.run_destroy, uproot_of_parent_none top, razed]
    rfl
  refine ⟨f', destroyed, fun x hx => .of_buried (residue.buried x (visited.2 hx)), fun x hx => ?_⟩
  rw [← after_of_ok destroyed]
  exact wf.node_destroy top hx

end WellFormed

/-! ## Edits that destroy nothing -/

end Forest

/-- An edit that destroys nothing. -/
def Edit.Spares : Edit → Prop
  | .remove _ _ andDestroy => andDestroy = false
  | .destroy _ => False
  | _ => True

instance : DecidablePred Edit.Spares
  | .remove _ _ andDestroy => inferInstanceAs (Decidable (andDestroy = false))
  | .destroy _ => inferInstanceAs (Decidable False)
  | .create _ | .append _ _ | .prepend _ _ | .insertBefore _ _ _ | .insertAfter _ _ _
  | .appendToLastText _ _ _ | .appendText _ _ | .setContent _ _ | .setFlag _ _ _ =>
      inferInstanceAs (Decidable True)

namespace Forest

/-- The same nodes are destroyed. -/
def MarksKept (f f' : Forest) : Prop := ∀ k, (f'.node k).destroyed = (f.node k).destroyed

namespace MarksKept

theorem refl (f : Forest) : MarksKept f f := fun _ => rfl

theorem trans {g : Forest} (h₁ : MarksKept f f') (h₂ : MarksKept f' g) : MarksKept f g :=
  fun k => (h₂ k).trans (h₁ k)

theorem update {change : Node → Node} (hc : ∀ m, (change m).destroyed = m.destroyed) :
    MarksKept f (f.update h change) := by
  intro k
  rw [node_update]
  split
  · exact hc _
  · rfl

theorem add (bp : Blueprint) : MarksKept f (f.add bp).2 := by
  intro k
  rw [node_add]
  split
  next hk => rw [hk, node_of_size_le (Nat.le_refl _)]; rfl
  next => rfl

theorem setChildren (p : Handle) (cs : List Handle) : MarksKept f (f.setChildren p cs) :=
  update fun _ => rfl

theorem setParent (c : Handle) (o : Option Handle) : MarksKept f (f.setParent c o) :=
  update fun _ => rfl

theorem unlink (p c : Handle) : MarksKept f (f.unlink p c) :=
  (setChildren p _).trans (setParent c none)

theorem link (p n : Handle) (cs : List Handle) : MarksKept f (f.link p n cs) :=
  (setChildren p cs).trans (setParent n _)

theorem uproot (n : Handle) : MarksKept f (f.uproot n) := by
  rw [Forest.uproot]
  cases f.parent n with
  | none => exact refl f
  | some p => exact unlink p n

theorem appendText (h : Handle) (t : Text) : MarksKept f (f.update h (Node.appendText t)) :=
  update fun m => by cases hm : m.form <;> simp [Node.appendText, hm]

theorem writes {t : Text} {origin : Option Int} (hw : f.Writes p t origin f') : MarksKept f f' := by
  cases hw with
  | last => exact appendText _ t
  | new => exact (add _).trans (link _ _ _)

end MarksKept

/-- An insertion inserts its node, or is refused before that. -/
theorem after_asChild_cases (n : Arg) (x : Handle → TreeM Unit) (f : Forest) :
    f.after (do let h ← n.asChild; x h; return h) = f
      ∨ ∃ h, n = .node h ∧ f.after (do let h ← n.asChild; x h; return h) = f.after (x h) := by
  cases n with
  | other v => exact .inl rfl
  | node h =>
      refine .inr ⟨h, rfl, ?_⟩
      show f.after (x h >>= fun _ => pure h) = _
      rw [after_bind, after]
      cases (x h).run f <;> rfl

namespace WellFormed

theorem marksKept_appendToLastText (wf : f.WellFormed) (hp : p < f.size) (t : Text)
    (origin : Option Int) : MarksKept f (f.after (appendToLastText p t origin)) := by
  by_cases ht : t = []
  · subst ht
    exact .refl f
  · obtain ⟨f', hrun, hw⟩ := wf.run_appendToLastText hp ht origin
    rw [after_of_ok hrun]
    exact .writes hw

theorem marksKept_removeChild (wf : f.WellFormed) {child : Arg} (fits : child.Fits f) :
    MarksKept f (f.after (removeChild p child false)) := by
  have taken : ∀ y : TreeM Handle, ((∃ e, y.run f = .error e f)
      ∨ ∃ c, f.parent c = some p ∧ y.run f = .ok c (f.unlink p c)) →
      MarksKept f (f.after (y >>= fun c => pure c)) := by
    rintro y (⟨e, he⟩ | ⟨c, -, hy⟩)
    · rw [after_bind, he]
      exact .refl f
    · rw [after_bind, hy]
      exact .unlink p c
  cases child with
  | node c =>
      refine taken (removeNode p c) ?_
      by_cases hp : f.parent c = some p
      · exact .inr ⟨c, hp, wf.run_removeNode hp⟩
      · exact .inl ⟨_, wf.run_removeNode_of_ne fits hp⟩
  | other v =>
      cases v with
      | int i => exact taken (removeAt p i) (wf.removeAt_cases p i)
      | _ => exact .refl f

/-- An edit that destroys nothing leaves the marks of destruction alone. -/
theorem marksKept_edit (wf : f.WellFormed) {e : Edit} (fits : e.Fits f) (spares : e.Spares) :
    MarksKept f (f.after e.run) := by
  have reference : ∀ {r : Arg}, r.Fits f → ∀ k, r = .node k → k < f.size := by
    rintro r hr k rfl
    exact hr
  have moved : ∀ p n cs, MarksKept f ((f.uproot n).link p n cs) := fun p n cs =>
    (MarksKept.uproot n).trans (.link p n cs)
  have inserted : ∀ (n : Arg) (x : Handle → TreeM Unit), (∀ h, MarksKept f (f.after (x h))) →
      MarksKept f (f.after (do let h ← n.asChild; x h; return h)) := by
    intro n x hx
    rcases after_asChild_cases n x f with same | ⟨h, -, same⟩
    · rw [same]
      exact .refl f
    · rw [same]
      exact hx h
  have beside : ∀ p n r shift, p < f.size → r.Fits f →
      MarksKept f (f.after (insertBeside p n r shift)) := by
    intro p n r shift hp hr
    rcases wf.insertBeside_cases hp n (reference hr) shift with ⟨e, he⟩ | ⟨-, _, _, -, -, -, -, hok⟩
    · rw [after_of_error he]
      exact .refl f
    · rw [after_of_ok hok]
      exact moved p n _
  cases e with
  | create bp =>
      show MarksKept f (f.after (create bp))
      rcases create_cases bp f with ⟨e, he⟩ | hr
      · rw [after_of_error he]
        exact .refl f
      · rw [after_of_ok hr]
        exact .add bp
  | append p n =>
      refine inserted n _ fun h => ?_
      rcases wf.append_cases fits.1 h with ⟨e, he⟩ | ⟨-, hok⟩
      · rw [after_of_error he]
        exact .refl f
      · rw [after_of_ok hok]
        exact moved p h _
  | prepend p n =>
      refine inserted n _ fun h => ?_
      rcases wf.prepend_cases fits.1 h with ⟨e, he⟩ | ⟨-, hok⟩
      · rw [after_of_error he]
        exact .refl f
      · rw [after_of_ok hok]
        exact moved p h _
  | insertBefore p n r => exact inserted n _ fun h => beside p h r 0 fits.1 fits.2.2
  | insertAfter p n r => exact inserted n _ fun h => beside p h r 1 fits.1 fits.2.2
  | remove p child andDestroy =>
      cases spares
      exact wf.marksKept_removeChild fits.2
  | destroy h => exact spares.elim
  | appendToLastText p t origin =>
      have wrote := wf.marksKept_appendToLastText fits t origin
      refine after_bind_of (fun e g hg => ?_) (fun r g hg => ?_)
      · rw [after_of_error hg] at wrote
        exact wrote
      · rw [after_of_ok hg] at wrote
        exact wrote
  | appendText h t => exact .appendText h t
  | setContent h t =>
      exact .update fun m => by cases hm : m.form <;> simp [Node.setContent, hm]
  | setFlag h name value =>
      exact .update fun m => by cases hm : m.form <;> simp [Node.setFlag, hm]

end WellFormed

end Forest

end Needlework
