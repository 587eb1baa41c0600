import Needlework.Proofs.Forest.Edits
import Needlework.Proofs.Forest.Validity

/-!
# Histories of edits

A forest that was made by edits from nothing is well-formed, whatever the edits were
and whether they succeeded or were refused.  An edit may name any node that exists at
that time (`Edit.Fits`), and anything that is no node.

One lemma for each edit says that it keeps a forest well-formed, and the history
follows by induction.  The check of a tree therefore never finds anything, at any
node (`wellFormed_history`).
-/

namespace Needlework

/-- An argument that is a node is in the table. -/
def Arg.Fits (f : Forest) : Arg → Prop
  | .node h => h < f.size
  | .other _ => True

/-- The nodes that an edit names are in the table. -/
def Edit.Fits (f : Forest) : Edit → Prop
  | .create _ => True
  | .append p n | .prepend p n => p < f.size ∧ n.Fits f
  | .insertBefore p n reference | .insertAfter p n reference =>
      p < f.size ∧ n.Fits f ∧ reference.Fits f
  | .remove p child _ => p < f.size ∧ child.Fits f
  | .appendToLastText p _ _ => p < f.size
  | .destroy h | .appendText h _ | .setContent h _ | .setFlag h _ _ => h < f.size

instance (f : Forest) : DecidablePred (Arg.Fits f)
  | .node h => inferInstanceAs (Decidable (h < f.size))
  | .other _ => inferInstanceAs (Decidable True)

instance (f : Forest) : DecidablePred (Edit.Fits f)
  | .create _ => inferInstanceAs (Decidable True)
  | .append p n | .prepend p n => inferInstanceAs (Decidable (p < f.size ∧ n.Fits f))
  | .insertBefore p n reference | .insertAfter p n reference =>
      inferInstanceAs (Decidable (p < f.size ∧ n.Fits f ∧ reference.Fits f))
  | .remove p child _ => inferInstanceAs (Decidable (p < f.size ∧ child.Fits f))
  | .appendToLastText p _ _ => inferInstanceAs (Decidable (p < f.size))
  | .destroy h | .appendText h _ | .setContent h _ | .setFlag h _ _ =>
      inferInstanceAs (Decidable (h < f.size))

namespace Forest

variable {f : Forest} {p : Handle}

/-- The forest after a sequence of edits, each of which may be refused. -/
def edited (f : Forest) : List Edit → Forest
  | [] => f
  | e :: es => (f.after e.run).edited es

/-- Every edit of a sequence names nodes that exist when its turn comes. -/
def Admits (f : Forest) : List Edit → Prop
  | [] => True
  | e :: es => e.Fits f ∧ (f.after e.run).Admits es

instance : (f : Forest) → DecidablePred f.Admits
  | _, [] => inferInstanceAs (Decidable True)
  | f, e :: es =>
      have := instDecidablePredListEditAdmits (f.after e.run) es
      inferInstanceAs (Decidable (e.Fits f ∧ (f.after e.run).Admits es))

/-! ## One edit -/

namespace WellFormed

/-- An insertion whose node may be no node at all. -/
theorem after_asChild (wf : f.WellFormed) {n : Arg} (hn : n.Fits f) {x : Handle → TreeM Unit}
    (hx : ∀ h, h < f.size → (f.after (x h)).WellFormed) :
    (f.after (do
      let h ← n.asChild
      x h
      return h)).WellFormed := by
  cases n with
  | other v => exact wf
  | node h =>
      have hxh := hx h hn
      refine after_bind_of (fun e g hg => ?_) (fun r g hg => ?_)
      · cases hg
      · cases hg
        refine after_bind_of (fun e g' hg' => ?_) (fun r' g' hg' => ?_)
        · rw [after_of_error hg'] at hxh
          exact hxh
        · rw [after_of_ok hg'] at hxh
          exact hxh

/-- Every edit keeps a forest well-formed, whether it succeeds or is refused. -/
theorem after_edit (wf : f.WellFormed) {e : Edit} (he : e.Fits f) :
    (f.after e.run).WellFormed := by
  have reference : ∀ {r : Arg}, r.Fits f → ∀ k, r = .node k → k < f.size := by
    rintro r hr k rfl
    exact hr
  cases e with
  | create bp => exact wf.after_create bp
  | append p n => exact wf.after_asChild he.2 fun h hh => wf.after_append he.1 hh
  | prepend p n => exact wf.after_asChild he.2 fun h hh => wf.after_prepend he.1 hh
  | insertBefore p n r =>
      exact wf.after_asChild he.2.1 fun h hh =>
        wf.after_insertBeside he.1 hh (reference he.2.2) (by omega)
  | insertAfter p n r =>
      exact wf.after_asChild he.2.1 fun h hh =>
        wf.after_insertBeside he.1 hh (reference he.2.2) (by omega)
  | remove p child andDestroy => exact wf.after_removeChild (reference he.2) p andDestroy
  | destroy h =>
      have hd := wf.after_destroy h
      refine after_bind_of (fun e g hg => ?_) (fun r g hg => ?_)
      · rw [after_of_error hg] at hd
        exact hd
      · rw [after_of_ok hg] at hd
        exact hd
  | appendToLastText p t origin =>
      have ht := wf.after_appendToLastText he t origin
      refine after_bind_of (fun e g hg => ?_) (fun r g hg => ?_)
      · rw [after_of_error hg] at ht
        exact ht
      · rw [after_of_ok hg] at ht
        exact ht
  | appendText h t => exact wf.appendText h t
  | setContent h t =>
      exact wf.update fun m => by cases hm : m.form <;> simp [Node.setContent, hm]
  | setFlag h name value =>
      exact wf.update fun m => by cases hm : m.form <;> simp [Node.setFlag, hm]

/-- Every sequence of edits keeps a forest well-formed. -/
theorem edited : ∀ (es : List Edit) {f : Forest}, f.WellFormed → f.Admits es →
    (f.edited es).WellFormed
  | [], _, wf, _ => wf
  | _ :: es, _, wf, h => edited es (wf.after_edit h.1) h.2

end WellFormed

/-! ## Forests made from nothing -/

/-- After any history of edits from an empty table, the records of all links agree, no
node is above itself, roots and destroyed nodes are in nobody's care, ids are
distinct, and the check finds nothing at any node. -/
theorem wellFormed_history (hf : f.size = 0) (es : List Edit) (hes : f.Admits es) :
    (∀ p c, (f.edited es).parent c = some p ↔ c ∈ (f.edited es).children p)
      ∧ (∀ p c, c ∈ (f.edited es).children p → ((f.edited es).children p).count c = 1
          ∧ ∀ q, c ∈ (f.edited es).children q → q = p)
      ∧ (∀ h, ¬ (f.edited es).ProperlyOver h h)
      ∧ (∀ h, ((f.edited es).node h).kind = rootKind ∨ ((f.edited es).node h).destroyed = true →
          (f.edited es).parent h = none ∧ ∀ p, h ∉ (f.edited es).children p)
      ∧ (∀ h k, h < (f.edited es).size → k < (f.edited es).size →
          (f.edited es).idOf h = (f.edited es).idOf k → h = k)
      ∧ ∀ h, h < (f.edited es).size → (f.edited es).violations h = [] := by
  have wf := WellFormed.edited es (.of_size_eq_zero hf) hes
  refine ⟨wf.linked, fun p c hc => ⟨List.count_eq_one_of_mem (wf.once p) hc, fun q hq => ?_⟩,
    wf.acyclic, fun h hh => ?_, wf.distinct, fun h hh => wf.violations_eq_nil hh⟩
  · rw [← wf.linked] at hc hq
    exact Option.some.inj (hq.symm.trans hc)
  · have hp : (f.edited es).parent h = none := by
      rcases hh with hk | hd
      · exact wf.rootFree h hk
      · exact wf.destroyedFree h hd
    exact ⟨hp, fun p => wf.not_mem_of_parent_none hp⟩

/-- A history with a refused move below itself and a teardown that fails half-way. -/
def fragileHistory : List Edit :=
  [.create .root, .create (.plain none),
   .create { typeName := "Element", kind := 40
             form := .custom { teardown := some (.raised .interrupt [] []) } },
   .create (.text [97] (some 0)),
   .append 0 (.node 1), .append 1 (.node 2), .prepend 2 (.node 3), .append 2 (.node 0),
   .append 2 (.node 1), .insertBefore 0 (.node 3) (.node 1), .destroy 1, .append 3 (.node 2)]

theorem wellFormed_fragileHistory :
    size {} = 0 ∧ Admits {} fragileHistory ∧ (edited {} fragileHistory).parent 2 = some 3
      ∧ ((edited {} fragileHistory).node 2).destroyed = false
      ∧ (edited {} fragileHistory).violations 0 = [] := by
  have hes : Admits {} fragileHistory := by decide
  have checked := (wellFormed_history rfl fragileHistory hes).2.2.2.2.2
  exact ⟨rfl, hes, by decide, by decide, checked 0 (by decide)⟩

end Forest

end Needlework
