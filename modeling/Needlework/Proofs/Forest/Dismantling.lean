import Needlework.Proofs.Forest.Orders
import Needlework.Proofs.Forest.Origins
import Needlework.Proofs.Forest.Twins

/-!
# Dismantling

A destruction works off a stack of pending nodes, the innermost on top.  The list of the nodes that
it has still to tear down is known from the start: it is the postorder of the pending nodes.  Taking
the first child of the node on top puts its postorder in front of what is left of the parent's,
which changes nothing about the whole, and a teardown takes the head off the list.

So the loop tears down the nodes of the postorder up to the first whose teardown fails
(`Stacked.exists_dismantle`).  It fails with the fault of that node, or comes to its end if there is
none.

*What is left.*  A node has been *unlinked* when it was torn down or when the loop has gone down
through it to the node that failed.  `Residue` gives every node afterwards.  What was torn down is
buried, what was unlinked has no parent, and nobody lists what was unlinked.
-/

namespace Needlework

open Relation

/-- A form without content.  Other nodes than texts have none. -/
def Form.emptied : Form → Form
  | .text _ _ => .text [] []
  | form => form

/-- A node after its teardown: destroyed, linked to nothing, and empty. -/
def Node.buried (m : Node) : Node :=
  { m with form := m.form.emptied, parent := none, children := [], destroyed := true }

/-- A text is empty after its teardown. -/
theorem Node.empty_buried {m : Node} (text : m.isText = true) :
    m.buried.content? = some [] ∧ m.buried.flags = [] := by
  cases hm : m.form with
  | text b fs => simp [buried, Form.emptied, content?, flags, hm]
  | plain | root | custom => simp [isText, hm] at text

namespace Forest

variable {f f' g : Forest} {c h n p x y : Handle} {pending done left : List Handle} {steps : Nat}
  {stuck : Option Handle}

/-! ## One teardown -/

/-- A teardown that does not fail buries a node that is linked to nothing. -/
theorem exists_tearDown (known : h < f.size) (sturdy : (f.node h).teardown? = none)
    (top : f.parent h = none) (leaf : f.children h = []) :
    ∃ g, (tearDown h).run f = .ok () g ∧ g.torn = h :: f.torn
      ∧ ∀ k, g.node k = if k = h then (f.node h).buried else f.node k := by
  rw [parent] at top
  rw [children] at leaf
  have buried : ∀ form, form = (f.node h).form.emptied →
      { f.node h with form := form, destroyed := true } = (f.node h).buried := by
    rintro _ rfl
    rw [Node.buried, ← top, ← leaf]
  have marked : ∀ form, form = (f.node h).form.emptied → ∀ (g : Forest), g.size = f.size →
      (∀ k, g.node k = if k = h then { f.node h with form := form } else f.node k) → ∀ k,
      (g.update h fun n => { n with destroyed := true }).node k
        = if k = h then (f.node h).buried else f.node k := by
    intro form hform g size node k
    rw [node_update, node]
    by_cases hk : k = h
    · simp only [hk, size, known, and_self, if_true]
      exact buried form hform
    · simp only [hk, false_and, if_false]
  have recorded : ∀ k, node { f with torn := h :: f.torn } k
      = if k = h then { f.node h with form := (f.node h).form } else f.node k := by
    intro k
    split
    next hk =>
      rw [hk]
      rfl
    next => rfl
  rw [tearDown, EStateM.run_bind, EStateM.run_modify]
  dsimp only
  rw [EStateM.run_bind, EStateM.run_get]
  dsimp only
  rw [show (node { f with torn := h :: f.torn } h).form = (f.node h).form from rfl]
  cases hform : (f.node h).form with
  | plain => exact ⟨_, rfl, rfl, marked _ (by rw [hform]; rfl) _ rfl recorded⟩
  | root => exact ⟨_, rfl, rfl, marked _ (by rw [hform]; rfl) _ rfl recorded⟩
  | text b fs =>
      refine ⟨_, rfl, rfl, marked (.text [] []) (by rw [hform]; rfl) _ (size_update ..) fun k => ?_⟩
      rw [node_update]
      by_cases hk : k = h
      · simp only [hk, if_true, true_and, if_pos (show h < size { f with torn := h :: f.torn } from known)]
        rfl
      · simp only [hk, false_and, if_false]
        rfl
  | custom t =>
      have sound : t.teardown = none := by
        rw [← sturdy, Node.teardown?, hform]
        rfl
      dsimp only
      rw [sound]
      exact ⟨_, rfl, rfl, marked _ (by rw [hform]; rfl) _ rfl recorded⟩

/-- A teardown that fails puts the node on record and does nothing else. -/
theorem run_tearDown_of_failing {fault : Fault} (failing : (f.node h).teardown? = some fault) :
    (tearDown h).run f = .error fault { f with torn := h :: f.torn } := by
  rw [tearDown, EStateM.run_bind, EStateM.run_modify]
  dsimp only
  rw [EStateM.run_bind, EStateM.run_get]
  dsimp only
  rw [show (node { f with torn := h :: f.torn } h).form = (f.node h).form from rfl]
  cases hform : (f.node h).form with
  | custom t =>
      have broken : t.teardown = some fault := by
        rw [← failing, Node.teardown?, hform]
        rfl
      dsimp only
      rw [broken]
      rfl
  | plain | root | text =>
      rw [Node.teardown?, hform] at failing
      cases failing

/-! ## The stack -/

/-- Pending nodes: they are off their parents, and none is pending twice. -/
structure Stacked (f : Forest) (pending : List Handle) : Prop where
  wellFormed : f.WellFormed
  free : ∀ k ∈ pending, f.parent k = none
  known : ∀ k ∈ pending, k < f.size
  nodup : pending.Nodup

namespace Stacked

theorem single (wf : f.WellFormed) (top : f.parent h = none) (known : h < f.size) :
    f.Stacked [h] where
  wellFormed := wf
  free k hk := by rw [List.mem_singleton.1 hk, top]
  known k hk := by rwa [List.mem_singleton.1 hk]
  nodup := List.nodup_singleton h

/-- No visit of the walk from the pending nodes is made twice. -/
theorem nodup_visits (stacked : f.Stacked pending) {l : List Handle}
    (visits : f.Visits .post pending l) : l.Nodup := by
  refine visits.nodup stacked.wellFormed (stacked.nodup.imp_of_mem fun {a b} ha hb ne x hax hbx => ne ?_)
  rcases hax.total hbx with above | above
  · exact above.eq_of_parent_none (stacked.free b hb)
  · exact (above.eq_of_parent_none (stacked.free a ha)).symm

/-- After the teardown of the node on top the others are still pending. -/
theorem torn (stacked : f.Stacked (h :: pending)) (ended : (tearDown h).run f = .ok () g) :
    g.Stacked pending := by
  obtain ⟨links, -⟩ := after_tearDown f h
  have wg := stacked.wellFormed.of_tearDown (stacked.free h List.mem_cons_self)
  rw [after_of_ok ended] at links wg
  refine ⟨wg, fun k hk => ?_, fun k hk => ?_, (List.nodup_cons.1 stacked.nodup).2⟩
  · rw [links.parent]
    exact stacked.free k (List.mem_cons_of_mem h hk)
  · rw [links.size]
    exact stacked.known k (List.mem_cons_of_mem h hk)

/-- A child of the node on top that is taken off it becomes pending. -/
theorem removed (stacked : f.Stacked (h :: pending)) (hp : f.parent c = some h) :
    (f.uproot c).Stacked (c :: h :: pending) := by
  have wf := stacked.wellFormed
  refine ⟨wf.uproot c, fun k hk => ?_, fun k hk => ?_, List.nodup_cons.2 ⟨fun hc => ?_, stacked.nodup⟩⟩
  · rw [wf.parent_uproot]
    split
    next => rfl
    next ne => exact stacked.free k ((List.mem_cons.1 hk).resolve_left ne)
  · rw [size_uproot]
    rcases List.mem_cons.1 hk with rfl | hk
    · exact lt_size_of_parent hp
    · exact stacked.known k hk
  · rw [stacked.free c hc] at hp
    cases hp

end Stacked

/-! ## Taking a child off -/

/-- A node that is taken off its parent changes no teardown. -/
theorem WellFormed.teardown?_uproot (wf : f.WellFormed) (n k : Handle) :
    ((f.uproot n).node k).teardown? = (f.node k).teardown? := by
  rw [wf.node_uproot]
  rfl

theorem WellFormed.buried_uproot (wf : f.WellFormed) (n k : Handle) :
    ((f.uproot n).node k).buried = (f.node k).buried := by
  rw [wf.node_uproot]
  rfl

/-- Only its parent loses a child. -/
theorem WellFormed.children_uproot_of_ne (wf : f.WellFormed) (hp : f.parent c = some h)
    (ne : y ≠ h) : (f.uproot c).children y = f.children y := by
  rw [children, wf.node_uproot]
  refine List.erase_of_not_mem fun hc => ?_
  rw [← wf.linked, hp] at hc
  exact ne (Option.some.inj hc).symm

/-- The parent of a first child keeps the others. -/
theorem WellFormed.children_uproot_first (wf : f.WellFormed) {cs : List Handle}
    (hcs : f.children h = c :: cs) : (f.uproot c).children h = cs := by
  rw [children, wf.node_uproot, hcs]
  exact List.erase_cons_head ..

namespace Stacked

/-- The walk from the pending nodes stays the same when the first child of the node on top becomes
pending itself. -/
theorem visits_uproot (stacked : f.Stacked (h :: pending)) {cs l : List Handle}
    (hcs : f.children h = c :: cs) (visits : f.Visits .post (h :: pending) l) :
    (f.uproot c).Visits .post (c :: h :: pending) l := by
  have wf := stacked.wellFormed
  have top := stacked.free h List.mem_cons_self
  have hp : f.parent c = some h := (wf.linked h c).2 (by rw [hcs]; exact List.mem_cons_self)
  -- Only the node on top loses a child, and no walk that starts elsewhere comes to it.
  have elsewhere : ∀ {ks m : List Handle}, f.Visits .post ks m → (∀ k ∈ ks, k ≠ h) →
      (f.uproot c).Visits .post ks m := by
    intro ks m walk other
    refine walk.congr fun x hx => wf.children_uproot_of_ne hp fun same => ?_
    obtain ⟨k, hk, below⟩ := walk.mem_iff.1 (same ▸ hx)
    exact other k hk ((wf.below_iff_over.1 below).eq_of_parent_none top)
  have listed : ∀ q, ∀ k ∈ f.children q, k ≠ h := by
    rintro q k hk rfl
    exact wf.not_mem_of_parent_none top hk
  cases visits with
  | @cons _ _ below rest here others =>
      have hk := listed h
      rw [hcs] at here hk
      cases here with
      | @cons _ _ first siblings inner beside =>
          have first' : (f.uproot c).Visits .post ((f.uproot c).children c) first := by
            rw [wf.children_uproot_of_ne hp (hk c List.mem_cons_self)]
            exact elsewhere inner (listed c)
          have beside' : (f.uproot c).Visits .post ((f.uproot c).children h) siblings := by
            rw [wf.children_uproot_first hcs]
            exact elsewhere beside fun k hm => hk k (List.mem_cons_of_mem c hm)
          have others' := elsewhere others fun k hm same =>
            (List.nodup_cons.1 stacked.nodup).1 (same ▸ hm)
          have walked := Visits.cons first' (.cons beside' others')
          simpa [WalkOrder.put] using walked

end Stacked

/-! ## What is left -/

/-- A node has been unlinked: it was torn down, or the loop has gone down through it to the node
that failed. -/
def Unlinked (f : Forest) (done : List Handle) (stuck : Option Handle) (y : Handle) : Prop :=
  y ∈ done ∨ ∃ x ∈ stuck, f.Over y x

/-- What is left of a forest after the teardowns of some nodes, and of a last one that failed if
there is one.  Nodes that were not torn down may have lost their links, and children from the
left. -/
structure Residue (f f' : Forest) (done : List Handle) (stuck : Option Handle) : Prop where
  torn : f'.torn = stuck.toList ++ done.reverse ++ f.torn
  buried : ∀ y ∈ done, f'.node y = (f.node y).buried
  node : ∀ y ∉ done, f'.node y
    = { f.node y with parent := f'.parent y, children := f'.children y }
  free : ∀ y, f.Unlinked done stuck y → f'.parent y = none
  kept : ∀ y, ¬ f.Unlinked done stuck y → f'.parent y = f.parent y
  suffix : ∀ y ∉ done, f'.children y <:+ f.children y

/-- Nothing has happened yet. -/
theorem Residue.refl (f : Forest) : Residue f f [] none where
  torn := rfl
  buried _ hy := nomatch hy
  node _ _ := rfl
  free _ hy := by simp [Unlinked] at hy
  kept _ _ := rfl
  suffix _ _ := List.suffix_rfl

namespace Stacked

/-- The loop has done nothing yet when it fails at the node on top. -/
theorem residue_of_failing (stacked : f.Stacked (h :: pending)) :
    Residue f { f with torn := h :: f.torn } [] (some h) where
  torn := rfl
  buried _ hy := nomatch hy
  node _ _ := rfl
  free y hy := by
    rcases hy with hy | ⟨x, hx, hover⟩
    · cases hy
    · cases hx
      have top := stacked.free h List.mem_cons_self
      rw [hover.eq_of_parent_none top]
      exact top
  kept _ _ := rfl
  suffix _ _ := List.suffix_rfl

/-- A node on top that was torn down is one more. -/
theorem residue_of_torn (stacked : f.Stacked (h :: pending)) (leaf : f.children h = [])
    (ended : (tearDown h).run f = .ok () g) (torn : g.torn = h :: f.torn)
    (node : ∀ k, g.node k = if k = h then (f.node h).buried else f.node k) (other : h ∉ done)
    (residue : Residue g f' done stuck) : Residue f f' (h :: done) stuck := by
  have top := stacked.free h List.mem_cons_self
  obtain ⟨links, -⟩ := after_tearDown f h
  rw [after_of_ok ended] at links
  have hover : ∀ {a d}, g.Over a d ↔ f.Over a d :=
    ⟨.of_parent_eq fun k _ => (links.parent k).symm, .of_parent_eq fun k _ => links.parent k⟩
  have unlinked : ∀ {y}, f.Unlinked (h :: done) stuck y ↔ y = h ∨ g.Unlinked done stuck y := by
    intro y
    simp only [Unlinked, List.mem_cons, hover, or_assoc]
  have free : f'.parent h = none := by
    by_cases gone : g.Unlinked done stuck h
    · exact residue.free h gone
    · rw [residue.kept h gone, links.parent, top]
  have childless : f'.children h = [] := by
    have shorter := residue.suffix h other
    rw [links.children, leaf] at shorter
    exact List.suffix_nil.1 shorter
  refine ⟨?_, fun y hy => ?_, fun y hy => ?_, fun y hy => ?_, fun y hy => ?_, fun y hy => ?_⟩
  · rw [residue.torn, torn]
    simp
  · by_cases ne : y = h
    · rw [ne, residue.node h other, node, if_pos rfl, free, childless]
      rfl
    · rw [residue.buried y ((List.mem_cons.1 hy).resolve_left ne), node, if_neg ne]
  · obtain ⟨ne, hy⟩ := not_or.1 (List.mem_cons.not.1 hy)
    rw [residue.node y hy, node, if_neg ne]
  · rcases unlinked.1 hy with rfl | hy
    · exact free
    · exact residue.free y hy
  · rw [residue.kept y fun gone => hy (unlinked.2 (.inr gone)), links.parent]
  · rw [← links.children]
    exact residue.suffix y fun hm => hy (List.mem_cons_of_mem h hm)

/-- A first child that was taken off the node on top is unlinked in the end. -/
theorem residue_of_removed (stacked : f.Stacked (h :: pending)) {cs : List Handle}
    (hcs : f.children h = c :: cs) (reached : (f.uproot c).Unlinked done stuck c)
    (residue : Residue (f.uproot c) f' done stuck) : Residue f f' done stuck := by
  have wf := stacked.wellFormed
  have top := stacked.free h List.mem_cons_self
  have hp : f.parent c = some h := (wf.linked h c).2 (by rw [hcs]; exact List.mem_cons_self)
  have node := wf.node_uproot c
  have weaker : ∀ y, (f.uproot c).Unlinked done stuck y → f.Unlinked done stuck y := by
    rintro y (hy | ⟨x, hx, hover⟩)
    · exact .inl hy
    · exact .inr ⟨x, hx, wf.over_of_over_uproot hover⟩
  refine ⟨?_, fun y hy => ?_, fun y hy => ?_, fun y hy => ?_, fun y hy => ?_, fun y hy => ?_⟩
  · rw [residue.torn, torn_uproot]
  · rw [residue.buried y hy, wf.buried_uproot]
  · rw [residue.node y hy, node]
  · by_cases gone : (f.uproot c).Unlinked done stuck y
    · exact residue.free y gone
    · have onTop : y = h := by
        by_contra ne
        refine gone (hy.imp_right ?_)
        rintro ⟨x, hx, hover⟩
        refine ⟨x, hx, (wf.over_uproot_iff fun q hq above => ne ?_).2 hover⟩
        rw [hp] at hq
        cases hq
        exact above.eq_of_parent_none top
      rw [residue.kept y gone, onTop, wf.parent_uproot, top, ite_self]
  · have other : y ≠ c := by
      rintro rfl
      exact hy (weaker y reached)
    rw [residue.kept y fun gone => hy (weaker y gone), wf.parent_uproot, if_neg other]
  · refine (residue.suffix y hy).trans ?_
    by_cases onTop : y = h
    · rw [onTop, wf.children_uproot_first hcs, hcs]
      exact List.suffix_cons c cs
    · rw [wf.children_uproot_of_ne hp onTop]

end Stacked

/-! ## The loop -/

/-- The fault of the node at which a loop has stopped, if it has. -/
def stopper (f : Forest) (stuck : Option Handle) : Option Fault :=
  stuck.bind fun x => (f.node x).teardown?

theorem stopper_congr (same : ∀ x ∈ stuck, (g.node x).teardown? = (f.node x).teardown?) :
    g.stopper stuck = f.stopper stuck := by
  cases stuck with
  | none => rfl
  | some x => exact same x rfl

/-- The end of a loop that tears down nodes: the fault that has stopped it, if there is one. -/
def ending (f' : Forest) : Option Fault → EStateM.Result Fault Forest Unit
  | none => .ok () f'
  | some fault => .error fault f'

namespace Stacked

/-- The loop goes down through the node on top, or tears it down. -/
theorem unlinked_top (stacked : f.Stacked (c :: pending))
    (visits : f.Visits .post (c :: pending) (done ++ left)) :
    f.Unlinked done left.head? c := by
  have wf := stacked.wellFormed
  cases left with
  | nil =>
      rw [List.append_nil] at visits
      exact .inl (visits.mem_iff.2 ⟨c, List.mem_cons_self, .refl⟩)
  | cons x left =>
      by_cases torn : c ∈ done
      · exact .inl torn
      refine .inr ⟨x, rfl, ?_⟩
      generalize hl : done ++ x :: left = l at visits
      cases visits with
      | @cons _ _ below rest here others =>
          rw [WalkOrder.put, List.append_assoc, List.singleton_append] at hl
          refine wf.below_iff_over.1 (below_iff.2 ?_)
          exact (eq_or_mem_of_append_cons_eq hl torn).imp_right here.mem_iff.1

end Stacked

/-- A step at a leaf is its teardown. -/
theorem run_dismantle_leaf (leaf : f.children h = []) : (dismantle (steps + 1) (h :: pending)).run f
    = (tearDown h >>= fun _ => dismantle steps pending).run f := by
  rw [dismantle, EStateM.run_bind, EStateM.run_get]
  dsimp only
  rw [leaf, List.isEmpty_nil, if_pos rfl]

/-- A step at a node with children takes the first one off and puts it on top. -/
theorem WellFormed.run_dismantle_child (wf : f.WellFormed) {cs : List Handle}
    (hcs : f.children h = c :: cs) (steps : Nat) (pending : List Handle) :
    (f.uproot c).links < f.links
      ∧ (dismantle (steps + 1) (h :: pending)).run f
        = (dismantle steps (c :: h :: pending)).run (f.uproot c) := by
  have first : (f.children h)[0]? = some c := by
    rw [hcs]
    rfl
  have removed : (removeAt h 0).run f = .ok c (f.uproot c) := by
    rw [Forest.uproot, (wf.linked h c).2 (List.mem_of_getElem? first)]
    exact wf.run_removeAt first
  refine ⟨links_removeAt removed, ?_⟩
  rw [dismantle, EStateM.run_bind, EStateM.run_get]
  dsimp only
  rw [hcs, List.isEmpty_cons, if_neg Bool.false_ne_true, EStateM.run_bind, removed]

namespace Stacked

/-- The teardown of a leaf on top takes it off the list. -/
theorem exists_torn (stacked : f.Stacked (h :: pending)) {rest : List Handle}
    (visits : f.Visits .post (h :: pending) (h :: rest)) (leaf : f.children h = [])
    (sturdy : (f.node h).teardown? = none) :
    ∃ g, (tearDown h).run f = .ok () g ∧ g.Stacked pending ∧ g.Visits .post pending rest
      ∧ g.links = f.links ∧ (∀ y ∈ rest, g.node y = f.node y)
      ∧ ∀ {f' : Forest} {done : List Handle} {stuck : Option Handle}, done ⊆ rest →
        Residue g f' done stuck → Residue f f' (h :: done) stuck := by
  obtain ⟨other, -⟩ := List.nodup_cons.1 (stacked.nodup_visits visits)
  obtain ⟨g, ended, torn, node⟩ := exists_tearDown (stacked.known h List.mem_cons_self) sturdy
    (stacked.free h List.mem_cons_self) leaf
  obtain ⟨links, -⟩ := after_tearDown f h
  rw [after_of_ok ended] at links
  obtain ⟨_, same, others⟩ := visits.of_leaf leaf
  obtain ⟨-, rfl⟩ := List.cons.inj same
  refine ⟨g, ended, stacked.torn ended, others.congr fun y _ => links.children y, links.links,
    fun y hy => ?_, fun inside => stacked.residue_of_torn leaf ended torn node fun hd =>
      other (inside hd)⟩
  rw [node, if_neg]
  rintro rfl
  exact other hy

/-- With enough steps the loop tears down the postorder of the pending nodes up to the first node
whose teardown fails, and then fails with the fault of that node.  It succeeds if there is none. -/
theorem exists_dismantle (stacked : f.Stacked pending) (visits : f.Visits .post pending (done ++ left))
    (sturdy : ∀ y ∈ done, (f.node y).teardown? = none)
    (failing : ∀ x ∈ left.head?, (f.node x).teardown? ≠ none)
    (enough : 2 * f.links + pending.length ≤ steps) :
    ∃ f', Residue f f' done left.head?
      ∧ (dismantle steps pending).run f = ending f' (f.stopper left.head?) := by
  induction steps generalizing f pending done with
  | zero =>
      cases pending with
      | nil =>
          obtain ⟨rfl, rfl⟩ := List.append_eq_nil_iff.1 visits.eq_nil
          exact ⟨f, .refl f, rfl⟩
      | cons h pending => simp at enough
  | succ steps ih =>
      cases pending with
      | nil =>
          obtain ⟨rfl, rfl⟩ := List.append_eq_nil_iff.1 visits.eq_nil
          exact ⟨f, .refl f, rfl⟩
      | cons h pending =>
          rw [List.length_cons] at enough
          cases hcs : f.children h with
          | nil =>
              obtain ⟨rest, hl, -⟩ := visits.of_leaf hcs
              rw [run_dismantle_leaf hcs, EStateM.run_bind]
              cases done with
              | nil =>
                  obtain rfl : left = h :: rest := hl
                  obtain ⟨fault, raised⟩ := Option.ne_none_iff_exists'.mp (failing h rfl)
                  have stopped : f.stopper (h :: rest).head? = some fault := raised
                  rw [run_tearDown_of_failing raised, stopped]
                  exact ⟨_, stacked.residue_of_failing, rfl⟩
              | cons d done =>
                  obtain ⟨rfl, -⟩ := List.cons.inj hl
                  obtain ⟨g, ended, stacked', visits', entries, same, residue_of⟩ :=
                    stacked.exists_torn visits hcs (sturdy d List.mem_cons_self)
                  have sameHead : ∀ x ∈ left.head?, g.node x = f.node x := fun x hx =>
                    same x (List.mem_append_right done (List.mem_of_head? hx))
                  have sturdy' : ∀ y ∈ done, (g.node y).teardown? = none := by
                    intro y hy
                    rw [same y (List.mem_append_left left hy)]
                    exact sturdy y (List.mem_cons_of_mem d hy)
                  have failing' : ∀ x ∈ left.head?, (g.node x).teardown? ≠ none := by
                    intro x hx
                    rw [sameHead x hx]
                    exact failing x hx
                  obtain ⟨f', residue, run⟩ := ih stacked' visits' sturdy' failing' (by omega)
                  rw [ended]
                  refine ⟨f', residue_of (List.subset_append_left done left) residue, run.trans ?_⟩
                  have stops : g.stopper left.head? = f.stopper left.head? :=
                    stopper_congr fun x hx => congrArg Node.teardown? (sameHead x hx)
                  rw [stops]
          | cons c cs =>
              have wf := stacked.wellFormed
              have hp : f.parent c = some h := (wf.linked h c).2 (by rw [hcs]; exact List.mem_cons_self)
              obtain ⟨fewer, step⟩ := wf.run_dismantle_child hcs steps pending
              have stacked' := stacked.removed hp
              have visits' := stacked.visits_uproot hcs visits
              have kept := wf.teardown?_uproot c
              obtain ⟨f', residue, run⟩ := ih stacked' visits'
                (fun y hy => (kept y).trans (sturdy y hy)) (fun x hx => by rw [kept]; exact failing x hx)
                (by simp only [List.length_cons]; omega)
              refine ⟨f', stacked.residue_of_removed hcs (stacked'.unlinked_top visits') residue, ?_⟩
              rw [step, run, stopper_congr fun x _ => kept x]

end Stacked

namespace WellFormed

/-- A node that is destroyed is taken off its parent, and then the loop starts from it. -/
theorem run_destroy (wf : f.WellFormed) (h : Handle) :
    (destroy h).run f = (raze h).run (f.uproot h) := by
  rw [destroy, EStateM.run_bind, EStateM.run_get]
  dsimp only
  rw [Forest.uproot]
  cases hp : f.parent h with
  | none => rfl
  | some p =>
      dsimp only
      rw [EStateM.run_bind, wf.run_removeNode hp]

/-- The destruction of a node without a parent has steps enough. -/
theorem exists_raze (wf : f.WellFormed) (top : f.parent h = none) (known : h < f.size)
    (visits : f.Visits .post [h] (done ++ left)) (sturdy : ∀ y ∈ done, (f.node y).teardown? = none)
    (failing : ∀ x ∈ left.head?, (f.node x).teardown? ≠ none) :
    ∃ f', f'.WellFormed ∧ Residue f f' done left.head?
      ∧ (raze h).run f = ending f' (f.stopper left.head?) := by
  have enough : 2 * f.links + [h].length ≤ 2 * f.links + 1 := by simp
  obtain ⟨f', residue, run⟩ :=
    (Stacked.single wf top known).exists_dismantle visits sturdy failing enough
  have razed : (raze h).run f = ending f' (f.stopper left.head?) := by
    rw [raze, EStateM.run_bind, EStateM.run_get]
    exact run
  refine ⟨f', ?_, residue, razed⟩
  have after : f.after (raze h) = f' := by
    rw [Forest.after, razed]
    cases f.stopper left.head? <;> rfl
  rw [← after]
  exact (wf.after_raze top).1

end WellFormed

namespace Residue

variable (residue : Residue f f' done stuck)

include residue

/-- A node that was not torn down keeps its children if none of them was unlinked. -/
theorem children_eq (wf : f.WellFormed) (wf' : f'.WellFormed) (hy : y ∉ done)
    (kept : ∀ c ∈ f.children y, ¬ f.Unlinked done stuck c) : f'.children y = f.children y := by
  obtain ⟨gone, split⟩ := residue.suffix y hy
  have none : gone = [] := by
    refine List.eq_nil_iff_forall_not_mem.2 fun c hc => ?_
    have member : c ∈ f.children y := by
      rw [← split]
      exact List.mem_append_left _ hc
    have stays : c ∈ f'.children y := by
      rw [← wf'.linked, residue.kept c (kept c member)]
      exact (wf.linked y c).2 member
    have once := wf.once y
    rw [← split] at once
    exact (List.nodup_append.1 once).2.2 c hc c stays rfl
  rw [← split, none, List.nil_append]

/-- A node has not changed if neither it nor any of its children was unlinked. -/
theorem node_eq (wf : f.WellFormed) (wf' : f'.WellFormed) (kept : ¬ f.Unlinked done stuck y)
    (children : ∀ c ∈ f.children y, ¬ f.Unlinked done stuck c) : f'.node y = f.node y := by
  have hy : y ∉ done := fun torn => kept (.inl torn)
  rw [residue.node y hy, residue.kept y kept, residue.children_eq wf wf' hy children]
  rfl

end Residue

end Forest

end Needlework
