import Needlework.Bold
import Needlework.Proofs.Engine.Changes
import Needlework.Proofs.Engine.Quiet

/-!
# Recovery goes back

A recovery undoes what was done since its construct was opened.  The stack and the tree
are as they were just before the node was pushed, but for the one code point that is
kept as text.  The node is put aside together with everything below it.

*Frames.*  Between the push and the recovery a grammar may open and close other
constructs, write text and recover from inner constructs.  None of this reaches what was
there before the push (`Frame`).  The nodes that were there are unchanged, but for the
node itself at the end of its parent's children.  The stack has grown above the node
only.  Every step that leaves the node open keeps the frame (`Frame.change`).

*What was there.*  A node counts as being there if something holds it: a parent, a child,
the stack or the nodes put aside.  A node that has been created and not yet used is
`Fresh`, and may be built into the construct later.

*The switch.*  A recovery switches the status before it keeps the code point.  The grammar
is expected to publish needles then and nothing else (`Moment.Quiet`).  What it opens or
writes then is not taken back.
-/

namespace Needlework

namespace Engine

open Act

variable {σ : Type} {b u v w w' : World σ} {top x : Handle}

/-! ## What was there -/

/-- A node that something holds. -/
def Old (b : World σ) (k : Handle) : Prop := k < b.forest.size ∧ ¬ Fresh b k

theorem old_of_mem_stack (tidy : Tidy b) {k : Handle} (hk : k ∈ b.engine.stack) : Old b k :=
  ⟨tidy.known k hk, fun fresh => fresh.notOpen hk⟩

theorem old_of_parent {k p : Handle} (hp : b.forest.parent k = some p) : Old b k := by
  refine ⟨Forest.lt_size_of_parent hp, fun fresh => ?_⟩
  rw [fresh.parent] at hp
  cases hp

theorem old_of_mem_children {k c : Handle} (hc : c ∈ b.forest.children k) : Old b k := by
  refine ⟨Forest.lt_size_of_mem_children hc, fun fresh => ?_⟩
  rw [fresh.children] at hc
  cases hc

/-- A fresh node is about to be opened below the innermost open node. -/
structure Opening (b : World σ) (top x : Handle) : Prop where
  tidy : Tidy b
  fresh : Fresh b x
  head : b.engine.stack.head? = some top

namespace Opening

theorem old_top (opening : Opening b top x) : Old b top :=
  old_of_mem_stack opening.tidy (List.mem_of_head? opening.head)

theorem not_old (opening : Opening b top x) : ¬ Old b x := fun old => old.2 opening.fresh

theorem old_of_mem_top (opening : Opening b top x) {k : Handle} (hk : k ∈ b.forest.children top) :
    Old b k :=
  old_of_parent ((opening.tidy.wellFormed.linked top k).2 hk)

end Opening

/-! ## Frames -/

/-- What was there is as it was, and the node is open on top of it. -/
structure Frame (b : World σ) (top x : Handle) (w : World σ) : Prop where
  tidy : Tidy w
  size : b.forest.size ≤ w.forest.size
  old : ∀ k, Old b k → w.forest.node k = { b.forest.node k with
    children := if k = top then b.forest.children k ++ [x] else b.forest.children k }
  stack : ∃ front, w.engine.stack = front ++ x :: b.engine.stack ∧ ∀ h ∈ front, ¬ Old b h ∧ h ≠ x
  detached : ∀ h ∈ b.engine.detached, h ∈ w.engine.detached
  origin : (w.forest.node x).origin = (b.forest.node x).origin

namespace Frame

theorem parent_old (frame : Frame b top x w) {k : Handle} (hk : Old b k) :
    w.forest.parent k = b.forest.parent k := by
  rw [Forest.parent, frame.old k hk]
  rfl

theorem children_old (frame : Frame b top x w) {k : Handle} (hk : Old b k) :
    w.forest.children k
      = if k = top then b.forest.children k ++ [x] else b.forest.children k := by
  rw [Forest.children, frame.old k hk]

/-- What was there is not below anything new. -/
theorem not_old_child (opening : Opening b top x) (frame : Frame b top x w) {k c : Handle}
    (hk : ¬ Old b k) (hc : c ∈ w.forest.children k) : ¬ Old b c := by
  intro old
  rw [← frame.tidy.wellFormed.linked, frame.parent_old old, opening.tidy.wellFormed.linked] at hc
  exact hk (old_of_mem_children hc)

/-- Nothing new but the node itself is a child of what was there. -/
theorem not_old_parent (opening : Opening b top x) (frame : Frame b top x w) {k p : Handle}
    (hk : ¬ Old b k) (hx : k ≠ x) (hp : w.forest.parent k = some p) : ¬ Old b p := by
  intro old
  have before : k ∉ b.forest.children p := fun hm =>
    hk (old_of_parent ((opening.tidy.wellFormed.linked p k).2 hm))
  rw [frame.tidy.wellFormed.linked, frame.children_old old] at hp
  split at hp
  · rcases List.mem_append.mp hp with hm | hm
    · exact before hm
    · exact hx (List.mem_singleton.mp hm)
  · exact before hp

/-- What is fresh was fresh or was not yet there. -/
theorem not_old_of_fresh (frame : Frame b top x w) {k : Handle}
    (fresh : Fresh w k) : ¬ Old b k := by
  intro old
  obtain ⟨front, hs, -⟩ := frame.stack
  have children := fresh.children
  rw [frame.children_old old] at children
  split at children
  · exact List.append_ne_nil_of_right_ne_nil _ (List.cons_ne_nil _ _) children
  · refine old.2 ⟨old.1, ?_, children, fun hk => fresh.notOpen ?_, fun hk => ?_⟩
    · rw [← frame.parent_old old]
      exact fresh.parent
    · rw [hs]
      exact List.mem_append_right _ (List.mem_cons_of_mem _ hk)
    · exact fresh.notAside (frame.detached k hk)

/-- The innermost open node is the node or newer. -/
theorem not_old_head (opening : Opening b top x) (frame : Frame b top x w) {k : Handle}
    {rest : List Handle} (hs : w.engine.stack = k :: rest) : ¬ Old b k := by
  obtain ⟨front, hfront, new⟩ := frame.stack
  rw [hfront] at hs
  cases front with
  | nil =>
      cases hs
      exact opening.not_old
  | cons a front =>
      cases hs
      exact (new k (List.mem_cons_self ..)).1

/-- If the node stays open without the innermost one, then the innermost one is newer. -/
theorem exists_front (opening : Opening b top x) (frame : Frame b top x w) {k : Handle}
    {rest : List Handle} (hs : w.engine.stack = k :: rest) (stays : x ∈ rest) :
    (¬ Old b k ∧ k ≠ x)
      ∧ ∃ front, rest = front ++ x :: b.engine.stack ∧ ∀ h ∈ front, ¬ Old b h ∧ h ≠ x := by
  obtain ⟨front, hfront, new⟩ := frame.stack
  rw [hfront] at hs
  cases front with
  | nil =>
      cases hs
      exact absurd stays opening.fresh.notOpen
  | cons a front =>
      cases hs
      exact ⟨new k List.mem_cons_self, front, rfl, fun h hh => new h (List.mem_cons_of_mem _ hh)⟩

/-- A step that keeps the stack in shape and touches nothing that was there. -/
theorem extend (frame : Frame b top x w) (h : Change w w')
    (same : ∀ k, Old b k → w'.forest.node k = w.forest.node k)
    (stack : ∃ front, w'.engine.stack = front ++ x :: b.engine.stack
      ∧ ∀ h ∈ front, ¬ Old b h ∧ h ≠ x)
    (hd : ∀ h ∈ w.engine.detached, h ∈ w'.engine.detached) (known : x < w.forest.size) :
    Frame b top x w' where
  tidy := frame.tidy.change h
  size := Nat.le_trans frame.size h.originsKept.size
  old k hk := (same k hk).trans (frame.old k hk)
  stack := stack
  detached k hk := hd k (frame.detached k hk)
  origin := (h.originsKept.origin x known).trans frame.origin

/-- Every step that leaves the node open keeps the frame. -/
theorem change (opening : Opening b top x) (frame : Frame b top x w) (h : Change w w')
    (stays : x ∈ w'.engine.stack) : Frame b top x w' := by
  obtain ⟨front, hfront, new⟩ := frame.stack
  have known : ∀ k, Old b k → k < w.forest.size := fun k hk => Nat.lt_of_lt_of_le hk.1 frame.size
  have xknown : x < w.forest.size := Nat.lt_of_lt_of_le opening.fresh.known frame.size
  have headKnown : ∀ {top' rest}, w.engine.stack = top' :: rest → top' < w.forest.size := by
    intro top' rest hs
    refine frame.tidy.known top' ?_
    rw [hs]
    exact List.mem_cons_self ..
  have whole := h
  cases h with
  | still hf hs hd =>
      refine frame.extend whole (fun k _ => by rw [hf]) ?_ (fun k hk => by rw [hd]; exact hk) xknown
      exact ⟨front, hs.trans hfront, new⟩
  | created hf hs hd =>
      refine frame.extend whole (fun k hk => ?_) ?_ (fun k hk => by rw [hd]; exact hk) xknown
      · rw [hf, Forest.node_add, if_neg (Nat.ne_of_lt (known k hk))]
      · exact ⟨front, hs.trans hfront, new⟩
  | opened htop fresh insertable hf hs hd =>
      rename_i top' h rest
      have notOldTop := frame.not_old_head opening htop
      have notOld := frame.not_old_of_fresh fresh
      refine frame.extend whole (fun k hk => ?_) ?_ (fun k hk => by rw [hd]; exact hk) xknown
      · rw [hf]
        exact Forest.node_link_of_ne (headKnown htop) fresh.known (fun e => notOldTop (e ▸ hk))
          fun e => notOld (e ▸ hk)
      · refine ⟨h :: front, by rw [hs, hfront]; rfl, fun k hk => ?_⟩
        rcases List.mem_cons.mp hk with rfl | hk
        · refine ⟨notOld, fun e => fresh.notOpen ?_⟩
          rw [hfront, e]
          exact List.mem_append_right _ (List.mem_cons_self ..)
        · exact new k hk
  | closed htop hf hs hd =>
      obtain ⟨-, left⟩ := frame.exists_front opening htop (hs ▸ stays)
      rw [← hs] at left
      exact frame.extend whole (fun k _ => by rw [hf]) left (fun k hk => by rw [hd]; exact hk) xknown
  | wrote htop hw hs hd =>
      have notOldTop := frame.not_old_head opening htop
      refine frame.extend whole (fun k hk => ?_) ?_ (fun k hk => by rw [hd]; exact hk) xknown
      · refine hw.node_of_ne (headKnown htop) (known k hk) (fun e => notOldTop (e ▸ hk)) fun hc => ?_
        exact frame.not_old_child opening notOldTop hc hk
      · exact ⟨front, hs.trans hfront, new⟩
  | withdrawn htop hp hf hs hd =>
      obtain ⟨⟨notOldTop, ne⟩, left⟩ := frame.exists_front opening htop (hs ▸ stays)
      rw [← hs] at left
      have notOldParent := frame.not_old_parent opening notOldTop ne hp
      refine frame.extend whole (fun k hk => ?_) left (fun k hk => ?_) xknown
      · rw [hf]
        exact Forest.node_unlink_of_ne (frame.tidy.wellFormed.parent_lt_size hp)
          (Forest.lt_size_of_parent hp) (fun e => notOldParent (e ▸ hk)) fun e => notOldTop (e ▸ hk)
      · rw [hd]
        exact List.mem_cons_of_mem _ hk
  | closedAll hf hs hd =>
      have last : w.engine.stack.getLast? = b.engine.stack.getLast? := by
        cases hb : b.engine.stack with
        | nil =>
            have head := opening.head
            rw [hb] at head
            cases head
        | cons t rest => rw [hfront, hb, List.getLast?_append_cons, List.getLast?_cons_cons]
      rw [hs, last, Option.mem_toList] at stays
      exact absurd (List.mem_of_getLast? stays) opening.fresh.notOpen

/-- The frame begins with the step that opens the node. -/
theorem of_change (tidy : Tidy b) (fresh : Fresh b x) (h : Change b w)
    (opened : x ∈ w.engine.stack) : ∃ top, Opening b top x ∧ Frame b top x w := by
  have whole := h
  have closed : x ∉ b.engine.stack := fresh.notOpen
  cases h with
  | still _ hs _ => exact absurd (hs ▸ opened) closed
  | created _ hs _ => exact absurd (hs ▸ opened) closed
  | wrote _ _ hs _ => exact absurd (hs ▸ opened) closed
  | closed htop _ hs _ =>
      rw [htop] at closed
      exact absurd (List.mem_cons_of_mem _ (hs ▸ opened)) closed
  | withdrawn htop _ _ hs _ =>
      rw [htop] at closed
      exact absurd (List.mem_cons_of_mem _ (hs ▸ opened)) closed
  | closedAll _ hs _ =>
      rw [hs, Option.mem_toList] at opened
      exact absurd (List.mem_of_getLast? opened) closed
  | opened htop fresh' insertable hf hs hd =>
      rename_i top h rest
      have same : x = h := by
        rw [hs] at opened
        exact (List.mem_cons.mp opened).resolve_right closed
      subst same
      have opening : Opening b top x := ⟨tidy, fresh, by rw [htop]; rfl⟩
      refine ⟨top, opening, tidy.change whole, whole.originsKept.size, fun k hk => ?_,
        ⟨[], hs, fun k hk => absurd hk List.not_mem_nil⟩, fun k hk => by rw [hd]; exact hk,
        whole.originsKept.origin x fresh.known⟩
      have hkx : k ≠ x := fun e => opening.not_old (e ▸ hk)
      rw [hf, Forest.node_link opening.old_top.1 fresh.known, if_neg hkx]
      by_cases hkt : k = top
      · subst hkt
        rw [if_pos rfl]
        rfl
      · rw [if_neg hkt, if_neg hkt]
        rfl

end Frame

/-! ## The recovery -/

/-- A code point has been appended to a node that was there: to its trailing text child,
or in a new one.  Nothing else that was there has changed. -/
inductive Regained (b : World σ) (top : Handle) (c : CodePoint) (o : Int) (v : World σ) :
    Prop where
  | last {l : Handle} : b.forest.lastChild? top = some l → (b.forest.node l).isText = true →
      (∀ k, Old b k → v.forest.node k
        = if k = l then (b.forest.node l).appendText [c] else b.forest.node k) →
      Regained b top c o v
  | new {n : Handle} {i : Int} :
      (∀ l, b.forest.lastChild? top = some l → (b.forest.node l).isText = false) →
      b.forest.size ≤ n →
      v.forest.node n = { (Blueprint.text [c] (some o)).build i with parent := some top } →
      (∀ k, Old b k → v.forest.node k = { b.forest.node k with
        children := if k = top then b.forest.children k ++ [n] else b.forest.children k }) →
      Regained b top c o v

/-- The world after a recovery, beside the world before the construct was opened and the
one before the recovery. -/
structure Backtracked (b u v : World σ) (x : Handle) (o : Int) : Prop where
  stack : v.engine.stack = b.engine.stack
  cursor : v.engine.cursor = o + 1
  tree : ∃ top c, b.engine.stack.head? = some top ∧ u.engine.text.at? o = some c
    ∧ Regained b top c o v
  parent : v.forest.parent x = none
  aside : v.engine.detached = x :: u.engine.detached
  below : ∀ k, u.forest.Over x k → v.forest.Over x k ∧ ¬ Old b k
    ∧ (k ≠ x → v.forest.node k = u.forest.node k)

/-- What is below the node is new. -/
theorem Frame.not_old_of_over (opening : Opening b top x) (frame : Frame b top x u) {k : Handle}
    (h : u.forest.Over x k) : ¬ Old b k := by
  induction h using Relation.ReflTransGen.head_induction_on with
  | refl => exact opening.not_old
  | head hp _ ih =>
      rw [frame.tidy.wellFormed.linked] at hp
      exact frame.not_old_child opening ih hp

theorem Frame.parent_node (opening : Opening b top x) (frame : Frame b top x u) :
    u.forest.parent x = some top :=
  frame.tidy.wellFormed.parent_last ((frame.children_old opening.old_top).trans (if_pos rfl))

/-- Taking the node out brings back what was there. -/
theorem Frame.node_unlink (opening : Opening b top x) (frame : Frame b top x u) {k : Handle}
    (hk : Old b k) : (u.forest.unlink top x).node k = b.forest.node k := by
  have parent := frame.parent_node opening
  have notChild : x ∉ b.forest.children top :=
    opening.tidy.wellFormed.not_mem_of_parent_none opening.fresh.parent
  have hkx : k ≠ x := fun e => opening.not_old (e ▸ hk)
  rw [Forest.node_unlink (frame.tidy.wellFormed.parent_lt_size parent)
    (Forest.lt_size_of_parent parent), if_neg hkx]
  by_cases hkt : k = top
  · subst hkt
    rw [if_pos rfl, frame.parent_old hk, frame.children_old hk, if_pos rfl, frame.old k hk,
      List.erase_append_right _ notChild, List.erase_cons_head, List.append_nil]
    rfl
  · rw [if_neg hkt, frame.parent_old hk, frame.children_old hk, if_neg hkt, frame.old k hk]
    rfl

/-- The world after the first half of the recovery, and after the switch: what was there is
back, and the rest is where it was. -/
structure Withdrawn (b u : World σ) (top x : Handle) (w : World σ) : Prop where
  wellFormed : w.forest.WellFormed
  size : u.forest.size ≤ w.forest.size
  old : ∀ k, Old b k → w.forest.node k = b.forest.node k
  rest : ∀ k, k < u.forest.size → k ≠ top → k ≠ x → w.forest.node k = u.forest.node k
  parent : w.forest.parent x = none
  text : w.engine.text = u.engine.text
  stack : w.engine.stack = b.engine.stack
  detached : w.engine.detached = x :: u.engine.detached

theorem Frame.withdrawn (opening : Opening b top x) (frame : Frame b top x u)
    (head : u.engine.stack.head? = some x) {h : Handle} {o : Int}
    (hw : withdraw.outcome u = (.ok (h, o), w)) :
    h = x ∧ (b.forest.node x).origin = some o ∧ Withdrawn b u top x w := by
  have parent := frame.parent_node opening
  have wf := frame.tidy.wellFormed
  have ptop := wf.parent_lt_size parent
  have px := Forest.lt_size_of_parent parent
  have hstack : u.engine.stack = x :: b.engine.stack := by
    obtain ⟨front, hfront, new⟩ := frame.stack
    cases front with
    | nil => exact hfront
    | cons a front =>
        rw [hfront] at head
        cases head
        exact absurd rfl (new x (List.mem_cons_self ..)).2
  obtain ⟨next, rest, p, c, f, hs, hp, hr, hout, ho, -⟩ := exists_of_withdraw hw
  rw [hstack] at hs
  obtain ⟨rfl, hrest⟩ := List.cons.inj hs
  rw [parent] at hp
  cases hp
  rw [wf.run_removeNode parent] at hr
  cases hr
  have kept : u.forest.OriginsKept (u.forest.unlink top x) :=
    (Forest.OriginsKept.setChildren _ _).trans (.setParent _ _)
  refine ⟨rfl, ?_, ?_⟩
  · rw [← frame.origin, ← kept.origin x px]
    exact ho
  rw [hout]
  refine ⟨wf.unlink parent, Nat.le_of_eq (Forest.size_unlink ..).symm, fun k hk => ?_,
    fun k _ hkt hkx => ?_, ?_, rfl, hrest.symm, rfl⟩
  · exact frame.node_unlink opening hk
  · exact Forest.node_unlink_of_ne ptop px hkt hkx
  · rw [World.forest_onEngine, World.forest_withForest, Forest.parent_unlink ptop px, if_pos rfl]

theorem Withdrawn.extends (h : Withdrawn b u top x w) (size : b.forest.size ≤ u.forest.size)
    (px : x < u.forest.size) (he : Extends w w') : Withdrawn b u top x w' where
  wellFormed := he.wellFormed h.wellFormed
  size := Nat.le_trans h.size he.size
  old k hk := by
    rw [← h.old k hk]
    exact he.node k (Nat.lt_of_lt_of_le hk.1 (Nat.le_trans size h.size))
  rest k hk hkt hkx := by
    rw [← h.rest k hk hkt hkx]
    exact he.node k (Nat.lt_of_lt_of_le hk h.size)
  parent := by
    rw [Forest.parent, he.node x (Nat.lt_of_lt_of_le px h.size)]
    exact h.parent
  text := he.text.trans h.text
  stack := he.stack.trans h.stack
  detached := he.detached.trans h.detached

theorem Withdrawn.children_top (opening : Opening b top x) (h : Withdrawn b u top x w) :
    w.forest.children top = b.forest.children top := by
  rw [Forest.children, h.old top opening.old_top]
  rfl

/-- The text rule sees the children that were there. -/
theorem Withdrawn.regained (opening : Opening b top x) (h : Withdrawn b u top x w)
    (size : b.forest.size ≤ u.forest.size) {c : CodePoint} {o : Int} {f : Forest}
    (hw : w.forest.Writes top [c] (some o) f) (hv : v.forest = f) : Regained b top c o v := by
  have lastChild : w.forest.lastChild? top = b.forest.lastChild? top := by
    rw [Forest.lastChild?, Forest.lastChild?, h.children_top opening]
  have oldChild : ∀ l, b.forest.lastChild? top = some l → Old b l := fun l hl =>
    opening.old_of_mem_top (List.mem_of_getLast? hl)
  have small : ∀ k, Old b k → k < w.forest.size := fun k hk =>
    Nat.lt_of_lt_of_le hk.1 (Nat.le_trans size h.size)
  cases hw with
  | last hl htext =>
      rename_i l
      rw [lastChild] at hl
      rw [h.old l (oldChild l hl)] at htext
      refine .last hl htext fun k hk => ?_
      rw [hv, Forest.node_update]
      by_cases hkl : k = l
      · rw [if_pos ⟨hkl, small k hk⟩, if_pos hkl, hkl, h.old l (oldChild l hl)]
      · rw [if_neg (fun both => hkl both.1), if_neg hkl]
        exact h.old k hk
  | new hl =>
      rw [lastChild] at hl
      refine .new (n := w.forest.size) (i := w.forest.nextId) (fun l hlast => ?_)
        (Nat.le_trans size h.size) ?_ fun k hk => ?_
      · rw [← h.old l (oldChild l hlast)]
        exact hl l hlast
      · rw [hv, Forest.node_growText (small top opening.old_top), if_pos rfl]
      · rw [hv, Forest.node_growText (small top opening.old_top),
          if_neg (Nat.ne_of_lt (small k hk)), Forest.children.eq_def _ k, h.old k hk]
        by_cases hkt : k = top
        · subst hkt
          rw [if_pos rfl, if_pos rfl, h.children_top opening]
        · rw [if_neg hkt, if_neg hkt]
          rfl

theorem Frame.backtracked (opening : Opening b top x) (frame : Frame b top x u)
    (head : u.engine.stack.head? = some x) {o : Int}
    (origin : (b.forest.node x).origin = some o) {switch : Int → Act σ Unit}
    (quiet : Extends (withdraw.outcome u).2 ((switch 0).outcome (withdraw.outcome u).2).2)
    (returned : (recover switch).outcome u = (.ok (), v)) : Backtracked b u v x o := by
  rw [recover] at returned
  obtain ⟨⟨h, o'⟩, w₁, hw, returned⟩ := exists_of_bind_ok returned
  obtain ⟨_, w₂, hswitch, hresume⟩ := exists_of_bind_ok returned
  obtain ⟨rfl, ho, first⟩ := frame.withdrawn opening head hw
  rw [origin] at ho
  cases ho
  rw [hw, hswitch] at quiet
  have px : h < u.forest.size := Forest.lt_size_of_parent (frame.parent_node opening)
  have second := first.extends frame.size px quiet
  rcases resume_cases h o w₂ with ⟨e, f, hout, -⟩ | ⟨c, inner, rest, f, hc, hs, hr, hu⟩
  · rw [hresume] at hout
    cases hout
  rw [hresume] at hu
  have hinner : inner = top := by
    have htop := opening.head
    rw [← second.stack, hs] at htop
    exact Option.some.inj htop
  subst hinner
  have ptop : inner < w₂.forest.size :=
    Nat.lt_of_lt_of_le opening.old_top.1 (Nat.le_trans frame.size second.size)
  obtain ⟨f', hrun, writes⟩ := second.wellFormed.run_appendToLastText ptop
    (List.cons_ne_nil c []) (some o)
  rw [hr] at hrun
  cases hrun
  have oldChild : ∀ k, k ∈ w₂.forest.children inner → Old b k := fun k hk =>
    opening.old_of_mem_top (second.children_top opening ▸ hk)
  -- Whatever is new, the node included, is left alone by the text.
  have spared : ∀ k, k < u.forest.size → ¬ Old b k → v.forest.node k = w₂.forest.node k := by
    intro k hk new
    have node := writes.node_of_ne ptop (Nat.lt_of_lt_of_le hk second.size)
      (fun e => new (e ▸ opening.old_top)) fun hm => new (oldChild k hm)
    rw [← node, hu.forest]
    rfl
  have same : ∀ k p, u.forest.parent k = some p → u.forest.Over h p →
      v.forest.node k = u.forest.node k := by
    intro k p hp hover
    have hk := Forest.lt_size_of_parent hp
    have new := frame.not_old_of_over opening (hover.trans (.of_parent hp))
    have hkh : k ≠ h := fun e => by
      subst e
      exact frame.tidy.wellFormed.not_over_parent hp hover
    rw [spared k hk new]
    exact second.rest k hk (fun e => new (e ▸ opening.old_top)) hkh
  refine ⟨hu.stack.trans second.stack, hu.cursor, ⟨inner, c, opening.head, ?_, ?_⟩, ?_,
    hu.detached.trans second.detached, fun k hk => ⟨?_, frame.not_old_of_over opening hk, ?_⟩⟩
  · rw [← second.text]
    exact hc
  · exact second.regained opening frame.size writes hu.forest
  · rw [Forest.parent, spared h px opening.not_old]
    exact second.parent
  · induction hk using Relation.ReflTransGen.head_induction_on with
    | refl => exact .refl _ _
    | head hp hover ih =>
        refine ih.trans (.of_parent ?_)
        rw [Forest.parent, same _ _ hp hover]
        exact hp
  · intro hkh
    rcases Forest.over_iff.1 hk with rfl | ⟨p, hp, hover⟩
    · exact absurd rfl hkh
    · exact same k p hp hover

/-! ## Whole parses -/

/-- In every parse by a tame grammar, a recovery of a node that has stayed open since it
was pushed brings back the stack and the tree from before the push, with the first code
point of the marker as text, and puts the node aside with everything below it. -/
theorem recovery_backtracks (g : Grammar σ) (rounds : Nat) (input : Input) (w₀ w v : World σ)
    (wf : w₀.forest.WellFormed) (loaded : (load input).outcome w₀ = (.ok (), w))
    (tame : ∀ m ∈ (workCourse g rounds).moments w, m.Tame)
    {i j : Nat} {p q : Moment σ} (hij : i < j)
    (hi : ((workCourse g rounds).moments w)[i]? = some p)
    (hj : ((workCourse g rounds).moments w)[j]? = some q)
    {x : Handle} {o : Int} (pushed : p.step = .op (.push (.node x)))
    (origin : (p.before.forest.node x).origin = some o)
    (stays : ∀ k m, i < k → k ≤ j → ((workCourse g rounds).moments w)[k]? = some m →
      x ∈ m.before.engine.stack)
    (recovers : q.step = .withdraw) (head : q.before.engine.stack.head? = some x)
    {n : Nat} (quiet : ∀ m ∈ (switchCourse g n 0).moments q.after, m.Quiet)
    (returned : (recover (switch g (fun _ _ => refuseParse) n)).outcome q.before = (.ok (), v)) :
    Backtracked p.before q.before v x o := by
  obtain ⟨f, begins⟩ := begins_of_load loaded
  have linked := (isChain_moments (workCourse g rounds) w).1
  have tidy := tidy_of_tame (begins.tidy wf) tame
  generalize (workCourse g rounds).moments w = ms at *
  have changes : ∀ m ∈ ms, Change m.before m.after := fun m hm =>
    (tidy m hm).change_tame (tame m hm)
  have hp := List.mem_of_getElem? hi
  have fresh : Fresh p.before x := by
    have tameStep := tame p hp
    rw [Moment.Tame, pushed] at tameStep
    exact tameStep
  obtain ⟨top, opening, frame⟩ : ∃ top, Opening p.before top x ∧ Frame p.before top x p.after := by
    obtain ⟨hlen, -⟩ := List.getElem?_eq_some_iff.mp hj
    obtain ⟨m, hm⟩ : ∃ m, ms[i + 1]? = some m :=
      ⟨_, List.getElem?_eq_getElem (Nat.lt_of_le_of_lt hij hlen)⟩
    have opened := stays (i + 1) m (Nat.lt_succ_self i) hij hm
    rw [before_eq_after linked hi hm] at opened
    exact Frame.of_change (tidy p hp) fresh (changes p hp) opened
  have framed : Frame p.before top x q.before := by
    refine carry linked hij (fun m hm => ?_) (fun k m m' hik hkj hm hm' met ih => ?_) q hj
    · rw [before_eq_after linked hi hm]
      exact frame
    · have open' := stays (k + 1) m' (Nat.lt_succ_of_lt hik) hkj hm'
      rw [met] at open' ⊢
      exact ih.change opening (changes m (List.mem_of_getElem? hm)) open'
  refine framed.backtracked opening head origin ?_ returned
  have after : q.after = (withdraw.outcome q.before).2 := by
    obtain ⟨s, u⟩ := q
    cases recovers
    rfl
  rw [← after, ← follows_switchCourse g n 0 q.after]
  exact extendsLaws.keeps_switchCourse g n 0 q.after quiet

/-! ## One unclosed construct -/

/-- A bold text that is never closed, behind some other text. -/
def unclosedBold : Input := .text (Text.ofChars ['a', '[', 'b', ']', 'c'])

/-- The world in which the work on the unclosed text begins. -/
def unclosedLoaded : World Unit := ((load unclosedBold).outcome { memory := () }).2

/-- The steps of the work on the unclosed text. -/
def unclosedMoments : List (Moment Unit) :=
  (workCourse (Bold.treeGrammar Unit) 5).moments unclosedLoaded

/-- The step that opens the bold node. -/
def unclosedPush : Moment Unit := unclosedMoments.get ⟨9, by decide +kernel⟩

/-- The step that begins to recover. -/
def unclosedWithdraw : Moment Unit := unclosedMoments.get ⟨15, by decide +kernel⟩

/-- The world after the recovery. -/
def unclosedRecovered : World Unit :=
  ((recover (switch (Bold.treeGrammar Unit) (fun _ _ => refuseParse) nestingLimit)).outcome
    unclosedWithdraw.before).2

theorem recovery_backtracks_unclosedBold :
    Backtracked unclosedPush.before unclosedWithdraw.before unclosedRecovered 2 1 := by
  have loaded : (load unclosedBold).outcome { memory := () } = (.ok (), unclosedLoaded) := by
    rw [unclosedLoaded]
    refine Prod.ext ?_ ?_
    · rfl
    · dsimp only
  have tame : ∀ m ∈ unclosedMoments, m.Tame := by decide +kernel
  have stays : ∀ k ∈ List.range 16, ∀ m ∈ unclosedMoments[k]?, 9 < k →
      2 ∈ m.before.engine.stack := by decide +kernel
  refine recovery_backtracks (Bold.treeGrammar Unit) 5 unclosedBold { memory := () } unclosedLoaded
    unclosedRecovered (.of_size_eq_zero rfl) loaded tame (by decide : 9 < 15)
    (p := unclosedPush) (q := unclosedWithdraw) (List.getElem?_eq_getElem _)
    (List.getElem?_eq_getElem _) ?_ ?_ ?_ ?_ ?_ (n := nestingLimit) ?_ ?_
  · rfl
  · decide +kernel
  · exact fun k m hik hkj hm => stays k (List.mem_range.mpr (by omega)) m hm hik
  · rfl
  · decide +kernel
  · decide +kernel
  · rw [unclosedRecovered]
    refine Prod.ext ?_ ?_
    · rfl
    · dsimp only

/-! ## What a recovery does not take back -/

/-- A run in which a node is opened, stays open, and is read again as text: the steps that open it
and that begin the recovery, and the world after the recovery. -/
structure Reread (g : Grammar σ) (ms : List (Moment σ)) (x : Handle) (o : Int) (p q : Moment σ)
    (v : World σ) : Prop where
  tame : ∀ m ∈ ms, m.Tame
  pushed : p.step = .op (.push (.node x))
  origin : (p.before.forest.node x).origin = some o
  stays : ∃ i j, i < j ∧ ms[i]? = some p ∧ ms[j]? = some q
    ∧ ∀ k ∈ List.range (j + 1), ∀ m ∈ ms[k]?, i < k → x ∈ m.before.engine.stack
  recovers : q.step = .withdraw
  head : q.before.engine.stack.head? = some x
  returned : (recover (switch g (fun _ _ => refuseParse) nestingLimit)).outcome q.before
    = (.ok (), v)

/-- A grammar that opens a node at every mark and reads it again as text at once.  It does one more
thing when it switches the status, and one more inside the node. -/
def rereading (switching inside : Hook Unit Unit) : Grammar Unit :=
  { Grammar.plain Unit with
    setStatus := fun n => do
      Hook.assign (.needles [Bold.openMark])
      Hook.assign (.status n)
      switching
      return true
    handleStatus := fun _ _ => do
      let first ← Hook.edit (.create (.plain (some 0)))
      let _ ← Hook.edit (.create (.plain none))
      let _ ← Hook.push (.node first)
      inside
      Hook.recover
      return true }

/-- The steps of the work of such a grammar on one mark. -/
def rereadMoments (switching inside : Hook Unit Unit) : List (Moment Unit) :=
  (workCourse (rereading switching inside) 3).moments
    ((load (.text Bold.openMark)).outcome { memory := () }).2

/-- The world after the recovery that begins in a step. -/
def rereadWorld (switching inside : Hook Unit Unit) (q : Moment Unit) : World Unit :=
  ((recover (switch (rereading switching inside) (fun _ _ => refuseParse) nestingLimit)).outcome
    q.before).2

/-- Open a node, and leave it open. -/
def openAnother : Hook Unit Unit := do
  let node ← Hook.edit (.create (.plain none))
  let _ ← Hook.push (.node node)

/-- Open and close the node that was created before the open one was opened. -/
def openEarlier : Hook Unit Unit := do
  let _ ← Hook.push (.node 2)
  let _ ← Hook.pop

theorem eq_of_isOk {out : Except Fault Unit × World σ} (h : out.1.isOk = true) :
    out = (.ok (), out.2) := by
  obtain ⟨result, w⟩ := out
  cases result with
  | ok _ => rfl
  | error f => cases h

/-- A node that is opened when the recovery switches the status stays open, so that the stack is not
what it was. -/
theorem exists_reread_openAnother : ∃ p q v,
    Reread (rereading openAnother (return ())) (rereadMoments openAnother (return ())) 2 0 p q v
      ∧ v.engine.stack ≠ p.before.engine.stack := by
  refine ⟨(rereadMoments openAnother (return ())).get ⟨11, by decide +kernel⟩,
    (rereadMoments openAnother (return ())).get ⟨12, by decide +kernel⟩,
    rereadWorld openAnother (return ())
      ((rereadMoments openAnother (return ())).get ⟨12, by decide +kernel⟩), ?_, by decide +kernel⟩
  exact {
    tame := by decide +kernel
    pushed := rfl
    origin := by decide +kernel
    stays := ⟨11, 12, by decide, List.getElem?_eq_getElem _, List.getElem?_eq_getElem _,
      by decide +kernel⟩
    recovers := rfl
    head := by decide +kernel
    returned := eq_of_isOk (by decide +kernel) }

/-- A node that was created before the push, but not used, may be put aside with the node that is
pushed. -/
theorem exists_reread_openEarlier : ∃ p q v,
    Reread (rereading (return ()) openEarlier) (rereadMoments (return ()) openEarlier) 1 0 p q v
      ∧ 2 < p.before.forest.size ∧ p.before.forest.parent 2 = none
      ∧ v.forest.parent 2 = some 1 := by
  refine ⟨(rereadMoments (return ()) openEarlier).get ⟨9, by decide +kernel⟩,
    (rereadMoments (return ()) openEarlier).get ⟨12, by decide +kernel⟩,
    rereadWorld (return ()) openEarlier
      ((rereadMoments (return ()) openEarlier).get ⟨12, by decide +kernel⟩), ?_, by decide +kernel,
    by decide +kernel, by decide +kernel⟩
  exact {
    tame := by decide +kernel
    pushed := rfl
    origin := by decide +kernel
    stays := ⟨9, 12, by decide, List.getElem?_eq_getElem _, List.getElem?_eq_getElem _,
      by decide +kernel⟩
    recovers := rfl
    head := by decide +kernel
    returned := eq_of_isOk (by decide +kernel) }

/-- A recovery does not take back what the switch of the status opens, nor does it leave alone a
node that was created before the push and not used. -/
theorem recovery_backtracks_less :
    (∃ p q v, Reread (rereading openAnother (return ())) (rereadMoments openAnother (return ())) 2 0
        p q v ∧ v.engine.stack ≠ p.before.engine.stack)
      ∧ ∃ p q v, Reread (rereading (return ()) openEarlier)
          (rereadMoments (return ()) openEarlier) 1 0 p q v
        ∧ 2 < p.before.forest.size ∧ p.before.forest.parent 2 = none
        ∧ v.forest.parent 2 = some 1 :=
  ⟨exists_reread_openAnother, exists_reread_openEarlier⟩

end Engine

end Needlework
