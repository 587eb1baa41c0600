import Needlework.Proofs.Engine.Ledger
import Needlework.Proofs.Engine.Spine

/-!
# How much of the text the tree spells

In the course of a scan the tree spells the text up to some offset, and the open nodes form
its spine (`Covers`).  This module says how the offset moves when text is written, and when a
node is opened, closed or taken out.  Quiet steps leave it where it is.  Together this is a ledger
(`coverage`).
-/

namespace Needlework

namespace Forest

variable {f f' : Forest}

/-- Writing changes no parent. -/
theorem Writes.parent {p : Handle} {t : Text} {origin : Option Int} (hw : f.Writes p t origin f')
    (hp : p < f.size) {k : Handle} (hk : k < f.size) : f'.parent k = f.parent k := by
  cases hw with
  | last => exact parent_update_appendText f _ k t
  | new =>
      rw [Forest.parent, node_growText hp, if_neg (Nat.ne_of_lt hk)]
      rfl

end Forest

namespace Engine

open Act

variable {σ : Type} {w w' : World σ} {k : Marks} {c c' : Nat}

/-- The tree spells the text up to an offset, along the spine of open nodes. -/
structure Covers (k : Marks) (c : Nat) (w : World σ) : Prop where
  tidy : Tidy w
  spine : ∃ top rest, w.engine.stack = top :: rest
    ∧ Spine w.forest k w.engine.text (w.forest.children top) (top :: rest) c
  root : ∃ r, w.engine.root = some r ∧ w.engine.stack.getLast? = some r
    ∧ w.forest.parent r = none ∧ r ∉ w.engine.detached

namespace Covers

/-- The root spells the text up to the offset. -/
theorem spells (covers : Covers k c w) : ∃ r, w.engine.root = some r
    ∧ Spells w.forest k (w.forest.children r) (w.engine.text.take c) := by
  obtain ⟨top, rest, hs, spine⟩ := covers.spine
  obtain ⟨r, hr, hlast, -, -⟩ := covers.root
  refine ⟨r, hr, ?_⟩
  rw [hs] at hlast
  have whole := spine.whole (u := []) (fun s hs => by rw [List.append_nil]; exact hs) hlast
  rw [List.append_nil] at whole
  exact whole

theorem extend (covers : Covers k c w) (h : Extends w w') : Covers k c w' := by
  obtain ⟨top, rest, hs, spine⟩ := covers.spine
  obtain ⟨r, hr, hlast, hparent, haside⟩ := covers.root
  have known := covers.tidy.known
  have rknown : r < w.forest.size := known r (List.mem_of_getLast? hlast)
  refine ⟨⟨h.wellFormed covers.tidy.wellFormed, fun x hx => ?_⟩, ⟨top, rest, h.stack.trans hs, ?_⟩,
    ⟨r, h.root.trans hr, by rw [h.stack]; exact hlast, ?_, by rw [h.detached]; exact haside⟩⟩
  · rw [h.stack] at hx
    exact Nat.lt_of_lt_of_le (known x hx) h.size
  · rw [h.text]
    rw [hs] at known
    exact spine.extend covers.tidy.wellFormed known h.node
  · rw [Forest.parent, h.node r rknown]
    exact hparent

/-- Text goes to the innermost open node. -/
theorem wrote (covers : Covers k c w) (u : Text) (offset : Option Int)
    (hf : w'.forest = textForest w u offset) (ht : w'.engine.text = w.engine.text)
    (hs' : w'.engine.stack = w.engine.stack) (hr' : w'.engine.root = w.engine.root)
    (hd : w'.engine.detached = w.engine.detached)
    (covered : w.engine.text.take c' = w.engine.text.take c ++ u) : Covers k c' w' := by
  obtain ⟨top, rest, hs, spine⟩ := covers.spine
  obtain ⟨r, hr, hlast, hparent, haside⟩ := covers.root
  have tidy' : Tidy w' := covers.tidy.change (covers.tidy.wrote u offset hf hs' hd)
  have known := covers.tidy.known
  have rknown : r < w.forest.size := known r (List.mem_of_getLast? hlast)
  rw [hs] at known
  have ptop := known top (List.mem_cons_self ..)
  by_cases hu : u = []
  · subst hu
    have same : w'.forest = w.forest := by
      rw [hf, textForest, hs]
      rfl
    refine ⟨tidy', ⟨top, rest, hs'.trans hs, ?_⟩, ⟨r, hr'.trans hr, by rw [hs']; exact hlast,
      by rw [same]; exact hparent, by rw [hd]; exact haside⟩⟩
    rw [same, ht]
    exact spine.replace covers.tidy.wellFormed (fun h _ _ => .of_node_eq rfl)
      (SameAt.of_node_eq rfl).toSameSelf (fun s hs => by rw [List.append_nil]; exact hs) covered
  · obtain ⟨f', hrun, hw⟩ := covers.tidy.wellFormed.run_appendToLastText ptop hu
      (some (offset.getD w.engine.cursor))
    have forest : w'.forest = f' := by
      rw [hf, textForest, hs]
      exact Forest.after_of_ok hrun
    refine ⟨tidy', ⟨top, rest, hs'.trans hs, ?_⟩, ⟨r, hr'.trans hr, by rw [hs']; exact hlast, ?_,
      by rw [hd]; exact haside⟩⟩
    · rw [forest, ht]
      exact spine.write covers.tidy.wellFormed known hw covered
    · rw [forest, hw.parent ptop rknown]
      exact hparent

/-- Only the forest, the text, the open nodes, the root and what is put aside matter. -/
theorem congr (covers : Covers k c w) (hf : w'.forest = w.forest)
    (ht : w'.engine.text = w.engine.text) (hs : w'.engine.stack = w.engine.stack)
    (hr : w'.engine.root = w.engine.root) (hd : w'.engine.detached = w.engine.detached) :
    Covers k c w' where
  tidy := covers.tidy.change (.still hf hs hd)
  spine := by rw [hf, ht, hs]; exact covers.spine
  root := by rw [hf, hs, hr, hd]; exact covers.root

/-- The needle that is being dealt with does not matter before it is in the tree. -/
theorem withNeedle (covers : Covers k c w) (needle : Text) : Covers { k with needle } c w := by
  obtain ⟨top, rest, hs, spine⟩ := covers.spine
  have wf := covers.tidy.wellFormed
  have same : ∀ h, SameAt w.forest w.forest k { k with needle } h := fun h =>
    ⟨⟨rfl, rfl, rfl, rfl⟩, rfl⟩
  refine ⟨covers.tidy, ⟨top, rest, hs, ?_⟩, covers.root⟩
  refine spine.replace wf (u := []) (fun h _ _ => same h) (same top).toSameSelf (fun s hs => ?_)
    (List.append_nil _).symm
  rw [List.append_nil]
  exact hs.congr wf fun d _ x _ => same x

/-! ## Opening and closing -/

/-- A fresh node is opened at the needle. -/
theorem pushed (covers : Covers k c w) {h x : Handle} (fresh : Fresh w h)
    (origin : (w.forest.node h).origin = some (c : Int))
    (content : (w.forest.node h).content? = none)
    (covered : w.engine.text.take c' = w.engine.text.take c ++ k.needle)
    (returned : (push (.node h)).outcome w = (.ok x, w')) : Covers (k.opened h) c' w' := by
  obtain ⟨top, rest, hs, spine⟩ := covers.spine
  obtain ⟨r, hr, hlast, hparent, haside⟩ := covers.root
  have known := covers.tidy.known
  rw [hs] at known
  have ptop := known top (List.mem_cons_self ..)
  have change := covers.tidy.change_push (n := .node h) fresh
  rw [returned] at change
  obtain ⟨top', rest', hs', rfl⟩ := covers.tidy.push_fresh fresh returned
  rw [hs] at hs'
  cases hs'
  have off := fresh.notOpen
  have rh : r ≠ h := fun e => off (e ▸ List.mem_of_getLast? hlast)
  rw [hs] at off
  refine ⟨covers.tidy.change change, ⟨h, top :: rest, congrArg (h :: ·) hs, ?_⟩,
    ⟨r, hr, ?_, ?_, haside⟩⟩
  · exact spine.push covers.tidy.wellFormed known fresh.known fresh.parent fresh.children off origin
      content covered
  · show (h :: w.engine.stack).getLast? = some r
    rw [hs, List.getLast?_cons_cons, ← hs]
    exact hlast
  · rw [Forest.parent]
    show ((w.forest.link top h _).node r).parent = none
    rw [Forest.node_link ptop fresh.known, if_neg rh]
    exact hparent

/-- The innermost open node is closed at the needle. -/
theorem popped (covers : Covers k c w) {x : Handle}
    (covered : w.engine.text.take c' = w.engine.text.take c ++ k.needle)
    (returned : pop.outcome w = (.ok x, w')) :
    ∃ top rest, w.engine.stack = top :: rest ∧ Covers (k.closed top) c' w' := by
  obtain ⟨top, rest, hs, spine⟩ := covers.spine
  obtain ⟨r, hr, hlast, hparent, haside⟩ := covers.root
  rcases pop_cases w with ⟨e, hout⟩ | ⟨top', next, rest', hs', hout⟩
  · rw [returned] at hout
    cases hout
  rw [returned] at hout
  cases hout
  rw [hs] at hs'
  cases hs'
  rw [hs, List.getLast?_cons_cons] at hlast
  refine ⟨x, _, hs, covers.tidy.change (.closed hs rfl rfl rfl), ⟨next, rest', rfl, ?_⟩,
    ⟨r, hr, hlast, hparent, haside⟩⟩
  exact spine.pop covers.tidy.wellFormed covered

/-! ## Recovery -/

/-- Without the innermost open node, the tree spells the text up to where the node began. -/
theorem withdrawn (covers : Covers k c w) {h : Handle} {o : Int}
    (returned : withdraw.outcome w = (.ok (h, o), w')) :
    ∃ n : Nat, o = n ∧ Covers k n w' := by
  obtain ⟨top, rest, hs, spine⟩ := covers.spine
  obtain ⟨r, hr, hlast, hparent, haside⟩ := covers.root
  have wf := covers.tidy.wellFormed
  have change := covers.tidy.change_withdraw
  rw [returned] at change
  obtain ⟨next, rest', p, hs', hp, ho, rfl⟩ := covers.tidy.withdraw_ok returned
  rw [hs] at hs'
  cases hs'
  obtain ⟨hp', n, horigin, spine'⟩ := spine.withdraw wf
  rw [hp] at hp'
  cases hp'
  have same : o = n := Option.some.inj (ho.symm.trans horigin)
  rw [hs, List.getLast?_cons_cons] at hlast
  refine ⟨n, same, covers.tidy.change change, ⟨next, rest', rfl, spine'⟩, ⟨r, hr, hlast, ?_, ?_⟩⟩
  · show ((w.forest.unlink next h).node r).parent = none
    rw [Forest.node_unlink (wf.parent_lt_size hp) (Forest.lt_size_of_parent hp)]
    dsimp only
    split
    · rfl
    · exact hparent
  · intro hm
    rcases List.mem_cons.mp hm with rfl | hm
    · rw [hp] at hparent
      cases hparent
    · exact haside hm

end Covers

/-- The ledger of what the tree spells. -/
def coverage : Ledger σ where
  exact := False
  Holds := Covers
  extend := Covers.extend
  congr := Covers.congr
  withNeedle := Covers.withNeedle
  wrote covers u offset _ covered hf ht hs hr hd :=
    covers.wrote u offset hf ht hs hr hd (Text.take_eq_append_of_prefix covered)
  pushed covers _ _ fresh origin content _ covered returned :=
    covers.pushed fresh origin content (Text.take_eq_append_of_prefix covered) returned
  popped covers _ covered returned :=
    covers.popped (Text.take_eq_append_of_prefix covered) returned
  withdrawn covers _ _ returned := covers.withdrawn returned

/-! ## The whole text -/

/-- The root has nothing above it and spells the whole text. -/
structure Finished (k : Marks) (w : World σ) (r : Handle) : Prop where
  wellFormed : w.forest.WellFormed
  root : w.engine.root = some r
  known : r < w.forest.size
  parent : w.forest.parent r = none
  notAside : r ∉ w.engine.detached
  spells : Spells w.forest k (w.forest.children r) w.engine.text

theorem Covers.finished (covers : Covers k c w) (whole : w.engine.text.take c = w.engine.text) :
    ∃ r, Finished k w r := by
  obtain ⟨r, hr, hlast, hparent, haside⟩ := covers.root
  obtain ⟨r', hr', spells⟩ := covers.spells
  rw [hr] at hr'
  cases hr'
  rw [whole] at spells
  exact ⟨r, covers.tidy.wellFormed, hr, covers.tidy.known r (List.mem_of_getLast? hlast), hparent,
    haside, spells⟩

theorem Finished.grow {r : Handle} (finished : Finished k w r) (h : Grows w w') : Finished k w' r where
  wellFormed := h.wellFormed finished.wellFormed
  root := h.root.trans finished.root
  known := Nat.lt_of_lt_of_le finished.known h.size
  parent := by rw [Forest.parent, h.node r finished.known]; exact finished.parent
  notAside := by rw [h.detached]; exact finished.notAside
  spells := by
    rw [h.text, Forest.children, h.node r finished.known]
    refine finished.spells.congr finished.wellFormed fun d hd x hover => .of_node_eq (h.node x ?_)
    obtain ⟨p, hp⟩ := Option.ne_none_iff_exists'.mp
      (parent_ne_none_of_over finished.wellFormed hd hover)
    exact Forest.lt_size_of_parent hp

end Engine

end Needlework
