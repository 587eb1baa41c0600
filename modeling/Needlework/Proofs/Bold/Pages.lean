import Needlework.Proofs.Bold.Reference
import Needlework.Proofs.Forest.Destruction

/-!
# What a tree renders to

A row of nodes renders to HTML.  A text node has no children and renders to its content, escaped.  A
bold node renders to a `strong` element around what its children render to (`Renders`).

Rendering goes a bounded number of levels down.  The relation counts the levels that it needs, and
the program renders to the same HTML whenever it is given as many (`flatMap_renderNode`).

Text that is written to a node is added behind what its children render to (`Renders.writes`).  What
is not below a row may change, and the row still renders to the same (`Renders.congr`).
-/

namespace Needlework.Bold

open Relation

variable {f f' : Forest} {p : Handle} {hs hs' : List Handle} {s s' : Text} {n m : Nat}

/-- Some nodes in a row render to HTML, a number of levels down. -/
inductive Renders (f : Forest) : Nat → List Handle → Text → Prop where
  | nil {n : Nat} : Renders f n [] []
  | text {n : Nat} {h : Handle} {hs : List Handle} {c s : Text} : (f.node h).content? = some c →
      f.children h = [] → Renders f (n + 1) hs s → Renders f (n + 1) (h :: hs) (escape c ++ s)
  | bold {n : Nat} {h : Handle} {hs : List Handle} {s t : Text} : (f.node h).content? = none →
      (f.node h).teardown? = none → Renders f n (f.children h) s → Renders f (n + 1) hs t →
      Renders f (n + 1) (h :: hs) (strongStart ++ s ++ strongEnd ++ t)

/-- A node as HTML is what it renders to, if enough levels are gone down. -/
theorem flatMap_renderNode (h : Renders f n hs s) (enough : n ≤ m) :
    hs.flatMap (renderNode f m) = s := by
  induction h generalizing m with
  | nil => rfl
  | text content _ _ ih =>
      obtain ⟨k, rfl⟩ : ∃ k, m = k + 1 := ⟨m - 1, by omega⟩
      rw [List.flatMap_cons, ih enough, renderNode, content]
  | bold content _ _ _ below ih =>
      obtain ⟨k, rfl⟩ : ∃ k, m = k + 1 := ⟨m - 1, by omega⟩
      rw [List.flatMap_cons, ih enough, renderNode, content]
      dsimp only
      rw [below (Nat.le_of_succ_le_succ enough)]

namespace Renders

theorem append (h : Renders f n hs s) (h' : Renders f n hs' s') :
    Renders f n (hs ++ hs') (s ++ s') := by
  induction h with
  | nil => exact h'
  | text content leaf _ ih =>
      rw [List.cons_append, List.append_assoc]
      exact .text content leaf (ih h')
  | bold content sturdy below _ _ ih =>
      rw [List.cons_append, List.append_assoc]
      exact .bold content sturdy below (ih h')

theorem exists_of_append (h : Renders f n (hs ++ hs') s) :
    ∃ t t', s = t ++ t' ∧ Renders f n hs t ∧ Renders f n hs' t' := by
  induction hs generalizing s with
  | nil => exact ⟨[], s, rfl, .nil, h⟩
  | cons x hs ih =>
      cases h with
      | text content leaf rest =>
          obtain ⟨t, t', rfl, first, second⟩ := ih rest
          exact ⟨_, t', (List.append_assoc ..).symm, .text content leaf first, second⟩
      | bold content sturdy below rest =>
          obtain ⟨t, t', rfl, first, second⟩ := ih rest
          exact ⟨_, t', (List.append_assoc ..).symm, .bold content sturdy below first, second⟩

/-- What some nodes render to depends on the nodes below them only. -/
theorem congr (wf : f.WellFormed) (h : Renders f n hs s)
    (same : ∀ d ∈ hs, ∀ x, f.Over d x → f'.node x = f.node x) : Renders f' n hs s := by
  induction h with
  | nil => exact .nil
  | @text _ x _ _ _ content leaf _ ih =>
      have here := same x List.mem_cons_self x (.refl f x)
      rw [Forest.children, ← here] at leaf
      rw [← here] at content
      exact .text content leaf (ih fun d hd => same d (List.mem_cons_of_mem x hd))
  | @bold _ x _ _ _ content sturdy _ _ ihb ih =>
      have here := same x List.mem_cons_self x (.refl f x)
      have below := ihb fun d hd y hy =>
        same x List.mem_cons_self y (.trans (.of_parent ((wf.linked x d).2 hd)) hy)
      rw [Forest.children, ← here] at below
      rw [← here] at content sturdy
      exact .bold content sturdy below (ih fun d hd => same d (List.mem_cons_of_mem x hd))

/-- What renders is torn down without a failure. -/
theorem sturdy (wf : f.WellFormed) (h : Renders f n hs s) :
    ∀ d ∈ hs, ∀ x, f.Over d x → (f.node x).teardown? = none := by
  induction h with
  | nil => exact fun d hd => absurd hd List.not_mem_nil
  | @text _ y _ c _ content leaf _ ih =>
      intro d hd x below
      rcases List.mem_cons.1 hd with rfl | hd
      · rw [wf.eq_of_over_childless leaf below]
        rw [Node.content?] at content
        rw [Node.teardown?]
        split at content
        next form =>
          rw [form]
          rfl
        next => cases content
      · exact ih d hd x below
  | @bold _ y _ _ _ _ firm _ _ ihb ih =>
      intro d hd x below
      rcases List.mem_cons.1 hd with rfl | hd
      · rcases ReflTransGen.cases_tail below with same | ⟨z, above, parent⟩
        · rw [← same]
          exact firm
        · exact ihb z ((wf.linked d z).1 parent) x above
      · exact ih d hd x below

/-- Text that is written to a node comes behind what its children render to. -/
theorem writes (wf : f.WellFormed) (hp : p < f.size) {u : Text} {origin : Option Int}
    (hw : f.Writes p u origin f') (h : Renders f (n + 1) (f.children p) s) :
    Renders f' (n + 1) (f'.children p) (s ++ escape u) := by
  cases hw with
  | @last c hlast htext =>
      obtain ⟨cs, hcs⟩ := List.getLast?_eq_some_iff.1 hlast
      have parent := wf.parent_of_lastChild? hlast
      have children : (f.update c (Node.appendText u)).children p = cs ++ [c] :=
        (Forest.children_update_appendText f c p u).trans hcs
      rw [hcs] at h
      obtain ⟨t, t', rfl, before, last⟩ := h.exists_of_append
      have before' : Renders (f.update c (Node.appendText u)) (n + 1) cs t :=
        before.congr wf fun d hd y below => wf.node_update_of_over hcs hd below _
      have content' := Forest.content?_update_appendText (Forest.lt_size_of_parent parent) u
      rw [children, List.append_assoc]
      refine before'.append ?_
      cases last with
      | @text _ _ _ b _ content leaf rest =>
          cases rest
          rw [content, Option.map_some] at content'
          have leaf' : (f.update c (Node.appendText u)).children c = [] :=
            (Forest.children_update_appendText f c c u).trans leaf
          have rendered := Renders.text (n := n) content' leaf' .nil
          rw [List.append_nil, escape_append] at rendered
          rw [List.append_nil]
          exact rendered
      | bold content _ _ _ =>
          rw [Node.isText_eq_isSome, content] at htext
          cases htext
  | new _ =>
      have before : Renders (f.growText p u origin) (n + 1) (f.children p) s :=
        h.congr wf fun d hd y below => wf.node_grow_of_over hd below _
      have last := Renders.text (n := n) (Forest.content?_growText hp u origin)
        (Forest.children_growText_size hp u origin) .nil
      rw [List.append_nil] at last
      rw [Forest.children_growText hp]
      exact before.append last

end Renders

end Needlework.Bold
