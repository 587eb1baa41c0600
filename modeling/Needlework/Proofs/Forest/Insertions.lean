import Needlework.Proofs.Forest.Histories

/-!
# Insertions

An insertion puts a node at a *place* among the children of another: first, last, or directly
before or after a child.  It succeeds exactly if the node is neither a root nor destroyed, is not
over its new parent, and the child that names the place is another one
(`insertion_moves`).

*What moves.*  The node is taken out of the children of its new parent, if it is one of them, and
put at its place among the others (`Place.Puts`).  Three nodes are touched at most.  The node has
a new parent and keeps everything below it, the new parent has the node, and the old parent has it
no more (`Moved`).
-/

namespace Needlework

open Relation

/-- A place among the children of a node. -/
inductive Place where
  /-- Before all children. -/
  | first
  /-- Behind all children. -/
  | last
  /-- Directly before a child. -/
  | before (r : Handle)
  /-- Directly after a child. -/
  | after (r : Handle)

namespace Place

/-- The child that names the place. -/
def reference? : Place → Option Handle
  | .first | .last => none
  | .before r | .after r => some r

/-- The insertion of a node at a place below another. -/
def insertion (p n : Handle) : Place → Edit
  | .first => .prepend p (.node n)
  | .last => .append p (.node n)
  | .before r => .insertBefore p (.node n) (.node r)
  | .after r => .insertAfter p (.node n) (.node r)

/-- The second list is the first one with a node put at a place. -/
inductive Puts (n : Handle) : Place → List Handle → List Handle → Prop where
  | first {cs : List Handle} : Puts n .first cs (n :: cs)
  | last {cs : List Handle} : Puts n .last cs (cs ++ [n])
  | before {r : Handle} {left right : List Handle} :
      Puts n (.before r) (left ++ r :: right) (left ++ n :: r :: right)
  | after {r : Handle} {left right : List Handle} :
      Puts n (.after r) (left ++ r :: right) (left ++ r :: n :: right)

variable {f : Forest} {n p r : Handle} {cs : List Handle} {i : Nat}

theorem insertIdx_append_add (left rest : List Handle) (k : Nat) :
    (left ++ rest).insertIdx (left.length + k) n = left ++ rest.insertIdx k n := by
  induction left with
  | nil => simp
  | cons c left ih =>
      rw [List.cons_append, List.length_cons, Nat.add_right_comm, List.insertIdx_succ_cons, ih,
        List.cons_append]

/-- A list at the index of an element. -/
theorem exists_split (entry : cs[i]? = some r) :
    ∃ left right, cs = left ++ r :: right ∧ left.length = i := by
  obtain ⟨inside, rfl⟩ := List.getElem?_eq_some_iff.1 entry
  refine ⟨cs.take i, cs.drop (i + 1), ?_, by rw [List.length_take]; omega⟩
  rw [← List.drop_eq_getElem_cons inside, List.take_append_drop]

theorem puts_before (entry : cs[i]? = some r) : Puts n (.before r) cs (cs.insertIdx (i + 0) n) := by
  obtain ⟨left, right, rfl, rfl⟩ := exists_split entry
  rw [insertIdx_append_add]
  exact .before

theorem puts_after (entry : cs[i]? = some r) : Puts n (.after r) cs (cs.insertIdx (i + 1) n) := by
  obtain ⟨left, right, rfl, rfl⟩ := exists_split entry
  rw [insertIdx_append_add]
  exact .after

end Place

namespace Forest

variable {f f' : Forest} {k n p q r : Handle} {cs : List Handle}

/-- A node can be put at a place: it can be put below the parent, and the child that names the place
is another one. -/
structure Fitting (f : Forest) (p n : Handle) (place : Place) : Prop where
  insertable : f.Insertable p n
  beside : ∀ r ∈ place.reference?, r ≠ n ∧ r ∈ f.children p

/-- One node has moved to a place below another, and nothing else has happened. -/
structure Moved (f f' : Forest) (p n : Handle) (place : Place) : Prop where
  /-- The new parent has the node at its place among its other children. -/
  placed : place.Puts n ((f.children p).erase n) (f'.children p)
  /-- The node has a new parent. -/
  moved : f'.node n = { f.node n with parent := some p }
  /-- The new parent has other children. -/
  receiver : f'.node p = { f.node p with children := f'.children p }
  /-- An old parent loses the node and keeps the order of its other children. -/
  giver : ∀ q, f.parent n = some q → q ≠ p → ∃ left right, f.children q = left ++ n :: right
    ∧ f'.node q = { f.node q with children := left ++ right }
  /-- No other node changes. -/
  others : ∀ k, k ≠ n → k ≠ p → f.parent n ≠ some k → f'.node k = f.node k
  /-- In particular, nothing below the node changes. -/
  below : ∀ k, f.Over n k → k ≠ n → f'.node k = f.node k
  /-- No node is made, and none is torn down. -/
  size : f'.size = f.size
  torn : f'.torn = f.torn

namespace WellFormed

variable (wf : f.WellFormed)

include wf

/-- A node that was taken from its old parent and linked below a new one. -/
theorem node_link_uproot (hp : p < f.size) (hn : n < f.size) (cs : List Handle) (k : Handle) :
    ((f.uproot n).link p n cs).node k = { f.node k with
      parent := if k = n then some p else f.parent k
      children := if k = p then cs else (f.children k).erase n } := by
  rw [node_link (by simpa using hp) (by simpa using hn), parent, children, wf.node_uproot]
  by_cases hk : k = n <;> simp [hk]

/-- Linking an insertable node that was taken from its old parent moves it. -/
theorem moved (hp : p < f.size) (hn : n < f.size) (insertable : f.Insertable p n) {place : Place}
    (puts : place.Puts n ((f.children p).erase n) cs) :
    f.Moved ((f.uproot n).link p n cs) p n place := by
  have node := wf.node_link_uproot hp hn cs
  have ne : n ≠ p := by
    rintro rfl
    exact insertable.notOver (.refl f n)
  have children : ((f.uproot n).link p n cs).children p = cs := by
    rw [Forest.children, node, if_pos rfl]
  have linked : ∀ {k}, k ≠ n → k ≠ p →
      ((f.uproot n).link p n cs).node k = (f.uproot n).node k := by
    intro k hkn hkp
    rw [node, if_neg hkn, if_neg hkp, wf.node_uproot, if_neg hkn]
  have others : ∀ k, k ≠ n → k ≠ p → f.parent n ≠ some k →
      ((f.uproot n).link p n cs).node k = f.node k := fun k hkn hkp old =>
    (linked hkn hkp).trans (wf.node_uproot_of_ne hkn old)
  have unlisted : n ∉ f.children n := fun hm => wf.parent_ne ((wf.linked n n).2 hm) rfl
  refine ⟨?_, ?_, ?_, fun q hq hqp => ?_, others, fun k hover hk => others k hk ?_ ?_, by simp, ?_⟩
  · rw [children]
    exact puts
  · rw [node, if_pos rfl, if_neg ne, List.erase_of_not_mem unlisted]
    rfl
  · rw [children, node, if_neg ne.symm, if_pos rfl]
    rfl
  · rw [linked (wf.parent_ne hq) hqp]
    exact wf.exists_node_uproot hq
  · rintro rfl
    exact insertable.notOver hover
  · intro old
    exact wf.not_over_parent old hover
  · exact torn_uproot f n

/-- Inserting a node that fits moves it. -/
theorem run_insertion (hp : p < f.size) (hn : n < f.size) {place : Place}
    (fitting : f.Fitting p n place) :
    ∃ f', (place.insertion p n).run.run f = .ok n f' ∧ f.Moved f' p n place := by
  obtain ⟨insertable, beside⟩ := fitting
  have others : (f.uproot n).children p = (f.children p).erase n := by
    rw [children, wf.node_uproot]
  have done : ∀ {x : TreeM Unit} {g : Forest}, x.run f = .ok () g →
      (do x; return n : TreeM Handle).run f = .ok n g := by
    intro x g hx
    rw [EStateM.run_bind, hx]
    rfl
  cases place with
  | first =>
      refine ⟨_, done (wf.run_prepend hp insertable), wf.moved hp hn insertable ?_⟩
      rw [others]
      exact .first
  | last =>
      refine ⟨_, done (wf.run_append hp insertable), wf.moved hp hn insertable ?_⟩
      rw [others]
      exact .last
  | before r =>
      obtain ⟨ne, member⟩ := beside r rfl
      obtain ⟨i, entry, hrun⟩ := wf.run_insertBeside hp insertable ne ((wf.linked p r).2 member) 0
      refine ⟨_, done hrun, wf.moved hp hn insertable ?_⟩
      rw [others] at entry ⊢
      exact Place.puts_before entry
  | after r =>
      obtain ⟨ne, member⟩ := beside r rfl
      obtain ⟨i, entry, hrun⟩ := wf.run_insertBeside hp insertable ne ((wf.linked p r).2 member) 1
      refine ⟨_, done hrun, wf.moved hp hn insertable ?_⟩
      rw [others] at entry ⊢
      exact Place.puts_after entry

/-- Inserting a node that does not fit is refused. -/
theorem run_insertion_of_not (hp : p < f.size) {place : Place}
    (known : ∀ r ∈ place.reference?, r < f.size) (unfit : ¬ f.Fitting p n place) :
    ∃ e, (place.insertion p n).run.run f = .error e f := by
  have refused : ∀ {x : TreeM Unit}, (∃ e, x.run f = .error e f) →
      ∃ e, (do x; return n : TreeM Handle).run f = .error e f := by
    rintro x ⟨e, hx⟩
    exact ⟨e, by rw [EStateM.run_bind, hx]⟩
  have beside : ∀ r shift, r < f.size → ¬ (f.Insertable p n ∧ r ≠ n ∧ r ∈ f.children p) →
      ∃ e, (insertBeside p n (.node r) shift).run f = .error e f := by
    intro r shift hr unfit
    have inside : ∀ k, Arg.node r = .node k → k < f.size := by
      rintro _ ⟨⟩
      exact hr
    rcases wf.insertBeside_cases hp n inside shift with h | ⟨hi, _, _, ⟨⟩, ne, hrp, -⟩
    · exact h
    · exact absurd ⟨hi, ne, (wf.linked p r).1 hrp⟩ unfit
  cases place with
  | first =>
      exact refused ((wf.prepend_cases hp n).resolve_right fun h => unfit ⟨h.1, nofun⟩)
  | last =>
      exact refused ((wf.append_cases hp n).resolve_right fun h => unfit ⟨h.1, nofun⟩)
  | before r =>
      refine refused (beside r 0 (known r rfl) fun h => unfit ⟨h.1, ?_⟩)
      rintro _ ⟨⟩
      exact h.2
  | after r =>
      refine refused (beside r 1 (known r rfl) fun h => unfit ⟨h.1, ?_⟩)
      rintro _ ⟨⟩
      exact h.2

end WellFormed

/-- In a well-formed forest, inserting a node at a place below another succeeds exactly if the node
is neither a root nor destroyed, is neither the other nor one of its ancestors, and the child
that names the place is another child of the new parent.  If it succeeds, the node has moved there,
and nothing else has happened. -/
theorem insertion_moves (wf : f.WellFormed) (hp : p < f.size) (hn : n < f.size) (place : Place)
    (known : ∀ r ∈ place.reference?, r < f.size) :
    ((∃ h f', (place.insertion p n).run.run f = .ok h f') ↔
        (f.node n).kind ≠ rootKind ∧ (f.node n).destroyed = false ∧ ¬ f.Over n p
          ∧ ∀ r ∈ place.reference?, r ≠ n ∧ r ∈ f.children p)
      ∧ ∀ h f', (place.insertion p n).run.run f = .ok h f' → h = n ∧ f.Moved f' p n place := by
  by_cases fitting : f.Fitting p n place
  · obtain ⟨f', hrun, moved⟩ := wf.run_insertion hp hn fitting
    refine ⟨⟨fun _ => ?_, fun _ => ⟨n, f', hrun⟩⟩, fun h g hg => ?_⟩
    · obtain ⟨⟨kind, alive, notOver⟩, beside⟩ := fitting
      exact ⟨kind, alive, notOver, beside⟩
    · rw [hrun] at hg
      cases hg
      exact ⟨rfl, moved⟩
  · obtain ⟨e, hrun⟩ := wf.run_insertion_of_not hp known fitting
    refine ⟨⟨fun ⟨h, g, hg⟩ => ?_, fun ⟨kind, alive, notOver, beside⟩ => ?_⟩, fun h g hg => ?_⟩
    · rw [hrun] at hg
      cases hg
    · exact absurd ⟨⟨kind, alive, notOver⟩, beside⟩ fitting
    · rw [hrun] at hg
      cases hg

/-- A root with three elements, the first of which holds a text. -/
def siblings : Forest :=
  edited {} [.create .root, .create (.plain none), .create (.plain none), .create (.plain none),
    .create (.text [97] none), .append 0 (.node 1), .append 0 (.node 2), .append 0 (.node 3),
    .append 1 (.node 4)]

/-- The first element goes directly before the third one, which has then moved up. -/
theorem insertion_moves_siblings :
    siblings.WellFormed ∧ ∃ f', ((Place.before 3).insertion 0 1).run.run siblings = .ok 1 f'
      ∧ siblings.Moved f' 0 1 (.before 3) ∧ f'.children 0 = [2, 1, 3] ∧ f'.children 1 = [4] := by
  have wf : siblings.WellFormed := .edited _ (.of_size_eq_zero rfl) (by decide)
  have known : ∀ r ∈ (Place.before 3).reference?, r < siblings.size := by
    rintro _ ⟨⟩
    decide
  have notOver : ¬ siblings.Over 1 0 := fun hover => absurd (hover.eq_of_parent_none rfl) (by decide)
  have beside : ∀ r ∈ (Place.before 3).reference?, r ≠ 1 ∧ r ∈ siblings.children 0 := by
    rintro _ ⟨⟩
    decide
  have settled := insertion_moves wf (by decide : 0 < siblings.size) (by decide : 1 < siblings.size)
    (.before 3) known
  obtain ⟨h, f', hrun⟩ := settled.1.2 ⟨by decide, by decide, notOver, beside⟩
  obtain ⟨rfl, moved⟩ := settled.2 h f' hrun
  refine ⟨wf, f', hrun, moved, ?_⟩
  rw [← after_of_ok hrun]
  decide

end Forest

end Needlework
