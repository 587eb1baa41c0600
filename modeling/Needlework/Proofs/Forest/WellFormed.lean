import Mathlib.Data.List.Nodup
import Mathlib.Data.List.Perm.Subperm
import Mathlib.Logic.Relation
import Needlework.Forest.Edit

/-!
# Well-formed forests

A forest is well-formed when the two records of a link agree and nothing odd is
linked.

* A node records a parent exactly when that parent lists it, and no list of
  children repeats an entry.  Hence a node is listed in one place only.
* No node is above itself.
* Roots and destroyed nodes have no parent.
* No two nodes share an id, and every id has been given out.

Every edit is made of four changes of the table: a link is cut (`unlink`), a link
is made (`link`), a node is added, and a node is changed without touching its links
(`LinksAgree`).  The lemmas below say when each of them keeps a forest well-formed.

*Ancestry.*  `f.Over a d` says that `a` is `d` or above it.  The lineage of a node
lists exactly what is over it (`WellFormed.mem_lineage_iff`): a lineage repeats no
node, so it is shorter than the bound on the climb.
-/

namespace Needlework

open Relation

namespace Forest

variable {f f' : Forest} {a b c d h n p : Handle}

/-! ## Reading the table -/

theorem node_of_size_le (hk : f.size ≤ h) : f.node h = .vacant := by
  simp [node, Array.getElem?_eq_none (show f.nodes.size ≤ h from hk)]

theorem lt_size_of_parent (hp : f.parent c = some p) : c < f.size := by
  by_contra hc
  rw [parent, node_of_size_le (Nat.le_of_not_lt hc)] at hp
  cases hp

theorem lt_size_of_mem_children (hc : c ∈ f.children p) : p < f.size := by
  by_contra hp
  rw [children, node_of_size_le (Nat.le_of_not_lt hp)] at hc
  cases hc

@[simp] theorem size_setChildren (f : Forest) (p : Handle) (cs : List Handle) :
    (f.setChildren p cs).size = f.size := size_update ..

@[simp] theorem size_setParent (f : Forest) (c : Handle) (o : Option Handle) :
    (f.setParent c o).size = f.size := size_update ..

/-! ## Ancestry -/

/-- `a` is `d` or one of its ancestors. -/
def Over (f : Forest) (a d : Handle) : Prop :=
  ReflTransGen (fun c p => f.parent c = some p) d a

/-- `a` is an ancestor of `d`. -/
def ProperlyOver (f : Forest) (a d : Handle) : Prop :=
  TransGen (fun c p => f.parent c = some p) d a

theorem Over.refl (f : Forest) (h : Handle) : f.Over h h := ReflTransGen.refl

theorem Over.trans (hab : f.Over a b) (hbd : f.Over b d) : f.Over a d :=
  ReflTransGen.trans hbd hab

theorem Over.of_parent (hp : f.parent c = some p) : f.Over p c := ReflTransGen.single hp

/-- What is over a node is the node or over its parent. -/
theorem over_iff : f.Over a d ↔ a = d ∨ ∃ p, f.parent d = some p ∧ f.Over a p := by
  constructor
  · intro h
    rcases ReflTransGen.cases_head h with rfl | ⟨p, hp, hap⟩
    · exact .inl rfl
    · exact .inr ⟨p, hp, hap⟩
  · rintro (rfl | ⟨p, hp, hap⟩)
    · exact Over.refl f a
    · exact hap.trans (Over.of_parent hp)

theorem Over.eq_of_parent_none (h : f.Over a d) (hd : f.parent d = none) : a = d := by
  rcases over_iff.1 h with rfl | ⟨p, hp, -⟩
  · rfl
  · rw [hd] at hp
    cases hp

/-- Two nodes over a third are one over the other. -/
theorem Over.total (ha : f.Over a d) (hb : f.Over b d) : f.Over a b ∨ f.Over b a := by
  induction ha using ReflTransGen.head_induction_on with
  | refl => exact .inr hb
  | head hp hap ih =>
      rcases over_iff.1 hb with rfl | ⟨q, hq, hbq⟩
      · exact .inl (ReflTransGen.head hp hap)
      · rw [hp] at hq
        cases hq
        exact ih hbq

/-- Ancestry reads the parents only. -/
theorem Over.of_parent_eq (hf : ∀ k, f.Over k d → f'.parent k = f.parent k) (h : f.Over a d) :
    f'.Over a d := by
  induction h using ReflTransGen.head_induction_on with
  | refl => exact Over.refl f' a
  | head hp hap ih =>
      have hp' := hf _ (Over.refl f _)
      refine (ih fun k hk => hf k (hk.trans (Over.of_parent hp))).trans (Over.of_parent ?_)
      rw [hp', hp]

/-! ## The invariant -/

/-- The records of the links agree, and nothing odd is linked. -/
structure WellFormed (f : Forest) : Prop where
  /-- The parent lists the node, and only the parent does. -/
  linked : ∀ p c, f.parent c = some p ↔ c ∈ f.children p
  /-- No list of children repeats an entry. -/
  once : ∀ p, (f.children p).Nodup
  /-- No node is above itself. -/
  acyclic : ∀ h, ¬ f.ProperlyOver h h
  /-- Roots have no parent. -/
  rootFree : ∀ h, (f.node h).kind = rootKind → f.parent h = none
  /-- Destroyed nodes have no parent. -/
  destroyedFree : ∀ h, (f.node h).destroyed = true → f.parent h = none
  /-- No two nodes share an id. -/
  distinct : ∀ h k, h < f.size → k < f.size → f.idOf h = f.idOf k → h = k
  /-- Every id has been given out. -/
  issued : ∀ h, h < f.size → f.idOf h < f.nextId

namespace WellFormed

theorem lt_size (wf : f.WellFormed) (hc : c ∈ f.children p) : c < f.size :=
  lt_size_of_parent ((wf.linked p c).2 hc)

theorem parent_lt_size (wf : f.WellFormed) (hp : f.parent c = some p) : p < f.size :=
  lt_size_of_mem_children ((wf.linked p c).1 hp)

theorem not_mem_of_parent_none (wf : f.WellFormed) (hc : f.parent c = none) :
    c ∉ f.children p := by
  intro hm
  rw [← wf.linked, hc] at hm
  cases hm

/-- Nothing is over its own parent. -/
theorem not_over_parent (wf : f.WellFormed) (hp : f.parent c = some p) : ¬ f.Over c p :=
  fun h => wf.acyclic c (TransGen.head' hp h)

/-- A node is not its own parent. -/
theorem parent_ne (wf : f.WellFormed) (hp : f.parent c = some p) : p ≠ c := by
  rintro rfl
  exact wf.not_over_parent hp (.refl f p)

/-- Nothing is below two children of one parent. -/
theorem siblings_disjoint (wf : f.WellFormed) (hb : f.parent b = some p) (hc : f.parent c = some p)
    (hbd : f.Over b d) (hcd : f.Over c d) : b = c := by
  have side : ∀ {x y}, f.parent x = some p → f.parent y = some p → f.Over x y → x = y := by
    intro x y hx hy hxy
    rcases over_iff.1 hxy with rfl | ⟨q, hq, hxq⟩
    · rfl
    · rw [hy] at hq
      cases hq
      exact absurd hxq (wf.not_over_parent hx)
  rcases hbd.total hcd with h | h
  · exact side hb hc h
  · exact (side hc hb h).symm

theorem parent_of_lastChild? (wf : f.WellFormed) (last : f.lastChild? p = some c) :
    f.parent c = some p :=
  (wf.linked p c).2 (List.mem_of_getLast? last)

/-- The last child of a node has it as its parent. -/
theorem parent_last (wf : f.WellFormed) {cs : List Handle} (hcs : f.children p = cs ++ [c]) :
    f.parent c = some p := by
  rw [wf.linked, hcs]
  exact List.mem_append_right _ (List.mem_singleton_self c)

/-- So have the children before the last one. -/
theorem parent_of_mem_front (wf : f.WellFormed) {cs : List Handle} (hcs : f.children p = cs ++ [c])
    (hb : b ∈ cs) : f.parent b = some p := by
  rw [wf.linked, hcs]
  exact List.mem_append_left _ hb

/-- What is below an earlier child is not below the last one. -/
theorem not_over_last (wf : f.WellFormed) {cs : List Handle} (hcs : f.children p = cs ++ [c])
    (hb : b ∈ cs) (hbd : f.Over b d) : ¬ f.Over c d := by
  intro hcd
  have equal := wf.siblings_disjoint (wf.parent_of_mem_front hcs hb) (wf.parent_last hcs) hbd hcd
  have nodup := wf.once p
  rw [hcs] at nodup
  exact (List.nodup_append.mp nodup).2.2 b hb c (List.mem_singleton_self c) equal

/-! ## Lineages -/

theorem over_of_mem_climb : ∀ {n : Nat} {h : Handle}, a ∈ f.climb n h → f.Over a h
  | 0, _, ha => by simp [climb] at ha
  | n + 1, h, ha => by
      rw [climb] at ha
      cases hp : f.parent h with
      | none =>
          rw [hp] at ha
          rw [List.mem_singleton.1 ha]
          exact Over.refl f h
      | some p =>
          rw [hp] at ha
          rcases List.mem_cons.1 ha with rfl | ha
          · exact Over.refl f _
          · exact (over_of_mem_climb ha).trans (Over.of_parent hp)

/-- A climb repeats no node if no node on the way is above itself. -/
theorem nodup_climb : ∀ (n : Nat) (h : Handle), (∀ x, f.Over x h → ¬ f.ProperlyOver x x) →
    (f.climb n h).Nodup
  | 0, _, _ => List.nodup_nil
  | n + 1, h, acyclic => by
      rw [climb]
      cases hp : f.parent h with
      | none => exact List.nodup_singleton h
      | some p =>
          refine List.nodup_cons.2 ⟨fun hm => ?_, nodup_climb n p fun x hx => ?_⟩
          · exact acyclic h (Over.refl f h) (TransGen.head' hp (over_of_mem_climb hm))
          · exact acyclic x (hx.trans (Over.of_parent hp))

/-- A climb that is cut short used all of its steps. -/
theorem mem_climb_or_length (ha : f.Over a h) :
    ∀ n : Nat, a ∈ f.climb n h ∨ (f.climb n h).length = n := by
  induction ha using ReflTransGen.head_induction_on with
  | refl =>
      intro n
      cases n with
      | zero => exact .inr rfl
      | succ n =>
          refine .inl ?_
          rw [climb]
          cases f.parent a <;> simp
  | head hp _ ih =>
      intro n
      cases n with
      | zero => exact .inr rfl
      | succ n =>
          rw [climb, hp]
          rcases ih n with hm | hl
          · exact .inl (List.mem_cons_of_mem _ hm)
          · exact .inr (by simp [hl])

/-- A climb that did not use all of its steps is not longer with one more. -/
theorem climb_succ_of_length_lt : ∀ {n : Nat} {h : Handle}, (f.climb n h).length < n →
    f.climb (n + 1) h = f.climb n h
  | 0, _, short => absurd short (Nat.not_lt_zero _)
  | n + 1, h, short => by
      rw [climb] at short
      rw [climb, climb]
      cases hp : f.parent h with
      | none => rfl
      | some p =>
          rw [hp] at short
          exact congrArg (h :: ·) (climb_succ_of_length_lt (Nat.lt_of_succ_lt_succ short))

section
variable (acyclic : ∀ x, f.Over x h → ¬ f.ProperlyOver x x)
  (above : ∀ c p, f.parent c = some p → p < f.size) (hh : h < f.size)

include acyclic above hh

/-- A climb that repeats no node is no longer than the table. -/
theorem length_climb_le (n : Nat) : (f.climb n h).length ≤ f.size := by
  have hsub : f.climb n h ⊆ List.range f.size := by
    intro x hx
    rw [List.mem_range]
    -- What is over a node of the table is in the table, as a parent of something.
    rcases ReflTransGen.cases_tail (over_of_mem_climb hx) with rfl | ⟨y, -, hy⟩
    · exact hh
    · exact above y x hy
  have hle := (List.Nodup.subperm (nodup_climb n h acyclic) hsub).length_le
  rwa [List.length_range] at hle

/-- The lineage of a node lists what is over it, if no node on the way is above itself. -/
theorem mem_lineage_iff_of_acyclic : a ∈ f.lineage h ↔ f.Over a h := by
  refine ⟨over_of_mem_climb, fun ha => ?_⟩
  rcases mem_climb_or_length ha (f.size + 1) with hm | hl
  · exact hm
  · have hle := length_climb_le acyclic above hh (f.size + 1)
    omega

end

/-- The lineage of a node lists what is over it. -/
theorem mem_lineage_iff (wf : f.WellFormed) (hh : h < f.size) :
    a ∈ f.lineage h ↔ f.Over a h :=
  mem_lineage_iff_of_acyclic (fun x _ => wf.acyclic x) (fun _ _ hp => wf.parent_lt_size hp) hh

/-- A child has one ancestor more than its parent. -/
theorem depth_of_parent (wf : f.WellFormed) (hp : f.parent c = some p) :
    f.depth c = f.depth p + 1 := by
  have lineage : f.lineage c = c :: f.climb f.size p := by rw [Forest.lineage, climb, hp]
  have short : (f.lineage c).length ≤ f.size :=
    length_climb_le (fun x _ => wf.acyclic x) (fun _ _ hq => wf.parent_lt_size hq)
      (lt_size_of_parent hp) _
  rw [lineage, List.length_cons] at short
  have same : f.lineage p = f.climb f.size p := climb_succ_of_length_lt short
  have itself : p ∈ f.lineage p := (wf.mem_lineage_iff (wf.parent_lt_size hp)).2 (Over.refl f p)
  have one := List.length_pos_of_mem itself
  rw [depth, depth, lineage, same, List.length_cons]
  rw [same] at one
  omega

end WellFormed

/-! ## Changing the table -/

/-- Cut the link between a parent and a child. -/
def unlink (f : Forest) (p c : Handle) : Forest :=
  (f.setChildren p ((f.children p).erase c)).setParent c none

/-- Make a node a child, among the given children. -/
def link (f : Forest) (p n : Handle) (cs : List Handle) : Forest :=
  (f.setChildren p cs).setParent n (some p)

theorem node_setChildren (hp : p < f.size) (cs : List Handle) (k : Handle) :
    (f.setChildren p cs).node k
      = { f.node k with children := if k = p then cs else f.children k } := by
  rw [setChildren, node_update]
  by_cases hk : k = p
  · subst hk
    simp [hp]
  · simp [hk, children]

theorem node_setParent (hc : c < f.size) (o : Option Handle) (k : Handle) :
    (f.setParent c o).node k = { f.node k with parent := if k = c then o else f.parent k } := by
  rw [setParent, node_update]
  by_cases hk : k = c
  · subst hk
    simp [hc]
  · simp [hk, parent]

theorem node_unlink (hp : p < f.size) (hc : c < f.size) (k : Handle) :
    (f.unlink p c).node k = { f.node k with
      parent := if k = c then none else f.parent k
      children := if k = p then (f.children p).erase c else f.children k } := by
  rw [unlink, node_setParent (by simpa using hc), parent, node_setChildren hp]
  rfl

theorem node_link (hp : p < f.size) (hn : n < f.size) (cs : List Handle) (k : Handle) :
    (f.link p n cs).node k = { f.node k with
      parent := if k = n then some p else f.parent k
      children := if k = p then cs else f.children k } := by
  rw [link, node_setParent (by simpa using hn), parent, node_setChildren hp]
  rfl

theorem parent_unlink (hp : p < f.size) (hc : c < f.size) (k : Handle) :
    (f.unlink p c).parent k = if k = c then none else f.parent k := by
  rw [parent, node_unlink hp hc]

theorem children_unlink (hp : p < f.size) (hc : c < f.size) (k : Handle) :
    (f.unlink p c).children k = if k = p then (f.children p).erase c else f.children k := by
  rw [children, node_unlink hp hc]

theorem parent_link (hp : p < f.size) (hn : n < f.size) (cs : List Handle) (k : Handle) :
    (f.link p n cs).parent k = if k = n then some p else f.parent k := by
  rw [parent, node_link hp hn]

theorem children_link (hp : p < f.size) (hn : n < f.size) (cs : List Handle) (k : Handle) :
    (f.link p n cs).children k = if k = p then cs else f.children k := by
  rw [children, node_link hp hn]

theorem parent_size (f : Forest) : f.parent f.size = none := by
  rw [parent, node_of_size_le (Nat.le_refl _)]
  rfl

theorem children_size (f : Forest) : f.children f.size = [] := by
  rw [children, node_of_size_le (Nat.le_refl _)]
  rfl

/-- A new node has no links. -/
theorem parent_add (f : Forest) (bp : Blueprint) (k : Handle) :
    (f.add bp).2.parent k = f.parent k := by
  rw [parent, node_add]
  split
  next hk => rw [hk, parent, node_of_size_le (Nat.le_refl _)]; rfl
  next => rfl

theorem children_add (f : Forest) (bp : Blueprint) (k : Handle) :
    (f.add bp).2.children k = f.children k := by
  rw [children, node_add]
  split
  next hk => rw [hk, children, node_of_size_le (Nat.le_refl _)]; rfl
  next => rfl

theorem node_unlink_of_ne (hp : p < f.size) (hc : c < f.size) {k : Handle} (hkp : k ≠ p)
    (hkc : k ≠ c) : (f.unlink p c).node k = f.node k := by
  rw [node_unlink hp hc, if_neg hkc, if_neg hkp]
  rfl

theorem node_link_of_ne (hp : p < f.size) (hn : n < f.size) {cs : List Handle} {k : Handle}
    (hkp : k ≠ p) (hkn : k ≠ n) : (f.link p n cs).node k = f.node k := by
  rw [node_link hp hn, if_neg hkn, if_neg hkp]
  rfl

@[simp] theorem size_unlink (f : Forest) (p c : Handle) : (f.unlink p c).size = f.size := by
  simp [unlink]

@[simp] theorem size_link (f : Forest) (p n : Handle) (cs : List Handle) :
    (f.link p n cs).size = f.size := by
  simp [link]

namespace WellFormed

/-- The last child is in no other place of the list. -/
theorem not_mem_front (wf : f.WellFormed) {ds : List Handle} (children : f.children p = ds ++ [c]) :
    c ∉ ds := by
  have once := wf.once p
  rw [children] at once
  exact fun hm => (List.nodup_append.1 once).2.2 c hm c (List.mem_singleton_self c) rfl

/-- Without its last child a node has the ones before. -/
theorem children_unlink_last (wf : f.WellFormed) {ds : List Handle}
    (children : f.children p = ds ++ [c]) : (f.unlink p c).children p = ds := by
  have parent := wf.parent_last children
  rw [children_unlink (wf.parent_lt_size parent) (lt_size_of_parent parent), if_pos rfl,
    children, List.erase_append_right _ (wf.not_mem_front children), List.erase_cons_head,
    List.append_nil]

end WellFormed

/-- Two forests agree on their links, their ids and their kinds. -/
structure LinksAgree (f f' : Forest) : Prop where
  size : f'.size = f.size
  nextId : f'.nextId = f.nextId
  parent : ∀ k, f'.parent k = f.parent k
  children : ∀ k, f'.children k = f.children k
  idOf : ∀ k, f'.idOf k = f.idOf k
  kind : ∀ k, (f'.node k).kind = (f.node k).kind

/-- A change of a node that leaves its links, id and kind alone. -/
theorem LinksAgree.update {change : Node → Node}
    (hc : ∀ m : Node, (change m).parent = m.parent ∧ (change m).children = m.children
      ∧ (change m).id = m.id ∧ (change m).kind = m.kind) :
    LinksAgree f (f.update h change) where
  size := size_update ..
  nextId := rfl
  parent k := by
    rw [Forest.parent, node_update]
    split
    · exact (hc _).1
    · rfl
  children k := by
    rw [Forest.children, node_update]
    split
    · exact (hc _).2.1
    · rfl
  idOf k := by
    rw [Forest.idOf, node_update]
    split
    · exact (hc _).2.2.1
    · rfl
  kind k := by
    rw [node_update]
    split
    · exact (hc _).2.2.2
    · rfl

namespace WellFormed

/-- Nothing is wrong with the empty table. -/
theorem of_size_eq_zero (hf : f.size = 0) : f.WellFormed := by
  have hv : ∀ k, f.node k = .vacant := fun k => node_of_size_le (by omega)
  have hp : ∀ k, f.parent k = none := fun k => by rw [parent, hv]; rfl
  have hc : ∀ k, f.children k = [] := fun k => by rw [children, hv]; rfl
  refine ⟨fun p c => by simp [hp, hc], fun p => by simp [hc], fun k hk => ?_, fun k _ => hp k,
    fun k _ => hp k, fun h k hh => by omega, fun h hh => by omega⟩
  obtain ⟨q, hq, -⟩ := TransGen.head'_iff.1 hk
  rw [hp] at hq
  cases hq

/-- A change that leaves the links alone may only destroy nodes without a parent. -/
theorem of_linksAgree (wf : f.WellFormed) (hf : LinksAgree f f')
    (hd : ∀ k, (f'.node k).destroyed = true → f.parent k = none) : f'.WellFormed where
  linked p c := by rw [hf.parent, hf.children]; exact wf.linked p c
  once p := by rw [hf.children]; exact wf.once p
  acyclic h hh := wf.acyclic h (TransGen.mono (fun x y hxy => (hf.parent x).symm.trans hxy) _ _ hh)
  rootFree h hh := by rw [hf.parent]; exact wf.rootFree h (by rw [← hf.kind]; exact hh)
  destroyedFree h hh := by rw [hf.parent]; exact hd h hh
  distinct h k hh hk := by
    rw [hf.size] at hh hk
    rw [hf.idOf, hf.idOf]
    exact wf.distinct h k hh hk
  issued h hh := by
    rw [hf.size] at hh
    rw [hf.idOf, hf.nextId]
    exact wf.issued h hh

/-- Cutting a link keeps a forest well-formed. -/
theorem unlink (wf : f.WellFormed) (hp : f.parent c = some p) : (f.unlink p c).WellFormed := by
  have node := node_unlink (wf.parent_lt_size hp) (lt_size_of_parent hp)
  have parent := parent_unlink (wf.parent_lt_size hp) (lt_size_of_parent hp)
  have children := children_unlink (wf.parent_lt_size hp) (lt_size_of_parent hp)
  have weaker : ∀ {x y}, (f.unlink p c).parent x = some y → f.parent x = some y := by
    intro x y hxy
    rw [parent] at hxy
    split at hxy
    · cases hxy
    · exact hxy
  refine ⟨fun q k => ?_, fun q => ?_, fun h hh => ?_, fun h hh => ?_, fun h hh => ?_,
    fun h k hh hk => ?_, fun h hh => ?_⟩
  · rw [parent, children]
    by_cases hkc : k = c
    · subst hkc
      by_cases hqp : q = p
      · subst hqp
        simp [(wf.once q).mem_erase_iff]
      · simp only [if_true, hqp, if_false, ← wf.linked, hp]
        simp [Ne.symm hqp]
    · by_cases hqp : q = p
      · subst hqp
        simp [hkc, List.mem_erase_of_ne hkc, wf.linked]
      · simp [hkc, hqp, wf.linked]
  · rw [children]
    split
    · exact (wf.once p).erase c
    · exact wf.once q
  · exact wf.acyclic h (TransGen.mono (fun x y hxy => weaker hxy) _ _ hh)
  · rw [node] at hh
    rw [parent, wf.rootFree h hh, ite_self]
  · rw [node] at hh
    rw [parent, wf.destroyedFree h hh, ite_self]
  · simp only [size_unlink] at hh hk
    rw [idOf, idOf, node, node]
    exact wf.distinct h k hh hk
  · rw [size_unlink] at hh
    rw [idOf, node]
    exact wf.issued h hh

/-- What is over a node after a new link was over it before, or is over the new
parent of something that is. -/
theorem over_of_over_link (hp : p < f.size) (hn : n < f.size) {cs : List Handle}
    (h : (f.link p n cs).Over a d) : f.Over a d ∨ (f.Over n d ∧ f.Over a p) := by
  induction h with
  | refl => exact .inl (Over.refl f d)
  | @tail x y _ hxy ih =>
      rw [parent_link hp hn] at hxy
      split at hxy
      next hxn =>
        cases hxy
        subst hxn
        refine .inr ⟨?_, Over.refl f p⟩
        rcases ih with ih | ih
        · exact ih
        · exact ih.1
      next =>
        have hyx := Over.of_parent hxy
        rcases ih with ih | ih
        · exact .inl (hyx.trans ih)
        · exact .inr ⟨ih.1, hyx.trans ih.2⟩

/-- Linking a node without a parent below something that it is not over keeps a
forest well-formed. -/
theorem link (wf : f.WellFormed) (hp : p < f.size) (hn : n < f.size) (hfree : f.parent n = none)
    (hkind : (f.node n).kind ≠ rootKind) (hdestroyed : (f.node n).destroyed = false)
    (hover : ¬ f.Over n p) {cs : List Handle} (hcs : cs.Perm (n :: f.children p)) :
    (f.link p n cs).WellFormed := by
  have node := node_link hp hn cs
  have parent := parent_link hp hn cs
  have children := children_link hp hn cs
  refine ⟨fun q k => ?_, fun q => ?_, fun h hh => ?_, fun h hh => ?_, fun h hh => ?_,
    fun h k hh hk => ?_, fun h hh => ?_⟩
  · rw [parent, children]
    by_cases hkn : k = n
    · subst hkn
      by_cases hqp : q = p
      · subst hqp
        simp [hcs.mem_iff]
      · simp only [if_true, hqp, if_false, ← wf.linked, hfree]
        simp [Ne.symm hqp]
    · by_cases hqp : q = p
      · subst hqp
        simp [hkn, hcs.mem_iff, wf.linked]
      · simp [hkn, hqp, wf.linked]
  · rw [children]
    split
    · rw [hcs.nodup_iff]
      exact List.nodup_cons.2 ⟨wf.not_mem_of_parent_none hfree, wf.once p⟩
    · exact wf.once q
  · -- A cycle would pass through the new link, from `n` to `p` and back to `n`.
    obtain ⟨q, hq, hqh⟩ := TransGen.head'_iff.1 hh
    rw [parent] at hq
    have hover' := over_of_over_link hp hn (show (f.link p n cs).Over h q from hqh)
    split at hq
    next hhn =>
      cases hq
      subst hhn
      rcases hover' with ho | ho
      · exact hover ho
      · exact hover ho.1
    next =>
      rcases hover' with ho | ho
      · exact wf.not_over_parent hq ho
      · exact hover (ho.1.trans ((Over.of_parent hq).trans ho.2))
  · rw [node] at hh
    have hne : h ≠ n := fun hk => hkind (hk ▸ hh)
    rw [parent, if_neg hne, wf.rootFree h hh]
  · rw [node] at hh
    have hne : h ≠ n := by
      intro hk
      rw [hk, hdestroyed] at hh
      cases hh
    rw [parent, if_neg hne, wf.destroyedFree h hh]
  · simp only [size_link] at hh hk
    rw [idOf, idOf, node, node]
    exact wf.distinct h k hh hk
  · rw [size_link] at hh
    rw [idOf, node]
    exact wf.issued h hh

/-- A new node has the next id and no links. -/
theorem add (wf : f.WellFormed) (bp : Blueprint) : (f.add bp).2.WellFormed := by
  have parent := f.parent_add bp
  have children := f.children_add bp
  have isolated := parent_size f
  have id : ∀ k, (f.add bp).2.idOf k = if k = f.size then (f.nextId : Int) else f.idOf k := by
    intro k
    rw [idOf, node_add]
    split
    · rfl
    · rfl
  refine ⟨fun p c => ?_, fun p => ?_, fun h hh => ?_, fun h hh => ?_, fun h hh => ?_,
    fun h k hh hk hid => ?_, fun h hh => ?_⟩
  · rw [parent, children]
    exact wf.linked p c
  · rw [children]
    exact wf.once p
  · exact wf.acyclic h (TransGen.mono (fun x y hxy => (parent x).symm.trans hxy) _ _ hh)
  · rw [parent]
    by_cases hk : h = f.size
    · rw [hk, isolated]
    · rw [node_add, if_neg hk] at hh
      exact wf.rootFree h hh
  · rw [parent]
    by_cases hk : h = f.size
    · rw [hk, isolated]
    · rw [node_add, if_neg hk] at hh
      exact wf.destroyedFree h hh
  · rw [id, id] at hid
    rw [size_add] at hh hk
    by_cases hhs : h = f.size <;> by_cases hks : k = f.size
    · rw [hhs, hks]
    · rw [if_pos hhs, if_neg hks] at hid
      have := wf.issued k (by omega)
      omega
    · rw [if_neg hhs, if_pos hks] at hid
      have := wf.issued h (by omega)
      omega
    · rw [if_neg hhs, if_neg hks] at hid
      exact wf.distinct h k (by omega) (by omega) hid
  · rw [size_add] at hh
    rw [id]
    have hnext : ((f.add bp).2.nextId : Int) = f.nextId + 1 := by simp [Forest.add]
    by_cases hk : h = f.size
    · rw [if_pos hk]
      omega
    · rw [if_neg hk]
      have := wf.issued h (by omega)
      omega

end WellFormed

end Forest

end Needlework
