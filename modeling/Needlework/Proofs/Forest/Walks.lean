import Needlework.Proofs.Forest.Teardowns
import Needlework.Proofs.Forest.Validity

/-!
# Walks with a stack

The queries and the dumps take nodes off a stack and put the children there instead.  The children
stand on top of what was there before, so everything below a node comes off before its later
siblings (`Visits.drain_append`).  The stack gets empty if the preorder comes to an end, and the
nodes come off in this order.

*Steps.*  The stack takes one step for each visit.  A walk that ends has less visits than steps, in
whatever forest (`Visits.length_lt_steps`), and in a well-formed one no more than there are nodes.

*Levels.*  A dump keeps the level of a node beside it.  In a well-formed forest a child has one
ancestor more than its parent, so the level is the difference in depth to the top of the dump
(`WellFormed.drain_outline`).
-/

namespace Needlework.Forest

variable {f : Forest} {a d h : Handle} {hs l : List Handle}

/-! ## The stack -/

/-- What stands on top of a stack comes off in preorder, before all the rest.  The stack may keep
something beside each node, as long as that tells the same of the children. -/
theorem Visits.drain_append {α : Type} {next : α → List α} (visits : f.Visits .pre hs l)
    (tag : Handle → α) (leads : ∀ x ∈ l, next (tag x) = (f.children x).map tag) (n : Nat)
    (seen pending : List α) :
    drain next (l.length + n) seen (hs.map tag ++ pending)
      = drain next n ((l.map tag).reverse ++ seen) pending := by
  induction visits generalizing n seen pending with
  | nil => rw [List.length_nil, Nat.zero_add]; rfl
  | @cons h hs below rest _ _ ihBelow ihRest =>
      rw [WalkOrder.put, List.cons_append] at leads ⊢
      rw [List.forall_mem_cons, List.forall_mem_append] at leads
      obtain ⟨here, first, second⟩ := leads
      have steps : (h :: (below ++ rest)).length + n = below.length + (rest.length + n) + 1 := by
        rw [List.length_cons, List.length_append]
        omega
      calc drain next ((h :: (below ++ rest)).length + n) seen ((h :: hs).map tag ++ pending)
          = drain next (below.length + (rest.length + n)) (tag h :: seen)
              ((f.children h).map tag ++ (hs.map tag ++ pending)) := by
            rw [steps, List.map_cons, List.cons_append, drain, here]
        _ = drain next n ((rest.map tag).reverse ++ ((below.map tag).reverse ++ tag h :: seen))
              pending := by rw [ihBelow first, ihRest second]
        _ = drain next n (((h :: (below ++ rest)).map tag).reverse ++ seen) pending := by simp

/-- A stack gets empty if a preorder comes to an end, with a step for each visit. -/
theorem Visits.drain_eq {α : Type} {next : α → List α} (visits : f.Visits .pre hs l)
    (tag : Handle → α) (leads : ∀ x ∈ l, next (tag x) = (f.children x).map tag) {n : Nat}
    (enough : l.length ≤ n) : drain next n [] (hs.map tag) = some (l.map tag) := by
  obtain ⟨k, rfl⟩ := Nat.exists_eq_add_of_le enough
  have all := visits.drain_append tag leads k [] []
  rw [List.append_nil, List.append_nil] at all
  rw [all, drain, List.reverse_reverse]

/-- What is below a node, without a tag. -/
theorem Visits.drain_children (visits : f.Visits .pre (f.children h) l) {n : Nat}
    (enough : l.length ≤ n) : drain f.children n [] (f.children h) = some l := by
  have all := visits.drain_eq id (fun x _ => (List.map_id _).symm) enough
  rwa [List.map_id, List.map_id] at all

/-- A node comes before what is below it. -/
theorem Visits.node (visits : f.Visits .pre (f.children h) l) : f.Visits .pre [h] (h :: l) := by
  have all := Visits.cons visits .nil
  rwa [List.append_nil] at all

/-! ## Steps -/

theorem length_children_le_links (f : Forest) (h : Handle) : (f.children h).length ≤ f.links := by
  by_cases known : h < f.size
  · rw [links_eq_sum]
    exact Finset.single_le_sum (f := fun k => (f.children k).length) (fun _ _ => Nat.zero_le _)
      (Finset.mem_range.2 known)
  · rw [children, node_of_size_le (Nat.le_of_not_lt known)]
    exact Nat.zero_le _

/-- At each level there are at most as many ways to go on as there are entries. -/
theorem length_walk_lt (f : Forest) (n : Nat) (h : Handle) :
    (f.walk n h).length < (f.links + 2) ^ n := by
  induction n generalizing h with
  | zero => exact Nat.one_pos
  | succ n ih =>
      have below : ((f.children h).flatMap (f.walk n)).length ≤ f.links * (f.links + 2) ^ n := by
        rw [List.length_flatMap]
        refine (List.sum_le_card_nsmul _ ((f.links + 2) ^ n) fun k hk => ?_).trans ?_
        · obtain ⟨c, -, rfl⟩ := List.mem_map.1 hk
          exact Nat.le_of_lt (ih c)
        · rw [List.length_map]
          exact Nat.mul_le_mul_right _ (f.length_children_le_links h)
      have one : 1 ≤ (f.links + 2) ^ n := Nat.one_le_two_pow.trans (Nat.pow_le_pow_left (by omega) n)
      rw [walk, List.length_cons, Nat.pow_succ, Nat.mul_comm, Nat.add_mul]
      omega

/-- Where nothing is below itself, a walk has steps enough. -/
theorem Visits.length_lt_steps (acyclic : ∀ k, f.Below h k → ¬ f.ProperlyBelow k k)
    (visits : f.Visits .pre [h] l) : l.length < f.steps := by
  rw [eq_subtree acyclic visits, subtree]
  exact f.length_walk_lt _ h

/-! ## Well-formed forests -/

namespace WellFormed

variable (wf : f.WellFormed)

include wf

/-- There is a preorder of what is below a node. -/
theorem exists_visits_children (h : Handle) : ∃ l, f.Visits .pre (f.children h) l := by
  obtain ⟨l, visits⟩ := (wf.shallow h).exists_visits .pre
  cases visits with
  | cons below _ => exact ⟨_, below⟩

/-- A preorder of what is below a node has every node once. -/
theorem nodup_of_visits (visits : f.Visits .pre (f.children h) l) : l.Nodup := by
  refine visits.nodup wf ((wf.once h).imp_of_mem fun ha hb ne x hax hbx => ne ?_)
  exact wf.siblings_disjoint ((wf.linked h _).2 ha) ((wf.linked h _).2 hb) hax hbx

/-- There are no more visits than nodes. -/
theorem length_le_of_visits (visits : f.Visits .pre (f.children h) l) : l.length ≤ f.size := by
  have inside : l ⊆ List.range f.size := by
    intro x hx
    rw [List.mem_range]
    obtain ⟨c, hc, below⟩ := visits.mem_iff.1 hx
    rcases Relation.ReflTransGen.cases_head (wf.below_iff_over.1 below) with rfl | ⟨y, hy, -⟩
    · exact lt_size_of_parent ((wf.linked h _).2 hc)
    · exact lt_size_of_parent hy
  have short := ((wf.nodup_of_visits visits).subperm inside).length_le
  rwa [List.length_range] at short

/-- A node has as many ancestors as what is over it, at least. -/
theorem depth_le_of_over (above : f.Over a d) : f.depth a ≤ f.depth d := by
  induction above using Relation.ReflTransGen.head_induction_on with
  | refl => exact Nat.le_refl _
  | head hp _ ih =>
      have deeper := wf.depth_of_parent hp
      omega

/-- The stack of an outline gets empty.  The level of a node is the difference in depth. -/
theorem drain_outline (visits : f.Visits .pre (f.children h) l) {n : Nat} (enough : l.length < n) :
    drain f.childrenBelow n [] [(0, h)]
      = some ((h :: l).map fun d => (f.depth d - f.depth h, d)) := by
  have leads : ∀ x ∈ h :: l, f.childrenBelow (f.depth x - f.depth h, x)
      = (f.children x).map fun d => (f.depth d - f.depth h, d) := by
    intro x hx
    have above : f.Over h x := by
      obtain ⟨k, hk, below⟩ := visits.node.mem_iff.1 hx
      rw [List.mem_singleton.1 hk] at below
      exact wf.below_iff_over.1 below
    refine List.map_congr_left fun c hc => ?_
    have deeper := wf.depth_of_parent ((wf.linked x c).2 hc)
    have below := wf.depth_le_of_over above
    rw [deeper, Nat.sub_add_comm below]
  have run := visits.node.drain_eq _ leads enough
  rwa [List.map_singleton, Nat.sub_self] at run

theorem length_lt_steps (visits : f.Visits .pre (f.children h) l) : l.length < f.steps :=
  Nat.lt_of_succ_lt (visits.node.length_lt_steps fun _ _ => wf.not_properlyBelow_self)

/-- The descendants come in preorder. -/
theorem visits_descend (h : Handle) : f.Visits .pre (f.children h) (f.descend h) := by
  obtain ⟨l, visits⟩ := wf.exists_visits_children h
  rwa [descend, visits.drain_children (Nat.le_of_lt (wf.length_lt_steps visits))]

/-- The descendants are the nodes below, without the node itself. -/
theorem mem_descend_iff : d ∈ f.descend h ↔ f.Over h d ∧ d ≠ h := by
  rw [(wf.visits_descend h).mem_iff, ← properlyBelow_iff_exists_child, ← wf.below_iff_over]
  constructor
  · intro below
    refine ⟨below.to_reflTransGen, ?_⟩
    rintro rfl
    exact wf.not_properlyBelow_self below
  · rintro ⟨below, ne⟩
    exact (Relation.reflTransGen_iff_eq_or_transGen.1 below).resolve_left ne

/-- A dump goes over a node and its descendants. -/
theorem dump_eq_flatMap (h : Handle) (indent lineEnd : Text) (level : Int) :
    f.dump h indent lineEnd level = (h :: f.descend h).flatMap fun d =>
      f.dumpLine (indent.times (level + f.depth d - f.depth h).toNat) lineEnd d := by
  have visits := wf.visits_descend h
  rw [dump, dumpWith, outline, wf.drain_outline visits (wf.length_lt_steps visits), Option.getD_some,
    List.flatMap_map]
  refine List.flatMap_congr fun d hd => ?_
  have above : f.Over h d := by
    rcases List.mem_cons.1 hd with rfl | hd
    · exact .refl f d
    · exact (wf.mem_descend_iff.1 hd).1
  have below := wf.depth_le_of_over above
  rw [Int.add_sub_assoc, ← Int.ofNat_sub below]

end WellFormed

/-- In a well-formed forest the walk below a node ends, after no more steps than there are nodes.  It
visits every other node below it once, in the recursive preorder.  A query is that walk without the
nodes that do not match, a count is the length of the query, and a dump has one line for the node and
one for each visit, behind margins that follow the depth. -/
theorem walks_are_preorder (wf : f.WellFormed) (h : Handle) :
    (∀ n, f.size ≤ n → drain f.children n [] (f.children h) = some (f.descend h))
      ∧ f.Visits .pre (f.children h) (f.descend h)
      ∧ (f.descend h).Nodup
      ∧ (∀ d, d ∈ f.descend h ↔ f.Over h d ∧ d ≠ h)
      ∧ (∀ criterion value, f.findMatching h criterion value
          = (f.descend h).filter fun d => (f.node d).hasProperty criterion value)
      ∧ (∀ criterion value, f.countMatching h criterion value
          = (f.findMatching h criterion value).length)
      ∧ (∀ n, f.size < n → drain f.childrenBelow n [] [(0, h)] = some (f.outline h))
      ∧ ∀ indent lineEnd level, f.dump h indent lineEnd level
          = (h :: f.descend h).flatMap fun d =>
            Text.cat [indent.times (level + f.depth d - f.depth h).toNat, Text.ofInt (f.idOf d),
              ": ", (f.node d).describe, lineEnd] := by
  have visits := wf.visits_descend h
  have short := wf.length_le_of_visits visits
  refine ⟨fun n enough => visits.drain_children (short.trans enough), visits, wf.nodup_of_visits visits,
    fun d => wf.mem_descend_iff, fun criterion value => rfl,
    fun criterion value => List.countP_eq_length_filter, fun n enough => ?_,
    fun indent lineEnd level => ?_⟩
  · rw [outline, wf.drain_outline visits (Nat.lt_of_le_of_lt short enough),
      wf.drain_outline visits (wf.length_lt_steps visits), Option.getD_some]
  · rw [wf.dump_eq_flatMap]
    refine List.flatMap_congr fun d _ => ?_
    have colon : Text.ofString ": " = [0x3A, 0x20] := rfl
    simp [dumpLine, Text.cat, colon]

/-- The text below an element comes before the element's sibling, and it is one level further in. -/
theorem walks_are_preorder_branched :
    branched.WellFormed ∧ branched.descend 0 = [1, 3, 2]
      ∧ branched.dump 1 [0x2D] [] 1 = Text.ofString "-1: 0--3: text \"a\" [f:]" := by
  have wf : branched.WellFormed := .edited _ (.of_size_eq_zero rfl) (by decide)
  obtain ⟨all, -⟩ := walks_are_preorder wf 0
  obtain ⟨below, -, -, -, -, -, -, dump⟩ := walks_are_preorder wf 1
  have three : branched.descend 0 = [1, 3, 2] :=
    Option.some.inj ((all 4 (by decide)).symm.trans (by decide))
  have one : branched.descend 1 = [3] :=
    Option.some.inj ((below 4 (by decide)).symm.trans (by decide))
  refine ⟨wf, three, ?_⟩
  rw [dump, one]
  decide +kernel

end Needlework.Forest
