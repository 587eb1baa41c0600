import Mathlib.Data.List.Nodup
import Needlework.Forest.Check
import Needlework.Proofs.Forest.Orders

/-!
# Validity

A tree is *valid* if no walk meets an id twice, every entry of a list of children records the node
that lists it, and nothing below the top is a root or destroyed (`Valid`).  The table is taken as it
is: lists may share nodes and repeat them, a node may record any parent, and it may show any id.

The check finds something exactly if the tree is not valid (`violations_eq_nil_iff`), provided that
the walk comes to an end.

* *What the passes find.*  Each pass has found nothing exactly if a condition holds of every node that
  it goes over.
* *Occurrences.*  The first pass asks besides that the recorded parent lists a node once.  In a valid
  tree that parent is the node that the walk came from, and an entry that is repeated is visited
  twice, with one id (`Visits.children_sublist`).

A tree in a well-formed forest is valid (`WellFormed.valid`).
-/

namespace Needlework.Forest

variable {f : Forest} {order : WalkOrder} {d h k n p r : Handle} {hs l : List Handle}

/-- The tree below a node is as it should be. -/
structure Valid (f : Forest) (r : Handle) : Prop where
  /-- No id occurs twice in the walk. -/
  distinct : ∃ walk, f.Visits .pre [r] walk ∧ (walk.map f.idOf).Nodup
  /-- Every child records the node that lists it. -/
  linked : ∀ h, f.Below r h → ∀ c ∈ f.children h, f.parent c = some h
  /-- No root is below the node. -/
  rootless : ∀ h, f.ProperlyBelow r h → (f.node h).kind ≠ rootKind
  /-- Nothing destroyed is below the node. -/
  alive : ∀ h, f.ProperlyBelow r h → (f.node h).destroyed = false

/-! ## The walk of the check -/

section
variable (acyclic : ∀ k, f.Below r k → ¬ f.ProperlyBelow k k)

include acyclic

/-- There is no other preorder than the one that the check goes over. -/
theorem eq_subtree (visits : f.Visits .pre [r] l) : l = f.subtree r := by
  have shallow := shallow_of_acyclic acyclic
  rw [visits.eq_flatMap_walk (by simpa using shallow), List.flatMap_singleton, subtree]

/-- The check goes over the whole preorder. -/
theorem visits_subtree : f.Visits .pre [r] (f.subtree r) := by
  obtain ⟨l, visits⟩ := (shallow_of_acyclic acyclic).exists_visits .pre
  rwa [← eq_subtree acyclic visits]

theorem mem_subtree_iff : d ∈ f.subtree r ↔ f.Below r d := by
  rw [(visits_subtree acyclic).mem_iff]
  simp

theorem mem_descendants_iff : d ∈ f.descendants r ↔ f.ProperlyBelow r d := by
  have visits := visits_subtree acyclic
  rw [descendants]
  generalize f.subtree r = l at visits
  cases visits with
  | cons below rest =>
      obtain rfl := rest.eq_nil
      rw [List.append_nil, WalkOrder.put, List.tail_cons, below.mem_iff,
        properlyBelow_iff_exists_child]

end

/-- A walk lists the nodes that it starts from in their order. -/
theorem Visits.sublist (visits : f.Visits order hs l) : hs.Sublist l := by
  induction visits with
  | nil => exact List.nil_sublist _
  | @cons h hs below rest _ _ _ ih =>
      have first : [h].Sublist (order.put h below) :=
        List.singleton_sublist.2 ((order.put_perm h below).mem_iff.2 List.mem_cons_self)
      exact first.append ih

/-- A walk lists the children of every node that it visits in their order. -/
theorem Visits.children_sublist (visits : f.Visits order hs l) (hp : p ∈ l) :
    (f.children p).Sublist l := by
  induction visits with
  | nil => cases hp
  | @cons h hs below rest here _ ihBelow ihRest =>
      have inner : below.Sublist (order.put h below ++ rest) := by
        refine List.Sublist.trans ?_ (List.sublist_append_left _ rest)
        cases order with
        | pre => exact List.sublist_cons_self h below
        | post => exact List.sublist_append_left below [h]
      rw [List.mem_append, (order.put_perm h below).mem_iff, List.mem_cons, or_assoc] at hp
      rcases hp with rfl | hp | hp
      · exact here.sublist.trans inner
      · exact (ihBelow hp).trans inner
      · exact (ihRest hp).trans (List.sublist_append_right _ rest)

/-! ## What the passes find -/

theorem parentViolations_eq_nil_iff :
    f.parentViolations h = [] ↔ ∃ p, f.parent h = some p ∧ (f.children p).count h = 1 := by
  rw [parentViolations]
  cases f.parent h with
  | none => simp
  | some p => simp

theorem visitViolations_eq_nil_iff : f.visitViolations h = [] ↔
    (f.node h).kind ≠ rootKind ∧ (f.node h).destroyed = false
      ∧ ∃ p, f.parent h = some p ∧ (f.children p).count h = 1 := by
  rw [visitViolations, List.append_eq_nil_iff, List.append_eq_nil_iff,
    parentViolations_eq_nil_iff, and_assoc]
  simp

theorem entryViolations_eq_nil_iff :
    f.entryViolations h = [] ↔ ∀ c ∈ f.children h, f.parent c = some h := by
  simp [entryViolations]

theorem mem_firstSeen {i : Int} {ids : List Int} : i ∈ firstSeen ids ↔ i ∈ ids := by
  induction ids with
  | nil => rfl
  | cons j ids ih =>
      rw [firstSeen, List.mem_cons, List.mem_filter, ih, List.mem_cons]
      by_cases same : i = j <;> simp [same]

theorem repeatedIds_eq_nil_iff {ids : List Int} : repeatedIds ids = [] ↔ ids.Nodup := by
  rw [repeatedIds, List.filterMap_eq_nil_iff, List.nodup_iff_count_le_one]
  constructor
  · intro none i
    by_cases seen : i ∈ ids
    · have := none i (mem_firstSeen.2 seen)
      simp only [ite_eq_right_iff, reduceCtorEq, imp_false, Nat.not_lt] at this
      exact this
    · rw [List.count_eq_zero_of_not_mem seen]
      exact Nat.zero_le 1
  · exact fun once i _ => if_neg (Nat.not_lt.2 (once i))

/-! ## Soundness and completeness -/

/-- In a valid tree no list of children repeats an entry. -/
theorem Valid.nodup_children (valid : f.Valid r) (below : f.Below r p) : (f.children p).Nodup := by
  obtain ⟨walk, visits, once⟩ := valid.distinct
  have hp : p ∈ walk := visits.mem_iff.2 ⟨r, List.mem_singleton_self r, below⟩
  exact (visits.children_sublist hp).nodup once.of_map

/-- The check finds nothing exactly if the tree is valid. -/
theorem violations_eq_nil_iff (acyclic : ∀ k, f.Below r k → ¬ f.ProperlyBelow k k) :
    f.violations r = [] ↔ f.Valid r := by
  have visits := visits_subtree acyclic
  rw [violations]
  simp only [List.append_eq_nil_iff, List.flatMap_eq_nil_iff, mem_descendants_iff acyclic,
    mem_subtree_iff acyclic, visitViolations_eq_nil_iff, entryViolations_eq_nil_iff,
    repeatedIds_eq_nil_iff]
  constructor
  · rintro ⟨⟨visited, listed⟩, once⟩
    exact ⟨⟨_, visits, once⟩, listed, fun h hh => (visited h hh).1, fun h hh => (visited h hh).2.1⟩
  · intro valid
    refine ⟨⟨fun h hh => ⟨valid.rootless h hh, valid.alive h hh, ?_⟩, valid.linked⟩, ?_⟩
    · -- The parent that a node records is the one that the walk came from.
      obtain ⟨p, below, hp⟩ := properlyBelow_iff_exists_parent.1 hh
      exact ⟨p, valid.linked p below h hp,
        List.count_eq_one_of_mem (valid.nodup_children below) hp⟩
    · obtain ⟨walk, other, once⟩ := valid.distinct
      rwa [← eq_subtree acyclic other]

/-- A check that fails reports what it found. -/
theorem assertValid_of_ne_nil (found : f.violations r ≠ []) :
    f.assertValid r = .error (.brokenTree ((f.violations r).map Violation.message)) := by
  rw [assertValid]
  cases hv : f.violations r with
  | nil => exact absurd hv found
  | cons v vs => rfl

/-- Where nodes list later ones only, nothing is below itself. -/
theorem not_properlyBelow_of_lt (later : ∀ h < f.size, ∀ c ∈ f.children h, h < c) :
    ¬ f.ProperlyBelow k k := by
  have forward : ∀ {a b}, f.ProperlyBelow a b → a < b := by
    intro a b below
    induction below with
    | single hb => exact later _ (lt_size_of_mem_children hb) _ hb
    | tail _ hb ih => exact Nat.lt_trans ih (later _ (lt_size_of_mem_children hb) _ hb)
  exact fun below => absurd (forward below) (Nat.lt_irrefl k)

/-- If nothing below a node is below itself, the check goes over the whole preorder of the tree and
decides whether it is valid.  It fails with everything it has found if it is not. -/
theorem check_decides_validity (acyclic : ∀ k, f.Below r k → ¬ f.ProperlyBelow k k) :
    f.Visits .pre [r] (f.subtree r)
      ∧ (f.violations r = [] ↔ f.Valid r)
      ∧ (f.Valid r → f.assertValid r = .ok ())
      ∧ (¬ f.Valid r →
        f.assertValid r = .error (.brokenTree ((f.violations r).map Violation.message))) := by
  have decides := violations_eq_nil_iff acyclic
  refine ⟨visits_subtree acyclic, decides, fun valid => ?_,
    fun broken => assertValid_of_ne_nil fun none => ?_⟩
  · rw [assertValid, decides.2 valid]
  · exact broken (decides.1 none)

/-- Three nodes, the last of which the first one lists and the second one lists twice.  It records a
parent outside the tree, and it is destroyed and has the id of the second one. -/
def shared : Forest where
  nodes := #[
    { id := 0, kind := rootKind, typeName := "RootNode", form := .root, children := [1, 2] },
    { id := 1, kind := unknownKind, typeName := "Node", form := .plain, parent := some 0,
      children := [2, 2] },
    { id := 1, kind := unknownKind, typeName := "Node", form := .plain, parent := some 3,
      destroyed := true }]
  nextId := 3

/-- Nothing escapes the check there. -/
theorem check_decides_validity_shared :
    (∀ k, shared.Below 0 k → ¬ shared.ProperlyBelow k k) ∧ ¬ shared.Valid 0
      ∧ ∃ vs, shared.assertValid 0 = .error (.brokenTree vs) ∧ vs.length = 10 := by
  have acyclic : ∀ k, shared.Below 0 k → ¬ shared.ProperlyBelow k k := fun _ _ =>
    not_properlyBelow_of_lt (by decide)
  obtain ⟨-, decides, -, reports⟩ := check_decides_validity acyclic
  have broken : ¬ shared.Valid 0 := fun valid => absurd (decides.2 valid) (by decide)
  refine ⟨acyclic, broken, _, reports broken, ?_⟩
  rw [List.length_map]
  decide

/-! ## Well-formed forests -/

namespace WellFormed

variable (wf : f.WellFormed)

include wf

theorem valid (known : r < f.size) : f.Valid r := by
  have parent : ∀ {h}, f.ProperlyBelow r h → ∃ p, f.parent h = some p := by
    intro h below
    obtain ⟨p, -, hp⟩ := properlyBelow_iff_exists_parent.1 below
    exact ⟨p, (wf.linked p h).2 hp⟩
  have inside : ∀ {h}, f.Below r h → h < f.size := by
    intro h below
    rcases over_iff.1 (wf.below_iff_over.1 below) with rfl | ⟨p, hp, -⟩
    · exact known
    · exact lt_size_of_parent hp
  refine ⟨?_, fun h _ c hc => (wf.linked h c).2 hc, fun h below hk => ?_, fun h below => ?_⟩
  · obtain ⟨walk, visits⟩ := (wf.shallow r).exists_visits .pre
    have once := visits.nodup wf (List.pairwise_singleton _ r)
    have visited : ∀ {x}, x ∈ walk → x < f.size := fun hx => by
      obtain ⟨k, hk, below⟩ := visits.mem_iff.1 hx
      rw [List.mem_singleton.1 hk] at below
      exact inside below
    exact ⟨walk, visits, once.map_on fun x hx y hy => wf.distinct x y (visited hx) (visited hy)⟩
  · obtain ⟨p, hp⟩ := parent below
    rw [wf.rootFree h hk] at hp
    cases hp
  · obtain ⟨p, hp⟩ := parent below
    by_contra destroyed
    rw [wf.destroyedFree h (by simpa using destroyed)] at hp
    cases hp

/-- The check finds nothing in a well-formed forest. -/
theorem violations_eq_nil (known : r < f.size) : f.violations r = [] :=
  (violations_eq_nil_iff fun _ _ => wf.not_properlyBelow_self).2 (wf.valid known)

end WellFormed

end Needlework.Forest
