import Needlework.Proofs.Forest.Destruction

/-!
# Teardowns in order

A destruction runs the teardowns below a node in postorder, whether the node has a parent or not.
It is one of two kinds.

* No teardown fails.  Each of them runs once, everything below the node is released, and the node
  is gone from its parent (`destroy_tears_down`).
* Some teardown fails.  The destruction stops at the first node in postorder whose teardown does,
  and passes its fault on.  The nodes before that one are released.  The nodes on the way down to it
  are off their parents, and each has kept those of its children that stand to the right of the
  way (`destroy_stops_at_failure`).

*Uprooting.*  The node is taken off its parent first, which changes nothing below it.  What the loop
leaves of the forest after that (`Residue`) is read off in terms of the forest before.
-/

namespace Needlework

open Relation

namespace Forest

variable {f f' : Forest} {c n p q x y : Handle} {done left before after : List Handle}

/-- A node stands on the way down from one node to another, the ends included. -/
def OnWay (f : Forest) (n x p : Handle) : Prop := f.Over n p ∧ f.Over p x

/-! ## Uprooting -/

namespace WellFormed

variable (wf : f.WellFormed)

include wf

/-- The visits of a walk down from a node are the nodes below it. -/
theorem mem_visits_iff (visits : f.Visits .post [n] done) : x ∈ done ↔ f.Over n x := by
  rw [visits.mem_iff, ← wf.below_iff_over]
  simp

/-- A node that is taken off its parent leaves the children of those below it alone. -/
theorem children_uproot_of_over (hover : f.Over n y) : (f.uproot n).children y = f.children y := by
  rw [children, wf.node_uproot]
  exact List.erase_of_not_mem fun hn => wf.not_over_parent ((wf.linked y n).2 hn) hover

/-- The walk down from a node is the same when it is taken off its parent. -/
theorem visits_uproot (visits : f.Visits .post [n] done) : (f.uproot n).Visits .post [n] done :=
  visits.congr fun _ hy => wf.children_uproot_of_over ((wf.mem_visits_iff visits).1 hy)

/-- The destruction of a node unlinks those that it tears down, and those on the way down to the
node that fails. -/
theorem unlinked_iff (visits : f.Visits .post [n] (done ++ left)) :
    (f.uproot n).Unlinked done left.head? y ↔ y ∈ done ∨ ∃ x ∈ left.head?, f.OnWay n x y := by
  have same : ∀ {a d}, f.Over n a → ((f.uproot n).Over a d ↔ f.Over a d) := fun above =>
    wf.over_uproot_iff fun q hq hover => wf.not_over_parent hq (above.trans hover)
  refine or_congr_right (exists_congr fun x => and_congr_right fun hx => ?_)
  have below : f.Over n x :=
    (wf.mem_visits_iff visits).1 (List.mem_append_right done (List.mem_of_head? hx))
  refine ⟨fun hover => ⟨?_, wf.over_of_over_uproot hover⟩, fun way => (same way.1).2 way.2⟩
  rcases hover.total ((same (.refl f n)).2 below) with above | above
  · rw [above.eq_of_parent_none (wf.parent_uproot_self n)]
    exact .refl f n
  · exact wf.over_of_over_uproot above

/-- Nothing outside the tree below a node is unlinked by its destruction. -/
theorem over_of_unlinked (visits : f.Visits .post [n] (done ++ left))
    (unlinked : (f.uproot n).Unlinked done left.head? y) : f.Over n y := by
  rcases (wf.unlinked_iff visits).1 unlinked with hy | ⟨x, -, way⟩
  · exact (wf.mem_visits_iff visits).1 (List.mem_append_left left hy)
  · exact way.1

/-- The destruction of a node leaves everything that is not below it alone, except that its parent
loses it. -/
theorem node_of_residue (visits : f.Visits .post [n] (done ++ left))
    (residue : Residue (f.uproot n) f' done left.head?) (wf' : f'.WellFormed)
    (apart : ¬ f.Over n y) : f'.node y = (f.uproot n).node y := by
  have wg := wf.uproot n
  have inside : ∀ {k}, (f.uproot n).Unlinked done left.head? k → f.Over n k :=
    wf.over_of_unlinked visits
  refine residue.node_eq wg wf' (fun unlinked => apart (inside unlinked)) fun c hc unlinked => ?_
  -- A child that is below the node is the node itself, which has left, or its parent is below too.
  have listed := (wg.linked y c).2 hc
  rcases over_iff.1 (inside unlinked) with rfl | ⟨q, hq, above⟩
  · rw [wf.parent_uproot_self] at listed
    cases listed
  · rw [wf.parent_uproot] at listed
    split at listed
    · cases listed
    · rw [hq] at listed
      cases listed
      exact apart above

/-- What the destruction of a node leaves, whether the node has a parent or not. -/
theorem exists_destroy_residue (known : n < f.size) (visits : f.Visits .post [n] (done ++ left))
    (sturdy : ∀ y ∈ done, (f.node y).teardown? = none)
    (failing : ∀ x ∈ left.head?, (f.node x).teardown? ≠ none) :
    ∃ f', f'.WellFormed ∧ Residue (f.uproot n) f' done left.head?
      ∧ (destroy n).run f = ending f' (f.stopper left.head?) := by
  have kept := wf.teardown?_uproot n
  obtain ⟨f', wf', residue, run⟩ := (wf.uproot n).exists_raze
    (wf.parent_uproot_self n) (by rwa [size_uproot])
    (wf.visits_uproot visits) (fun y hy => (kept y).trans (sturdy y hy))
    (fun x hx => by rw [kept]; exact failing x hx)
  rw [wf.run_destroy, run, stopper_congr fun x _ => kept x]
  exact ⟨f', wf', residue, rfl⟩

/-- A parent that removes and destroys a child does what the child's own destruction does. -/
theorem run_removeChild_destroy (hp : f.parent n = some p)
    (destroyed : (destroy n).run f = .ok () f') :
    (removeChild p (.node n) true).run f = .ok n f' := by
  have taken : f.unlink p n = f.uproot n := by rw [Forest.uproot, hp]
  rw [removeChild, EStateM.run_bind, wf.run_removeNode hp, taken]
  dsimp only
  rw [if_pos rfl, EStateM.run_bind, (wf.uproot n).run_destroy,
    uproot_of_parent_none (wf.parent_uproot_self n), ← wf.run_destroy, destroyed]
  rfl

end WellFormed

/-! ## No teardown fails -/

/-- What a destruction leaves that comes to its end. -/
structure TornDown (f f' : Forest) (n : Handle) (order : List Handle) : Prop where
  wellFormed : f'.WellFormed
  /-- The teardowns of the nodes have run, in this order. -/
  torn : f'.torn = order.reverse ++ f.torn
  /-- Everything below the node is destroyed and linked to nothing. -/
  released : ∀ x, f.Over n x → f'.Released x
  /-- Texts are empty. -/
  emptied : ∀ x, f.Over n x → (f.node x).isText = true →
    (f'.node x).content? = some [] ∧ (f'.node x).flags = []
  /-- Nothing else has happened below the node. -/
  buried : ∀ x, f.Over n x → f'.node x = (f.node x).buried
  /-- The parent of the node has lost it, and nothing else has happened to the parent. -/
  parent : ∀ p, f.parent n = some p → ∃ left right, f.children p = left ++ n :: right
    ∧ f'.node p = { f.node p with children := left ++ right }
  /-- All other nodes are as they were. -/
  others : ∀ x, ¬ f.Over n x → f.parent n ≠ some x → f'.node x = f.node x

/-- If no teardown below a node fails, then the destruction of the node succeeds, and so does its
removal and destruction by its parent, with the same effect.  The teardowns of the nodes below it
run once each, in postorder. -/
theorem destroy_tears_down (wf : f.WellFormed) (known : n < f.size)
    (sturdy : ∀ x, f.Over n x → (f.node x).teardown? = none) :
    ∃ order f', f.Visits .post [n] order ∧ order.Nodup ∧ (∀ x, x ∈ order ↔ f.Over n x)
      ∧ (destroy n).run f = .ok () f'
      ∧ (∀ p, f.parent n = some p → (removeChild p (.node n) true).run f = .ok n f')
      ∧ f.TornDown f' n order := by
  obtain ⟨order, visits⟩ := (wf.shallow n).exists_visits .post
  have visited : ∀ x, x ∈ order ↔ f.Over n x := fun x => wf.mem_visits_iff visits
  have all : f.Visits .post [n] (order ++ []) := by rwa [List.append_nil]
  obtain ⟨f', wf', residue, destroyed⟩ := wf.exists_destroy_residue known all
    (fun y hy => sturdy y ((visited y).1 hy)) nofun
  have kept : ∀ {y}, ¬ f.Over n y → f'.node y = (f.uproot n).node y := fun apart =>
    wf.node_of_residue all residue wf' apart
  have buried : ∀ x, f.Over n x → f'.node x = (f.node x).buried := fun x hx =>
    (residue.buried x ((visited x).2 hx)).trans (wf.buried_uproot n x)
  refine ⟨order, f', visits, visits.nodup wf (List.pairwise_singleton _ n), visited, destroyed,
    fun p hp => wf.run_removeChild_destroy hp destroyed, wf', ?_,
    fun x hx => .of_buried (buried x hx), fun x hx text => ?_, buried, fun p hp => ?_,
    fun x apart old => ?_⟩
  · rw [residue.torn, torn_uproot]
    rfl
  · rw [buried x hx]
    exact Node.empty_buried text
  · rw [kept (wf.not_over_parent hp)]
    exact wf.exists_node_uproot hp
  · rw [kept apart]
    refine wf.node_uproot_of_ne ?_ old
    rintro rfl
    exact apart (.refl f x)

/-- An element with a text, next to another one below a root. -/
def branched : Forest :=
  edited {} [.create .root, .create (.plain none), .create (.plain none),
    .create (.text [97] none), .append 0 (.node 1), .append 0 (.node 2), .append 1 (.node 3)]

/-- The text is torn down before the element, and the other element stays. -/
theorem destroy_tears_down_branched :
    branched.WellFormed ∧ ∃ order f', (destroy 1).run branched = .ok () f'
      ∧ branched.TornDown f' 1 order ∧ f'.torn = [1, 3] ∧ f'.children 0 = [2] := by
  have wf : branched.WellFormed := .edited _ (.of_size_eq_zero rfl) (by decide)
  have sturdy : branched.Sturdy := by decide
  obtain ⟨order, f', -, -, -, destroyed, -, down⟩ :=
    destroy_tears_down wf (by decide : 1 < branched.size) fun x _ => sturdy x
  refine ⟨wf, order, f', destroyed, down, ?_, ?_⟩
  · rw [← after_of_ok destroyed]
    decide
  · rw [← after_of_ok destroyed]
    decide

/-! ## A teardown fails -/

/-- What a destruction leaves that fails at a node, after the teardowns of some others. -/
structure StoppedAt (f f' : Forest) (n x : Handle) (before : List Handle) : Prop where
  wellFormed : f'.WellFormed
  /-- The teardowns of the others have run, in this order, and then that of the node. -/
  torn : f'.torn = x :: before.reverse ++ f.torn
  /-- The others were not destroyed before.  They are now, and linked to nothing. -/
  released : ∀ y ∈ before, (f.node y).destroyed = false ∧ f'.Released y
  /-- Nothing else has happened to them, but that texts are empty. -/
  buried : ∀ y ∈ before, f'.node y = (f.node y).buried
  /-- No other node is marked, and none loses its mark. -/
  marks : ∀ y ∉ before, (f'.node y).destroyed = (f.node y).destroyed
  /-- The nodes on the way have no parent.  They may have lost children, and nothing else. -/
  way : ∀ p, f.OnWay n x p →
    f'.node p = { f.node p with parent := none, children := f'.children p }
  /-- The node that failed has no children. -/
  leaf : f'.children x = []
  /-- The other nodes on the way keep the children to the right of it. -/
  right : ∀ p c, f.OnWay n x p → f.OnWay n x c → f.parent c = some p →
    ∃ left, f.children p = left ++ c :: f'.children p
  /-- The trees below these children are what they were. -/
  trees : ∀ p c, f.OnWay n x p → c ∈ f'.children p → ∀ y,
    (f'.Over c y ↔ f.Over c y) ∧ (f.Over c y → f'.node y = f.node y)
  /-- The parent of the node has lost it, and nothing else has happened to the parent. -/
  parent : ∀ p, f.parent n = some p → ∃ left right, f.children p = left ++ n :: right
    ∧ f'.node p = { f.node p with children := left ++ right }
  /-- All other nodes are as they were. -/
  others : ∀ y ∉ before, ¬ f.OnWay n x y → f.parent n ≠ some y → f'.node y = f.node y

/-- A list that ends another and has what comes after an element, but not the element, is what comes
after it. -/
theorem eq_of_suffix_of_append_cons {l right kept : List Handle} (suffix : kept <:+ l ++ c :: right)
    (nodup : (l ++ c :: right).Nodup) (lost : c ∉ kept) (all : ∀ z ∈ right, z ∈ kept) :
    kept = right := by
  obtain ⟨gone, split⟩ := suffix
  rcases List.append_eq_append_iff.1 split with ⟨more, -, tail⟩ | ⟨more, -, tail⟩
  · exact absurd (tail ▸ List.mem_append_right more List.mem_cons_self) lost
  cases more with
  | nil =>
      rw [List.nil_append] at tail
      exact absurd (tail ▸ List.mem_cons_self) lost
  | cons d more =>
      rw [List.cons_append] at tail
      obtain ⟨-, rfl⟩ := List.cons.inj tail
      have apart := (List.nodup_append.1 (List.nodup_cons.1 (List.nodup_append.1 nodup).2.1).2).2.2
      have none : more = [] := List.eq_nil_iff_forall_not_mem.2 fun z hz =>
        apart z hz z (all z (List.mem_append_left _ hz)) rfl
      rw [none, List.nil_append]

namespace WellFormed

variable (wf : f.WellFormed) (visits : f.Visits .post [n] (before ++ x :: after))

include wf visits

theorem unlinked_iff_of_failed :
    (f.uproot n).Unlinked before (some x) y ↔ y ∈ before ∨ f.OnWay n x y :=
  (wf.unlinked_iff visits).trans (by simp)

variable (wf' : f'.WellFormed) (residue : Residue (f.uproot n) f' before (some x))

include wf' residue

/-- What is neither torn down nor on the way stays as it was. -/
theorem node_of_not_onWay (torn : y ∉ before) (off : ¬ f.OnWay n x y) (old : f.parent n ≠ some y) :
    f'.node y = f.node y := by
  have nodup := visits.nodup wf (List.pairwise_singleton _ n)
  have below : f.Over n x := (wf.mem_visits_iff visits).1 (List.mem_append_right _ List.mem_cons_self)
  have ne : y ≠ n := by
    rintro rfl
    exact off ⟨.refl f y, below⟩
  have same := wf.node_uproot_of_ne ne old
  rw [← same]
  by_cases inside : f.Over n y
  · have listed := (wf.mem_visits_iff visits).2 inside
    have apart : ¬ f.Over y x := fun hover => off ⟨inside, hover⟩
    refine residue.node_eq (wf.uproot n) wf' ?_ fun c hc unlinked => ?_
    · rw [wf.unlinked_iff_of_failed visits]
      exact not_or.2 ⟨torn, off⟩
    · rw [children, same] at hc
      have hover : f.Over y c := .of_parent ((wf.linked y c).2 hc)
      rcases (wf.unlinked_iff_of_failed visits).1 unlinked with hc | way
      · exact wf.not_mem_before_of_later visits nodup listed torn apart hover hc
      · exact apart (hover.trans way.2)
  · exact wf.node_of_residue visits residue wf' inside

/-- A child that a node on the way has kept was there before, and it is off the way. -/
theorem kept_of_mem_children (way : f.OnWay n x p) (hc : c ∈ f'.children p) :
    f.parent c = some p ∧ c ∉ before ∧ ¬ f.OnWay n x c := by
  have hp := (wf'.linked p c).2 hc
  have attached : ¬ (c ∈ before ∨ f.OnWay n x c) := fun gone => by
    rw [residue.free c ((wf.unlinked_iff_of_failed visits).2 gone)] at hp
    cases hp
  have torn := wf.not_mem_before visits (visits.nodup wf (List.pairwise_singleton _ n)) way.2
  refine ⟨(wf.linked p c).2 ?_, not_or.1 attached⟩
  rw [← wf.children_uproot_of_over way.1]
  exact (residue.suffix p torn).subset hc

/-- A node on the way keeps the children to the right of it. -/
theorem exists_left_of_onWay (wayp : f.OnWay n x p) (wayc : f.OnWay n x c)
    (hp : f.parent c = some p) : ∃ left, f.children p = left ++ c :: f'.children p := by
  have nodup := visits.nodup wf (List.pairwise_singleton _ n)
  have once := wf.once p
  obtain ⟨left, right, split⟩ := List.append_of_mem ((wf.linked p c).1 hp)
  have suffix := residue.suffix p (wf.not_mem_before visits nodup wayp.2)
  rw [wf.children_uproot_of_over wayp.1, split] at suffix
  rw [split] at once
  have lost : c ∉ f'.children p := fun hc =>
    (wf.kept_of_mem_children visits wf' residue wayp hc).2.2 wayc
  refine ⟨left, ?_⟩
  rw [eq_of_suffix_of_append_cons suffix once lost fun z hz => ?_, split]
  have hpz : f.parent z = some p := (wf.linked p z).2 (by rw [split]; simp [hz])
  have ne : z ≠ c := fun same => (List.nodup_cons.1 (List.nodup_append.1 once).2.1).1 (same ▸ hz)
  have attached : ¬ (z ∈ before ∨ f.OnWay n x z) := by
    rintro (torn | way)
    · have listed := (wf.mem_visits_iff visits).2 wayp.1
      exact wf.not_mem_before_of_sibling visits nodup listed split wayc.2 hz torn
    · exact ne (wf.siblings_disjoint hpz hp way.2 wayc.2)
  rw [← wf'.linked, residue.kept z fun unlinked => attached ((wf.unlinked_iff_of_failed visits).1 unlinked),
    wf.parent_uproot, if_neg, hpz]
  rintro rfl
  exact wf.not_over_parent hpz wayp.1

/-- The tree below a child that a node on the way has kept stays as it was. -/
theorem node_of_over_kept (way : f.OnWay n x p) (hc : c ∈ f'.children p) (hover : f.Over c y) :
    f'.node y = f.node y := by
  obtain ⟨hp, torn, off⟩ := wf.kept_of_mem_children visits wf' residue way hc
  have nodup := visits.nodup wf (List.pairwise_singleton _ n)
  have inside : f.Over n c := way.1.trans (.of_parent hp)
  have apart : ¬ f.Over c x := fun above => off ⟨inside, above⟩
  refine wf.node_of_not_onWay visits wf' residue ?_ (fun wayy => apart (hover.trans wayy.2))
    fun old => wf.not_over_parent old (inside.trans hover)
  exact wf.not_mem_before_of_later visits nodup ((wf.mem_visits_iff visits).2 inside) torn apart hover

/-- A destruction that fails leaves what it has not come to. -/
theorem stoppedAt : f.StoppedAt f' n x before := by
  have nodup := visits.nodup wf (List.pairwise_singleton _ n)
  have visited : ∀ {y}, y ∈ before ++ x :: after ↔ f.Over n y := wf.mem_visits_iff visits
  have below : f.Over n x := visited.1 (List.mem_append_right _ List.mem_cons_self)
  have untorn : ∀ {p}, f.OnWay n x p → p ∉ before := fun way =>
    wf.not_mem_before visits nodup way.2
  refine ⟨wf', ?_, fun y hy => ⟨?_, .of_buried (residue.buried y hy)⟩,
    fun y hy => (residue.buried y hy).trans (wf.buried_uproot n y), fun y hy => ?_,
    fun p way => ?_, ?_, fun p c => wf.exists_left_of_onWay visits wf' residue,
    fun p c way hc y => ?_, fun p hp => ?_, fun y => wf.node_of_not_onWay visits wf' residue⟩
  · rw [residue.torn, torn_uproot]
    rfl
  · -- Only the node itself can be destroyed, and it comes last.
    rcases over_iff.1 (visited.1 (List.mem_append_left _ hy)) with rfl | ⟨q, hq, -⟩
    · exact absurd hy (untorn ⟨.refl f n, below⟩)
    · by_contra destroyed
      rw [wf.destroyedFree y (by simpa using destroyed)] at hq
      cases hq
  · rw [residue.node y hy, wf.node_uproot]
  · rw [residue.node p (untorn way), wf.node_uproot,
      residue.free p ((wf.unlinked_iff_of_failed visits).2 (.inr way))]
  · refine List.eq_nil_iff_forall_not_mem.2 fun c hc => ?_
    obtain ⟨hp, torn, -⟩ := wf.kept_of_mem_children visits wf' residue ⟨below, .refl f x⟩ hc
    exact torn (wf.mem_before_of_over visits nodup (.of_parent hp) (wf.parent_ne hp).symm)
  · have same : ∀ {y}, f.Over c y → f'.node y = f.node y := fun hover =>
      wf.node_of_over_kept visits wf' residue way hc hover
    exact ⟨wf.over_iff_of_node_eq wf' fun _ => same, same⟩
  · rw [wf.node_of_residue visits residue wf' (wf.not_over_parent hp)]
    exact wf.exists_node_uproot hp

end WellFormed

/-- If some teardown below a node fails, then the destruction of the node stops at the first one in
postorder and passes its fault on. -/
theorem destroy_stops_at_failure (wf : f.WellFormed) (known : n < f.size)
    (failing : ∃ y, f.Over n y ∧ (f.node y).teardown? ≠ none) :
    ∃ before x after fault f', f.Visits .post [n] (before ++ x :: after)
      ∧ (∀ y ∈ before, (f.node y).teardown? = none) ∧ (f.node x).teardown? = some fault
      ∧ (destroy n).run f = .error fault f' ∧ f.StoppedAt f' n x before := by
  obtain ⟨order, visits⟩ := (wf.shallow n).exists_visits .post
  obtain ⟨y, hover, fails⟩ := failing
  obtain ⟨x, first⟩ : ∃ x, order.find? (fun h => (f.node h).teardown?.isSome) = some x :=
    Option.isSome_iff_exists.1 (List.find?_isSome.2
      ⟨y, (wf.mem_visits_iff visits).2 hover, Option.isSome_iff_ne_none.2 fails⟩)
  obtain ⟨raises, before, after, rfl, sturdy⟩ := List.find?_eq_some_iff_append.1 first
  obtain ⟨fault, raised⟩ := Option.isSome_iff_exists.1 raises
  have sturdy' : ∀ y ∈ before, (f.node y).teardown? = none := by simpa using sturdy
  obtain ⟨f', wf', residue, destroyed⟩ := wf.exists_destroy_residue known visits sturdy' (by
    rintro _ ⟨⟩
    exact Option.isSome_iff_ne_none.1 raises)
  have stopped : f.stopper (x :: after).head? = some fault := raised
  rw [stopped] at destroyed
  exact ⟨before, x, after, fault, f', visits, sturdy', raised, destroyed,
    wf.stoppedAt visits wf' residue⟩

/-- An element with a text, an element and another text.  The inner element holds a node whose
teardown fails, with a text below it, and a text behind that node. -/
def cracked : Forest :=
  edited {} [.create .root, .create (.plain none), .create (.text [97] none),
    .create (.plain none),
    .create { typeName := "Element", kind := 40,
              form := .custom { teardown := some (.raised .runtime "cracked" []) } },
    .create (.text [98] none), .create (.text [99] none), .create (.text [100] none),
    .append 0 (.node 1), .append 1 (.node 2), .append 1 (.node 3), .append 1 (.node 7),
    .append 3 (.node 4), .append 4 (.node 5), .append 3 (.node 6)]

/-- Two texts are torn down before the node that fails, and the two to the right of the way stay where
they were. -/
theorem destroy_stops_at_failure_cracked :
    cracked.WellFormed ∧ (∃ y, cracked.Over 1 y ∧ (cracked.node y).teardown? ≠ none)
      ∧ ∃ before x fault f', (cracked.node x).teardown? = some fault
        ∧ (destroy 1).run cracked = .error fault f'
        ∧ cracked.StoppedAt f' 1 x before ∧ f'.torn = [4, 5, 2]
        ∧ f'.children 1 = [7] ∧ f'.children 3 = [6] := by
  have wf : cracked.WellFormed := .edited _ (.of_size_eq_zero rfl) (by decide)
  have hover : cracked.Over 1 4 :=
    (Over.of_parent (by decide : cracked.parent 3 = some 1)).trans
      (.of_parent (by decide : cracked.parent 4 = some 3))
  have failing : ∃ y, cracked.Over 1 y ∧ (cracked.node y).teardown? ≠ none := ⟨4, hover, by decide⟩
  obtain ⟨before, x, after, fault, f', -, -, raised, failed, stopped⟩ :=
    destroy_stops_at_failure wf (by decide : 1 < cracked.size) failing
  refine ⟨wf, failing, before, x, fault, f', raised, failed, stopped, ?_⟩
  rw [← after_of_error failed]
  exact ⟨by decide, by decide, by decide⟩

end Forest

end Needlework
