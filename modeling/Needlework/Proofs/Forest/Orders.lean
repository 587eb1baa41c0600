import Needlework.Forest.Walk
import Needlework.Proofs.Forest.WellFormed

/-!
# Preorder and postorder

A walk goes down from a node to what is below it, child by child from left to right.  In
*preorder* it lists a node before what is below it, in *postorder* after that.
`f.Visits order hs l` says that `l` lists the visits of a walk down from each of the nodes `hs`
in turn.  It reads the lists of children and nothing else, and so it makes sense in any table:
a node that is listed twice is visited twice.

*Below.*  `f.Below r k` says that `k` is `r` or can be reached from there along lists of children.
In a well-formed forest this is `f.Over r k`, read from the other end.  A walk visits what is below
its nodes (`Visits.mem_iff`).

*Ends.*  A walk comes to an end if nothing below its node is below itself: a way down then repeats
no node, and all but the last node of it are in the table (`shallow_of_acyclic`).  The preorder is
what `subtree` lists, which goes down a bounded number of levels only
(`Shallow.eq_flatMap_walk`).

*Well-formed forests.*  A walk visits every node once there (`Visits.nodup`).  The visits below a
node stand directly before it in postorder (`Visits.exists_visits_children`), those of an earlier
child before those of a later one.
-/

namespace Needlework

open Relation

/-- When a walk lists a node: before what is below it, or after that. -/
inductive WalkOrder where
  /-- Before. -/
  | pre
  /-- After. -/
  | post

/-- Put a node before what is below it, or after that. -/
def WalkOrder.put : WalkOrder → Handle → List Handle → List Handle
  | .pre, h, below => h :: below
  | .post, h, below => below ++ [h]

theorem WalkOrder.put_perm (order : WalkOrder) (h : Handle) (below : List Handle) :
    (order.put h below).Perm (h :: below) := by
  cases order with
  | pre => exact .refl _
  | post => exact List.perm_append_singleton h below

namespace Forest

variable {f f' : Forest} {order : WalkOrder} {c h k n p r x y z : Handle}
  {hs ks l before after : List Handle}

/-- `k` is `r` or can be reached from there along lists of children. -/
def Below (f : Forest) (r k : Handle) : Prop := ReflTransGen (fun p c => c ∈ f.children p) r k

/-- `k` can be reached from `r` along lists of children, in one step at least. -/
def ProperlyBelow (f : Forest) (r k : Handle) : Prop :=
  TransGen (fun p c => c ∈ f.children p) r k

/-- The list of all visits of a walk down from each of some nodes in turn. -/
inductive Visits (f : Forest) (order : WalkOrder) : List Handle → List Handle → Prop where
  /-- Nothing is left to walk from. -/
  | nil : Visits f order [] []
  /-- A node with what is below it, and then the others. -/
  | cons {h : Handle} {hs below rest : List Handle} : Visits f order (f.children h) below →
      Visits f order hs rest → Visits f order (h :: hs) (order.put h below ++ rest)

/-! ## Below -/

theorem below_iff : f.Below r k ↔ k = r ∨ ∃ c ∈ f.children r, f.Below c k := by
  rw [Below, ReflTransGen.cases_head_iff, eq_comm]
  rfl

/-- What is below a node properly is below a child of it. -/
theorem properlyBelow_iff_exists_child :
    f.ProperlyBelow r k ↔ ∃ c ∈ f.children r, f.Below c k := TransGen.head'_iff

/-- What is below a node properly is a child of something below it. -/
theorem properlyBelow_iff_exists_parent : f.ProperlyBelow r k ↔ ∃ p, f.Below r p ∧ k ∈ f.children p :=
  TransGen.tail'_iff

/-- In a well-formed forest a node is below what is over it. -/
theorem WellFormed.below_iff_over (wf : f.WellFormed) : f.Below r k ↔ f.Over r k := by
  have same : (fun p c => c ∈ f.children p) = Function.swap fun c p => f.parent c = some p := by
    funext p c
    exact propext (wf.linked p c).symm
  rw [Below, same]
  exact reflTransGen_swap

/-- In a well-formed forest nothing is below itself. -/
theorem WellFormed.not_properlyBelow_self (wf : f.WellFormed) : ¬ f.ProperlyBelow k k := by
  intro cycle
  obtain ⟨c, hc, back⟩ := properlyBelow_iff_exists_child.1 cycle
  exact wf.not_over_parent ((wf.linked k c).2 hc) (wf.below_iff_over.1 back)

/-! ## Visits -/

namespace Visits

/-- A walk visits what is below its nodes. -/
theorem mem_iff (visits : f.Visits order hs l) : x ∈ l ↔ ∃ h ∈ hs, f.Below h x := by
  induction visits with
  | nil => simp
  | @cons h hs below rest _ _ ihBelow ihRest =>
      rw [List.mem_append, (order.put_perm h below).mem_iff, List.mem_cons, ihBelow, ihRest,
        ← below_iff]
      simp

theorem eq_nil (visits : f.Visits order [] l) : l = [] := by
  cases visits
  rfl

/-- In postorder a leaf is visited at once. -/
theorem of_leaf (visits : f.Visits .post (h :: hs) l) (leaf : f.children h = []) :
    ∃ rest, l = h :: rest ∧ f.Visits .post hs rest := by
  cases visits with
  | cons below rest =>
      rw [leaf] at below
      obtain rfl := below.eq_nil
      exact ⟨_, rfl, rest⟩

/-- A walk reads the children of the nodes that it visits. -/
theorem congr (visits : f.Visits order hs l) (same : ∀ x ∈ l, f'.children x = f.children x) :
    f'.Visits order hs l := by
  induction visits with
  | nil => exact .nil
  | @cons h hs below rest _ _ ihBelow ihRest =>
      have listed : ∀ x, x ∈ h :: below → x ∈ order.put h below ++ rest := fun x hx =>
        List.mem_append_left _ ((order.put_perm h below).mem_iff.2 hx)
      refine .cons ?_ (ihRest fun x hx => same x (List.mem_append_right _ hx))
      rw [same h (listed h List.mem_cons_self)]
      exact ihBelow fun x hx => same x (listed x (List.mem_cons_of_mem h hx))

theorem append (first : f.Visits order hs l) (second : f.Visits order ks after) :
    f.Visits order (hs ++ ks) (l ++ after) := by
  induction first with
  | nil => exact second
  | cons below _ _ ih =>
      rw [List.append_assoc]
      exact .cons below ih

/-- A walk from some nodes and then from others visits what is below the first ones first. -/
theorem exists_of_append (visits : f.Visits order (hs ++ ks) l) :
    ∃ first second, l = first ++ second ∧ f.Visits order hs first ∧ f.Visits order ks second := by
  induction hs generalizing l with
  | nil => exact ⟨[], l, rfl, .nil, visits⟩
  | cons h hs ih =>
      cases visits with
      | cons below rest =>
          obtain ⟨first, second, rfl, hfirst, hsecond⟩ := ih rest
          exact ⟨_, second, (List.append_assoc ..).symm, .cons below hfirst, hsecond⟩

/-- In postorder, what is below a node is listed directly before the node. -/
theorem exists_visits_children (visits : f.Visits .post hs l) (hy : y ∈ l) :
    ∃ before below after, f.Visits .post (f.children y) below
      ∧ l = before ++ below ++ y :: after := by
  induction visits with
  | nil => cases hy
  | @cons h hs below rest here _ ihBelow ihRest =>
      rw [WalkOrder.put, List.append_assoc, List.singleton_append] at hy ⊢
      rcases List.mem_append.1 hy with hy | hy
      · obtain ⟨before, inner, after, hinner, rfl⟩ := ihBelow hy
        exact ⟨before, inner, after ++ h :: rest, hinner, by simp⟩
      rcases List.mem_cons.1 hy with rfl | hy
      · exact ⟨[], below, rest, here, rfl⟩
      · obtain ⟨before, inner, after, hinner, rfl⟩ := ihRest hy
        exact ⟨below ++ h :: before, inner, after, hinner, by simp⟩

/-- In a well-formed forest a walk visits no node twice, if it starts from nodes that have nothing
below them in common. -/
theorem nodup (wf : f.WellFormed) (visits : f.Visits order hs l)
    (apart : hs.Pairwise fun a b => ∀ x, f.Over a x → ¬ f.Over b x) : l.Nodup := by
  induction visits with
  | nil => exact List.nodup_nil
  | @cons h hs below rest first second ihBelow ihRest =>
      have here : ∀ {x}, x ∈ order.put h below ↔ f.Over h x := by
        intro x
        rw [(order.put_perm h below).mem_iff, List.mem_cons, first.mem_iff, ← below_iff,
          wf.below_iff_over]
      have siblings : (f.children h).Pairwise fun a b => ∀ x, f.Over a x → ¬ f.Over b x :=
        (wf.once h).imp_of_mem fun ha hb ne x hax hbx =>
          ne (wf.siblings_disjoint ((wf.linked h _).2 ha) ((wf.linked h _).2 hb) hax hbx)
      rw [List.pairwise_cons] at apart
      refine List.nodup_append.2 ⟨?_, ihRest apart.2, ?_⟩
      · refine (order.put_perm h below).nodup_iff.2 (List.nodup_cons.2 ⟨fun hm => ?_, ihBelow siblings⟩)
        obtain ⟨c, hc, below⟩ := first.mem_iff.1 hm
        exact wf.not_over_parent ((wf.linked h c).2 hc) (wf.below_iff_over.1 below)
      · rintro x hx y hy rfl
        obtain ⟨k, hk, below⟩ := second.mem_iff.1 hy
        exact apart.1 k hk x (here.1 hx) (wf.below_iff_over.1 below)

end Visits

/-! ## Earlier and later -/

/-- An element that is not in front of another is that one or comes after it. -/
theorem eq_or_mem_of_append_cons_eq {m : List Handle} (same : before ++ x :: after = l ++ c :: m)
    (hc : c ∉ before) : x = c ∨ x ∈ l := by
  rcases List.append_eq_append_iff.1 same with ⟨more, rfl, tail⟩ | ⟨more, rfl, tail⟩
  · cases more with
    | nil => exact .inl (List.cons.inj tail).1
    | cons y more =>
        rw [(List.cons.inj tail).1]
        exact .inr (List.mem_append_right _ List.mem_cons_self)
  · cases more with
    | nil => exact .inl (List.cons.inj tail).1.symm
    | cons y more =>
        rw [(List.cons.inj tail).1] at hc
        exact absurd (List.mem_append_right _ List.mem_cons_self) hc

/-- What is in front of an element is settled if nothing is repeated. -/
theorem eq_of_append_cons_eq {m : List Handle} (nodup : (before ++ x :: after).Nodup)
    (same : before ++ x :: after = l ++ x :: m) : before = l := by
  obtain ⟨-, tail, apart⟩ := List.nodup_append.1 nodup
  have front : x ∉ before := fun hx => apart x hx x List.mem_cons_self rfl
  exact ((List.append_cons_inj_of_notMem front (List.nodup_cons.1 tail).1).1 same).1

namespace WellFormed

variable (wf : f.WellFormed) (visits : f.Visits .post hs (before ++ x :: after))
  (nodup : (before ++ x :: after).Nodup)

include wf visits nodup

/-- In postorder, what is properly below a node comes before it. -/
theorem mem_before_of_over (hover : f.Over x c) (ne : c ≠ x) : c ∈ before := by
  obtain ⟨front, below, back, inner, split⟩ :=
    visits.exists_visits_children (List.mem_append_right _ List.mem_cons_self)
  rw [eq_of_append_cons_eq nodup split]
  rw [← wf.below_iff_over, below_iff] at hover
  exact List.mem_append_right _ (inner.mem_iff.2 (hover.resolve_left ne))

/-- In postorder, no node comes before what is below it. -/
theorem not_mem_before (hover : f.Over y x) : y ∉ before := by
  intro hy
  have listed : y ∈ before ++ x :: after := List.mem_append_left _ hy
  obtain ⟨front, below, back, inner, split⟩ := visits.exists_visits_children listed
  obtain ⟨u, v, rfl⟩ := List.append_of_mem hy
  have apart := (List.nodup_append.1 nodup).2.2
  rw [List.append_assoc] at split nodup
  have same : u = front ++ below := eq_of_append_cons_eq nodup split
  rw [← wf.below_iff_over, below_iff] at hover
  rcases hover with rfl | hover
  · exact apart x hy x List.mem_cons_self rfl
  · have hx : x ∈ u := by
      rw [same]
      exact List.mem_append_right _ (inner.mem_iff.2 hover)
    exact apart x (List.mem_append_left _ hx) x List.mem_cons_self rfl

/-- What is below a node that comes later, but not below it, comes later. -/
theorem not_mem_before_of_later (hy : y ∈ before ++ x :: after) (later : y ∉ before)
    (apart : ¬ f.Over y x) (hover : f.Over y c) : c ∉ before := by
  obtain ⟨front, below, back, inner, split⟩ := visits.exists_visits_children hy
  have here : x ∈ front := by
    rcases eq_or_mem_of_append_cons_eq split later with rfl | hx
    · exact absurd (.refl f x) apart
    · refine (List.mem_append.1 hx).resolve_right fun hx => apart (wf.below_iff_over.1 ?_)
      exact below_iff.2 (.inr (inner.mem_iff.1 hx))
  intro hc
  rw [← wf.below_iff_over, below_iff] at hover
  rcases hover with rfl | hover
  · exact later hc
  · obtain ⟨u, v, rfl⟩ := List.append_of_mem here
    have settled : before ++ x :: after = u ++ x :: (v ++ below ++ y :: back) := by
      rw [split]
      simp
    have front : c ∈ u ++ x :: v := by
      rw [← eq_of_append_cons_eq nodup settled]
      exact List.mem_append_left _ hc
    rw [split] at nodup
    have disjoint := (List.nodup_append.1 (List.nodup_append.1 nodup).1).2.2
    exact disjoint c front c (inner.mem_iff.2 hover) rfl

/-- The later children of a node come after what is below an earlier one. -/
theorem not_mem_before_of_sibling {left right : List Handle} (hy : y ∈ before ++ x :: after)
    (children : f.children y = left ++ c :: right) (hover : f.Over c x) (hz : z ∈ right) :
    z ∉ before := by
  obtain ⟨front, below, back, inner, split⟩ := visits.exists_visits_children hy
  rw [children] at inner
  obtain ⟨earlier, rest, rfl, -, inner⟩ := inner.exists_of_append
  cases inner with
  | @cons _ _ first others here beside =>
      have hx : x ∈ first ++ [c] := by
        rw [← wf.below_iff_over, below_iff, ← here.mem_iff] at hover
        rcases hover with rfl | hx
        · exact List.mem_append_right _ (List.mem_singleton_self x)
        · exact List.mem_append_left _ hx
      obtain ⟨u, v, cut⟩ := List.append_of_mem hx
      have settled : before ++ x :: after
          = (front ++ earlier ++ u) ++ x :: (v ++ others ++ y :: back) := by
        rw [split, WalkOrder.put, cut]
        simp
      intro hzb
      have apart := (List.nodup_append.1 (settled ▸ nodup)).2.2
      rw [eq_of_append_cons_eq nodup settled] at hzb
      refine apart z hzb z (List.mem_cons_of_mem x (List.mem_append_left _ ?_)) rfl
      exact List.mem_append_right v (beside.mem_iff.2 ⟨z, hz, .refl⟩)

end WellFormed

/-! ## Walks that end -/

/-- No way down from a node has more than so many nodes on it. -/
def Shallow (f : Forest) : Nat → Handle → Prop
  | 0, _ => False
  | n + 1, h => ∀ c ∈ f.children h, f.Shallow n c

/-- Below the nodes of a way down that repeats no node there is room for the others only. -/
theorem shallow_of_way (acyclic : ∀ k, f.Below r k → ¬ f.ProperlyBelow k k) :
    ∀ (n : Nat) (way : List Handle) (h : Handle), f.Below r h → way.Nodup →
      (∀ x ∈ way, x < f.size ∧ f.ProperlyBelow x h) → f.size < way.length + n → f.Shallow n h
  | 0, way, h, _, nodup, above, room => by
      have inside : way ⊆ List.range f.size := fun x hx => List.mem_range.2 (above x hx).1
      have short := (nodup.subperm inside).length_le
      rw [List.length_range] at short
      omega
  | n + 1, way, h, below, nodup, above, room => by
      intro c hc
      refine shallow_of_way acyclic n (h :: way) c (below.tail hc) ?_ ?_ ?_
      · exact List.nodup_cons.2 ⟨fun hm => acyclic h below (above h hm).2, nodup⟩
      · intro x hx
        rcases List.mem_cons.1 hx with rfl | hx
        · exact ⟨lt_size_of_mem_children hc, .single hc⟩
        · exact ⟨(above x hx).1, (above x hx).2.tail hc⟩
      · rw [List.length_cons]
        omega

/-- Where nothing is below itself, no way down is longer than the table. -/
theorem shallow_of_acyclic (acyclic : ∀ k, f.Below r k → ¬ f.ProperlyBelow k k) :
    f.Shallow (f.size + 1) r :=
  shallow_of_way acyclic _ [] r .refl List.nodup_nil (fun _ hx => nomatch hx) (by simp)

theorem WellFormed.shallow (wf : f.WellFormed) (r : Handle) : f.Shallow (f.size + 1) r :=
  shallow_of_acyclic fun _ _ => wf.not_properlyBelow_self

/-- A walk down ways that end comes to an end. -/
theorem Shallow.exists_visits (order : WalkOrder) :
    ∀ {n : Nat} {h : Handle}, f.Shallow n h → ∃ l, f.Visits order [h] l
  | 0, _, shallow => shallow.elim
  | n + 1, h, shallow => by
      have children : ∀ cs : List Handle, (∀ c ∈ cs, f.Shallow n c) → ∃ l, f.Visits order cs l := by
        intro cs
        induction cs with
        | nil => exact fun _ => ⟨[], .nil⟩
        | cons c cs ih =>
            intro below
            obtain ⟨first, hfirst⟩ := (below c List.mem_cons_self).exists_visits order
            obtain ⟨rest, hrest⟩ := ih fun k hk => below k (List.mem_cons_of_mem c hk)
            exact ⟨_, hfirst.append hrest⟩
      obtain ⟨below, hbelow⟩ := children (f.children h) shallow
      exact ⟨_, .cons hbelow .nil⟩

/-- A bounded walk lists the whole preorder, if it is not cut short. -/
theorem Visits.eq_flatMap_walk (visits : f.Visits .pre hs l) {n : Nat}
    (shallow : ∀ h ∈ hs, f.Shallow n h) : l = hs.flatMap (f.walk n) := by
  induction visits generalizing n with
  | nil => rfl
  | @cons h hs below rest _ _ ihBelow ihRest =>
      rw [List.flatMap_cons, ← ihRest fun k hk => shallow k (List.mem_cons_of_mem h hk)]
      cases n with
      | zero => exact (shallow h List.mem_cons_self).elim
      | succ n =>
          have here := shallow h List.mem_cons_self
          rw [walk, ← ihBelow here]
          rfl

end Forest

end Needlework
