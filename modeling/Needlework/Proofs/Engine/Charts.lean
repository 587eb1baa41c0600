import Mathlib.Data.List.Chain
import Needlework.Proofs.Engine.Spelling
import Needlework.Forest.Walk
import Needlework.Proofs.Forest.WellFormed

/-!
# Charts of a tree

A *chart* of a tree over a text says which nodes are on it and where each of them stops.  Where a
node begins is in the node itself (`Forest.offset`).  An open node has no end yet, and is charted as
one that stops beyond the text.

A tree is charted when every list of children is (`Row`).  A text node holds the text from where it
begins to where it stops, and any other node has the needle at which it was opened where it begins.
The children lie within their parent, one after the other, and behind a text node there is no other,
and no gap.

*Order.*  All of this is about a node and its children.  That the walk through a charted tree goes
forward in the text follows by induction over the levels (`Charted.walk_row`).

*Changes.*  A charted tree stays one when its nodes are the same, when a node is added behind the
last child where the text can go on (`Front`), when the last child comes to stop elsewhere, and when
it is cut off.
-/

namespace Needlework

/-- Where a node began, or the beginning of the text if that is not known. -/
def Forest.offset (f : Forest) (h : Handle) : Nat := ((f.node h).origin.getD 0).toNat

theorem Forest.offset_of_origin {f : Forest} {h : Handle} {a : Nat}
    (origin : (f.node h).origin = some (a : Int)) : f.offset h = a := by
  rw [Forest.offset, origin]
  rfl

namespace Engine

variable {f f' : Forest} {k k' : Marks} {t : Text} {r x y h : Handle} {e : Nat} {cs ds : List Handle}

/-- Which nodes are on a chart, and where they stop. -/
structure Chart where
  nodes : Handle → Prop
  stop : Handle → Nat

namespace Chart

/-- A node stops somewhere else. -/
def restop (s : Chart) (x : Handle) (e : Nat) : Chart :=
  { s with stop := Function.update s.stop x e }

/-- A node comes onto the chart. -/
def enter (s : Chart) (x : Handle) (e : Nat) : Chart :=
  { nodes := fun z => z = x ∨ s.nodes z, stop := Function.update s.stop x e }

/-- The nodes with a property. -/
def restrict (s : Chart) (P : Handle → Prop) : Chart :=
  { s with nodes := fun z => s.nodes z ∧ P z }

@[simp] theorem stop_restop (s : Chart) (x : Handle) (e : Nat) : (s.restop x e).stop x = e :=
  Function.update_self ..

@[simp] theorem stop_enter (s : Chart) (x : Handle) (e : Nat) : (s.enter x e).stop x = e :=
  Function.update_self ..

theorem stop_restop_of_ne (s : Chart) {x y : Handle} (ne : y ≠ x) (e : Nat) :
    (s.restop x e).stop y = s.stop y := Function.update_of_ne ne _ _

theorem stop_enter_of_ne (s : Chart) {x y : Handle} (ne : y ≠ x) (e : Nat) :
    (s.enter x e).stop y = s.stop y := Function.update_of_ne ne _ _

end Chart

variable {s s' : Chart}

/-- A child is charted over the text. -/
structure Entry (f : Forest) (k : Marks) (t : Text) (s : Chart) (d : Handle) : Prop where
  mem : s.nodes d
  origin : (f.node d).origin = some (f.offset d : Int)
  long : f.offset d < s.stop d
  text : ∀ u, (f.node d).content? = some u →
    u ≠ [] ∧ u <+: t.drop (f.offset d) ∧ s.stop d = f.offset d + u.length
  opener : (f.node d).content? = none → k.opener d ≠ [] ∧ k.opener d <+: t.drop (f.offset d)

/-- A text node is charted if it stops where its text does. -/
theorem Entry.of_text {d : Handle} {u : Text} (mem : s.nodes d)
    (origin : (f.node d).origin = some (f.offset d : Int)) (content : (f.node d).content? = some u)
    (nonempty : u ≠ []) (fits : u <+: t.drop (f.offset d))
    (stops : s.stop d = f.offset d + u.length) : Entry f k t s d where
  mem := mem
  origin := origin
  long := by
    have long : 0 < u.length := List.length_pos_iff.2 nonempty
    omega
  text v hv := by
    obtain rfl := Option.some.inj (content.symm.trans hv)
    exact ⟨nonempty, fits, stops⟩
  opener none := by
    rw [content] at none
    cases none

/-- Behind a text node comes no other, and no gap. -/
def Joined (f : Forest) (s : Chart) (d d' : Handle) : Prop :=
  (f.node d).isText = true → (f.node d').isText = false ∧ s.stop d = f.offset d'

/-- Some children of a node are charted one after the other, within the node. -/
structure Row (f : Forest) (k : Marks) (t : Text) (r : Handle) (s : Chart) (y : Handle)
    (cs : List Handle) : Prop where
  entry : ∀ d ∈ cs, Entry f k t s d
  inside : ∀ d ∈ cs, s.stop d ≤ s.stop y
  below : y ≠ r → ∀ d ∈ cs, f.offset y < f.offset d
  apart : cs.Pairwise fun d d' => s.stop d ≤ f.offset d'
  joined : cs.IsChain (Joined f s)

/-- At an offset the text can go on in a node: the node has begun, its children stop there or before,
and a text at their end stops there. -/
structure Front (f : Forest) (r : Handle) (s : Chart) (y : Handle) (c : Nat) : Prop where
  begun : y ≠ r → f.offset y < c
  reached : ∀ d ∈ f.children y, s.stop d ≤ c
  flush : ∀ d ∈ (f.children y).getLast?, (f.node d).isText = true → s.stop d = c

namespace Front

theorem of_leaf (begun : y ≠ r → f.offset y < e) (leaf : f.children y = []) :
    Front f r s y e := by
  refine ⟨begun, ?_, ?_⟩
  · rw [leaf]
    nofun
  · rw [leaf]
    nofun

/-- Where the last child stops, the text goes on. -/
theorem of_last {ds : List Handle} {l : Handle} (begun : y ≠ r → f.offset y < e)
    (children : f.children y = ds ++ [l]) (reached : ∀ d ∈ ds, s.stop d ≤ e)
    (stops : s.stop l = e) : Front f r s y e := by
  refine ⟨begun, fun d hd => ?_, fun d hd _ => ?_⟩
  · rw [children] at hd
    rcases List.mem_append.1 hd with hd | hd
    · exact reached d hd
    · rw [List.mem_singleton.1 hd, stops]
  · rw [children, List.getLast?_concat] at hd
    cases hd
    exact stops

end Front

/-- A tree is charted, with all of its nodes. -/
structure Charted (f : Forest) (k : Marks) (t : Text) (r : Handle) (s : Chart) : Prop where
  root : s.nodes r
  known : ∀ y, s.nodes y → y < f.size
  row : ∀ y, s.nodes y → Row f k t r s y (f.children y)

/-! ## What is the same -/

/-- A child is charted as before. -/
structure SameEntry (f f' : Forest) (k k' : Marks) (s s' : Chart) (d : Handle) : Prop where
  content : (f'.node d).content? = (f.node d).content?
  origin : (f'.node d).origin = (f.node d).origin
  opener : k'.opener d = k.opener d
  stop : s'.stop d = s.stop d
  mem : s.nodes d → s'.nodes d

namespace SameEntry

theorem of_node_eq {d : Handle} (node : f'.node d = f.node d) (opener : k'.opener d = k.opener d)
    (stop : s'.stop d = s.stop d) (mem : s.nodes d → s'.nodes d) : SameEntry f f' k k' s s' d :=
  ⟨by rw [node], by rw [node], opener, stop, mem⟩

variable {d d' : Handle}

theorem offset (same : SameEntry f f' k k' s s' d) : f'.offset d = f.offset d := by
  rw [Forest.offset, Forest.offset, same.origin]

theorem isText (same : SameEntry f f' k k' s s' d) : (f'.node d).isText = (f.node d).isText := by
  rw [Node.isText_eq_isSome, Node.isText_eq_isSome, same.content]

theorem entry (same : SameEntry f f' k k' s s' d) (entry : Entry f k t s d) : Entry f' k' t s' d where
  mem := same.mem entry.mem
  origin := by rw [same.origin, same.offset, entry.origin]
  long := by rw [same.offset, same.stop]; exact entry.long
  text := by rw [same.content, same.offset, same.stop]; exact entry.text
  opener := by rw [same.content, same.offset, same.opener]; exact entry.opener

theorem joined (same : SameEntry f f' k k' s s' d) (same' : SameEntry f f' k k' s s' d')
    (joined : Joined f s d d') : Joined f' s' d d' := by
  rw [Joined, same.isText, same'.isText, same.stop, same'.offset]
  exact joined

end SameEntry

/-! ## Rows -/

namespace Row

theorem nil : Row f k t r s y [] := ⟨nofun, nofun, fun _ => nofun, .nil, .nil⟩

/-- A row is charted when its children are charted as before. -/
theorem congr (row : Row f k t r s y cs) (offset : f'.offset y = f.offset y)
    (same : ∀ d ∈ cs, SameEntry f f' k k' s s' d) (inside : ∀ d ∈ cs, s.stop d ≤ s'.stop y) :
    Row f' k' t r s' y cs where
  entry d hd := (same d hd).entry (row.entry d hd)
  inside d hd := by
    rw [(same d hd).stop]
    exact inside d hd
  below ne d hd := by
    rw [offset, (same d hd).offset]
    exact row.below ne d hd
  apart := by
    refine row.apart.imp_of_mem fun {d d'} hd hd' apart => ?_
    rw [(same d hd).stop, (same d' hd').offset]
    exact apart
  joined := row.joined.imp_of_mem_imp fun d d' hd hd' => (same d hd).joined (same d' hd')

/-- What comes before the last child, and how the last child follows. -/
theorem front (row : Row f k t r s y (ds ++ [x])) :
    Row f k t r s y ds ∧ (∀ d ∈ ds, s.stop d ≤ f.offset x) ∧ ∀ d ∈ ds.getLast?, Joined f s d x := by
  obtain ⟨before, -, apart⟩ := List.pairwise_append.1 row.apart
  obtain ⟨chain, -, joined⟩ := List.isChain_append.1 row.joined
  refine ⟨⟨fun d hd => row.entry d (List.mem_append_left _ hd),
    fun d hd => row.inside d (List.mem_append_left _ hd),
    fun ne d hd => row.below ne d (List.mem_append_left _ hd), before, chain⟩, fun d hd => ?_,
    fun d hd => ?_⟩
  · exact apart d hd x (List.mem_singleton_self x)
  · exact joined d hd x rfl

/-- A child comes behind the others. -/
theorem concat (row : Row f k t r s y ds) (entry : Entry f k t s x) (inside : s.stop x ≤ s.stop y)
    (below : y ≠ r → f.offset y < f.offset x) (apart : ∀ d ∈ ds, s.stop d ≤ f.offset x)
    (joined : ∀ d ∈ ds.getLast?, Joined f s d x) : Row f k t r s y (ds ++ [x]) where
  entry := by
    intro d hd
    rcases List.mem_append.1 hd with hd | hd
    · exact row.entry d hd
    · rw [List.mem_singleton.1 hd]
      exact entry
  inside := by
    intro d hd
    rcases List.mem_append.1 hd with hd | hd
    · exact row.inside d hd
    · rw [List.mem_singleton.1 hd]
      exact inside
  below := by
    intro ne d hd
    rcases List.mem_append.1 hd with hd | hd
    · exact row.below ne d hd
    · rw [List.mem_singleton.1 hd]
      exact below ne
  apart := by
    refine List.pairwise_append.2 ⟨row.apart, List.pairwise_singleton _ _, fun d hd d' hd' => ?_⟩
    rw [List.mem_singleton.1 hd']
    exact apart d hd
  joined := by
    refine List.isChain_append.2 ⟨row.joined, .singleton _, fun d hd d' hd' => ?_⟩
    cases hd'
    exact joined d hd

end Row

/-! ## Changes -/

namespace Charted

theorem mem (charted : Charted f k t r s) (hy : s.nodes y) {d : Handle} (hd : d ∈ f.children y) :
    s.nodes d := ((charted.row y hy).entry d hd).mem

/-- A chart reads the nodes on it and the needles at which they were opened. -/
theorem congr (charted : Charted f k t r s) (size : f.size ≤ f'.size)
    (node : ∀ y, s.nodes y → f'.node y = f.node y)
    (opener : ∀ y, s.nodes y → k'.opener y = k.opener y) : Charted f' k' t r s where
  root := charted.root
  known y hy := Nat.lt_of_lt_of_le (charted.known y hy) size
  row y hy := by
    have row := charted.row y hy
    rw [Forest.children, node y hy]
    refine row.congr ?_ (fun d hd => ?_) row.inside
    · rw [Forest.offset, node y hy, Forest.offset]
    · have member := charted.mem hy hd
      exact .of_node_eq (node d member) (opener d member) rfl id

/-- What is not below the root may be taken off the chart. -/
theorem restrict (charted : Charted f k t r s) (wf : f.WellFormed) :
    Charted f k t r (s.restrict (f.Over r)) where
  root := ⟨charted.root, .refl f r⟩
  known y hy := charted.known y hy.1
  row y hy := by
    have row := charted.row y hy.1
    refine row.congr rfl (fun d hd => ?_) row.inside
    exact .of_node_eq rfl rfl rfl fun member =>
      ⟨member, hy.2.trans (.of_parent ((wf.linked y d).2 hd))⟩

/-- A node without children comes behind the last child of another one. -/
theorem append (charted : Charted f k t r s) (hy : s.nodes y) (new : ∀ p, h ∉ f.children p)
    (known : h < f'.size) (size : f.size ≤ f'.size)
    (others : ∀ z, s.nodes z → z ≠ y → z ≠ h → f'.node z = f.node z)
    (parent : f'.node y = { f.node y with children := f.children y ++ [h] })
    (leaf : f'.children h = []) (opener : ∀ z, z ≠ h → k'.opener z = k.opener z)
    (entry : Entry f' k' t (s.enter h e) h) (ne : y ≠ h) (inside : e ≤ s.stop y)
    (front : Front f r s y (f'.offset h)) (lone : ∀ d ∈ (f.children y).getLast?,
      (f.node d).isText = true → (f'.node h).isText = false) :
    Charted f' k' t r (s.enter h e) := by
  have stop : ∀ {z}, z ≠ h → (s.enter h e).stop z = s.stop z := fun hz => s.stop_enter_of_ne hz e
  have same : ∀ z, s.nodes z → z ≠ h → SameEntry f f' k k' s (s.enter h e) z := by
    intro z hz hzh
    by_cases hzy : z = y
    · subst hzy
      exact ⟨by rw [parent]; rfl, by rw [parent], opener z hzh, stop hzh, .inr⟩
    · exact .of_node_eq (others z hz hzy hzh) (opener z hzh) (stop hzh) .inr
  have kept : ∀ z, s.nodes z → z ≠ h → Row f' k' t r (s.enter h e) z (f.children z) := by
    intro z hz hzh
    have row := charted.row z hz
    refine row.congr (same z hz hzh).offset (fun d hd => ?_) fun d hd => ?_
    · exact same d (charted.mem hz hd) fun e => new z (e ▸ hd)
    · rw [stop hzh]
      exact row.inside d hd
  refine ⟨.inr charted.root, fun z hz => ?_, fun z hz => ?_⟩
  · rcases hz with rfl | hz
    · exact known
    · exact Nat.lt_of_lt_of_le (charted.known z hz) size
  by_cases hzh : z = h
  · rw [hzh, leaf]
    exact .nil
  have hz := hz.resolve_left hzh
  by_cases hzy : z = y
  · subst hzy
    have old := same z hz hzh
    rw [Forest.children, parent]
    refine (kept z hz hzh).concat entry ?_ ?_ (fun d hd => ?_) fun d hd => ?_
    · rw [stop hzh, Chart.stop_enter]
      exact inside
    · rw [old.offset]
      exact front.begun
    · rw [(same d (charted.mem hz hd) fun e => new z (e ▸ hd)).stop]
      exact front.reached d hd
    · have member := List.mem_of_getLast? hd
      have old' := same d (charted.mem hz member) fun e => new z (e ▸ member)
      rw [Joined, old'.isText, old'.stop]
      exact fun htext => ⟨lone d hd htext, front.flush d hd htext⟩
  · rw [Forest.children, others z hz hzy hzh]
    exact kept z hz hzh

/-- The last child of a node comes to stop elsewhere. -/
theorem restop (charted : Charted f k t r s) (wf : f.WellFormed) (hy : s.nodes y)
    (children : f.children y = ds ++ [x]) (size : f.size ≤ f'.size)
    (others : ∀ z, s.nodes z → z ≠ x → f'.node z = f.node z)
    (children' : f'.children x = f.children x) (origin : (f'.node x).origin = (f.node x).origin)
    (isText : (f'.node x).isText = (f.node x).isText)
    (opener : ∀ z, s.nodes z → z ≠ x → k'.opener z = k.opener z)
    (entry : Entry f' k' t (s.restop x e) x) (inside : e ≤ s.stop y)
    (around : ∀ d ∈ f.children x, s.stop d ≤ e) : Charted f' k' t r (s.restop x e) := by
  have stop : ∀ {z}, z ≠ x → (s.restop x e).stop z = s.stop z := fun hz => s.stop_restop_of_ne hz e
  have same : ∀ z, s.nodes z → z ≠ x → SameEntry f f' k k' s (s.restop x e) z := fun z hz hzx =>
    .of_node_eq (others z hz hzx) (opener z hz hzx) (stop hzx) id
  have parent := wf.parent_last children
  have hyx : y ≠ x := wf.parent_ne parent
  have offset : f'.offset x = f.offset x := by rw [Forest.offset, origin, Forest.offset]
  have apart : ∀ d ∈ ds, d ≠ x := fun d hd e => wf.not_mem_front children (e ▸ hd)
  refine ⟨charted.root, fun z hz => Nat.lt_of_lt_of_le (charted.known z hz) size, fun z hz => ?_⟩
  have row := charted.row z hz
  by_cases hzy : z = y
  · subst hzy
    rw [children] at row
    obtain ⟨before, reached, joined⟩ := row.front
    have member : ∀ d ∈ ds, s.nodes d := fun d hd => (before.entry d hd).mem
    rw [Forest.children, others z hz hyx]
    change Row f' k' t r _ z (f.children z)
    rw [children]
    refine Row.concat (before.congr (same z hz hyx).offset (fun d hd => ?_) fun d hd => ?_) entry
      ?_ (fun ne => ?_) (fun d hd => ?_) fun d hd => ?_
    · exact same d (member d hd) (apart d hd)
    · rw [stop hyx]
      exact before.inside d hd
    · rw [Chart.stop_restop, stop hyx]
      exact inside
    · rw [(same z hz hyx).offset, offset]
      exact row.below ne x (List.mem_append_right _ (List.mem_singleton_self x))
    · rw [(same d (member d hd) (apart d hd)).stop, offset]
      exact reached d hd
    · have hd' := List.mem_of_getLast? hd
      have old := same d (member d hd') (apart d hd')
      rw [Joined, old.isText, old.stop, isText, offset]
      exact joined d hd
  have kept : ∀ d ∈ f.children z, SameEntry f f' k k' s (s.restop x e) d := by
    intro d hd
    refine same d (charted.mem hz hd) ?_
    rintro rfl
    rw [(wf.linked z d).2 hd] at parent
    exact hzy (Option.some.inj parent)
  by_cases hzx : z = x
  · subst hzx
    rw [children']
    refine row.congr offset kept fun d hd => ?_
    rw [Chart.stop_restop]
    exact around d hd
  · rw [Forest.children, others z hz hzx]
    refine row.congr (same z hz hzx).offset kept fun d hd => ?_
    rw [stop hzx]
    exact row.inside d hd

/-- The last child of a node is cut off. -/
theorem cut (charted : Charted f k t r s) (wf : f.WellFormed) (hy : s.nodes y)
    (children : f.children y = ds ++ [x]) (top : x ≠ r) :
    Charted (f.unlink y x) k t r (s.restrict (· ≠ x)) := by
  have parent := wf.parent_last children
  have node := Forest.node_unlink (wf.parent_lt_size parent) (Forest.lt_size_of_parent parent)
  have same : ∀ z, z ≠ x → SameEntry f (f.unlink y x) k k s (s.restrict (· ≠ x)) z := fun z hz =>
    ⟨by rw [node]; rfl, by rw [node], rfl, rfl, fun member => ⟨member, hz⟩⟩
  refine ⟨⟨charted.root, top.symm⟩, fun z hz => ?_, fun z hz => ?_⟩
  · rw [Forest.size_unlink]
    exact charted.known z hz.1
  have row := charted.row z hz.1
  by_cases hzy : z = y
  · subst hzy
    rw [children] at row
    obtain ⟨before, -, -⟩ := row.front
    rw [wf.children_unlink_last children]
    refine before.congr (same z hz.2).offset (fun d hd => ?_) before.inside
    exact same d fun e => wf.not_mem_front children (e ▸ hd)
  · rw [Forest.children, node, if_neg hzy]
    refine row.congr (same z hz.2).offset (fun d hd => same d ?_) row.inside
    rintro rfl
    rw [(wf.linked z d).2 hd] at parent
    exact hzy (Option.some.inj parent)

/-! ## Order -/

/-- The walk below a node goes forward in the text, and stays within the node. -/
theorem walk_row (charted : Charted f k t r s) (top : ∀ p, r ∉ f.children p) (n : Nat) :
    ∀ y, s.nodes y →
      (∀ z ∈ (f.children y).flatMap (f.walk n), Entry f k t s z ∧ f.offset z < s.stop y
          ∧ (y ≠ r → f.offset y < f.offset z))
        ∧ ((f.children y).flatMap (f.walk n)).Pairwise fun a b => f.offset a < f.offset b := by
  induction n with
  | zero =>
      intro y _
      have none : (f.children y).flatMap (f.walk 0) = [] := by simp [Forest.walk]
      rw [none]
      exact ⟨List.forall_mem_nil _, .nil⟩
  | succ n ih =>
      intro y hy
      have row := charted.row y hy
      -- A child comes first in its own walk, and what is below it stays within it.
      have within : ∀ d ∈ f.children y, ∀ z ∈ f.walk (n + 1) d,
          Entry f k t s z ∧ f.offset d ≤ f.offset z ∧ f.offset z < s.stop d := by
        intro d hd z hz
        have entry := row.entry d hd
        rw [Forest.walk] at hz
        rcases List.mem_cons.1 hz with rfl | hz
        · exact ⟨entry, Nat.le_refl _, entry.long⟩
        · obtain ⟨entry', stops, later⟩ := (ih d entry.mem).1 z hz
          have ne : d ≠ r := fun e => top y (e ▸ hd)
          exact ⟨entry', Nat.le_of_lt (later ne), stops⟩
      refine ⟨fun z hz => ?_, List.pairwise_flatMap.2 ⟨fun d hd => ?_, ?_⟩⟩
      · obtain ⟨d, hd, hz⟩ := List.mem_flatMap.1 hz
        obtain ⟨entry, later, stops⟩ := within d hd z hz
        refine ⟨entry, Nat.lt_of_lt_of_le stops (row.inside d hd), fun ne => ?_⟩
        exact Nat.lt_of_lt_of_le (row.below ne d hd) later
      · obtain ⟨below, sorted⟩ := ih d (row.entry d hd).mem
        have ne : d ≠ r := fun e => top y (e ▸ hd)
        rw [Forest.walk]
        exact List.pairwise_cons.2 ⟨fun z hz => (below z hz).2.2 ne, sorted⟩
      · refine row.apart.imp_of_mem fun {d d'} hd hd' apart z hz z' hz' => ?_
        obtain ⟨-, -, stops⟩ := within d hd z hz
        obtain ⟨-, later, -⟩ := within d' hd' z' hz'
        omega

end Charted

end Engine

end Needlework
