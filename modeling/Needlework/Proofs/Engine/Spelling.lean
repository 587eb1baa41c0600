import Mathlib.Data.Fintype.Card
import Needlework.Proofs.Engine.Steps

/-!
# What a tree spells

A tree that a scan has built spells a text.  A text node spells its content.  Any other
node spells the needle at which it was opened, then what its children spell, and then
the needle at which it was closed, if it was.

*Marks.*  The needles are not in the tree.  They are read off the steps of the parse
(`Marks.next`): a node is opened and closed while a hook deals with a needle, and that
needle is its mark.

*The relation.*  `source` computes what is below a node.  The proofs use the relation
`Spells`, which follows the tree and needs no bound on its depth.  In a well-formed forest
the two agree (`source_eq`).
-/

namespace Needlework

namespace Engine

variable {σ : Type} {f f' : Forest}

/-! ## Marks -/

/-- Whether a step has succeeded. -/
def Moment.succeeds (m : Moment σ) : Bool :=
  match m.reply with
  | .ok _ => true
  | .error _ => false

/-- The needle that is being dealt with, and the needles at which the nodes were opened and
closed. -/
structure Marks where
  needle : Text := []
  opener : Handle → Text := fun _ => []
  closer : Handle → Text := fun _ => []

namespace Marks

/-- A node is opened at the needle. -/
def opened (k : Marks) (h : Handle) : Marks :=
  { k with
    opener := fun x => if x = h then k.needle else k.opener x
    closer := fun x => if x = h then [] else k.closer x }

/-- A node is closed at the needle. -/
def closed (k : Marks) (h : Handle) : Marks :=
  { k with closer := fun x => if x = h then k.needle else k.closer x }

/-- The marks after a step. -/
def next (k : Marks) (m : Moment σ) : Marks :=
  match m.step with
  | .enter (.handleStatus _ needle) => { k with needle := needle }
  | .op (.push (.node h)) => if m.succeeds then k.opened h else k
  | .op .pop =>
      match m.before.engine.stack with
      | [] => k
      | top :: _ => if m.succeeds then k.closed top else k
  | _ => k

end Marks

/-- The marks after a list of steps. -/
def marks (ms : List (Moment σ)) : Marks := ms.foldl Marks.next {}

/-! ## Spelling -/

/-- What a node spells, a bounded number of levels down. -/
def spell (f : Forest) (k : Marks) : Nat → Handle → Text
  | 0, _ => []
  | n + 1, h =>
      match (f.node h).content? with
      | some c => c
      | none => k.opener h ++ (f.children h).flatMap (spell f k n) ++ k.closer h

/-- What the children of a node spell. -/
def source (f : Forest) (k : Marks) (h : Handle) : Text :=
  (f.children h).flatMap (spell f k f.size)

/-- Some nodes in a row spell a text. -/
inductive Spells (f : Forest) (k : Marks) : List Handle → Text → Prop where
  | nil : Spells f k [] []
  | text {h : Handle} {hs : List Handle} {c s : Text} : (f.node h).content? = some c →
      Spells f k hs s → Spells f k (h :: hs) (c ++ s)
  | node {h : Handle} {hs : List Handle} {s t : Text} : (f.node h).content? = none →
      Spells f k (f.children h) s → Spells f k hs t →
      Spells f k (h :: hs) (k.opener h ++ s ++ k.closer h ++ t)

namespace Spells

variable {k k' : Marks} {hs hs' : List Handle} {s s' t : Text}

theorem append (h : Spells f k hs s) (h' : Spells f k hs' s') : Spells f k (hs ++ hs') (s ++ s') := by
  induction h with
  | nil => exact h'
  | text hc _ ih =>
      rw [List.cons_append, List.append_assoc]
      exact .text hc ih
  | node hc hchildren _ _ ih =>
      rw [List.cons_append, List.append_assoc]
      exact .node hc hchildren ih

theorem exists_of_append (h : Spells f k (hs ++ hs') t) :
    ∃ s s', t = s ++ s' ∧ Spells f k hs s ∧ Spells f k hs' s' := by
  induction hs generalizing t with
  | nil => exact ⟨[], t, rfl, .nil, h⟩
  | cons x hs ih =>
    cases h with
    | text hc hrest =>
        obtain ⟨s, s', rfl, hs, hs'⟩ := ih hrest
        exact ⟨_, s', (List.append_assoc ..).symm, .text hc hs, hs'⟩
    | node hc hchildren hrest =>
        obtain ⟨s, s', rfl, hs, hs'⟩ := ih hrest
        exact ⟨_, s', (List.append_assoc ..).symm, .node hc hchildren hs, hs'⟩

end Spells

/-- A node that is the same in two forests, apart from its links. -/
structure SameSelf (f f' : Forest) (k k' : Marks) (h : Handle) : Prop where
  content : (f'.node h).content? = (f.node h).content?
  origin : (f'.node h).origin = (f.node h).origin
  opener : k'.opener h = k.opener h
  closer : k'.closer h = k.closer h

/-- A node that is the same in two forests, together with its children. -/
structure SameAt (f f' : Forest) (k k' : Marks) (h : Handle) : Prop
    extends SameSelf f f' k k' h where
  children : f'.children h = f.children h

theorem SameAt.of_node_eq {k : Marks} {h : Handle} (hn : f'.node h = f.node h) :
    SameAt f f' k k h where
  content := by rw [hn]
  origin := by rw [hn]
  opener := rfl
  closer := rfl
  children := by rw [Forest.children, Forest.children, hn]

variable {k k' : Marks} {hs : List Handle} {s : Text}

/-- What some nodes spell depends on the nodes below them only. -/
theorem Spells.congr (wf : f.WellFormed) (h : Spells f k hs s)
    (same : ∀ d ∈ hs, ∀ x, f.Over d x → SameAt f f' k k' x) : Spells f' k' hs s := by
  induction h with
  | nil => exact .nil
  | text hc _ ih =>
      have here := same _ (List.mem_cons_self ..) _ (.refl f _)
      refine .text (here.content.trans hc) (ih fun d hd => same d (List.mem_cons_of_mem _ hd))
  | node hc _ _ ihc ih =>
      rename_i x hs s t _ _
      have here := same x (List.mem_cons_self ..) x (.refl f x)
      have below := ihc fun d hd y hy =>
        same x (List.mem_cons_self ..) y (.trans (.of_parent ((wf.linked x d).2 hd)) hy)
      have rest := ih fun d hd => same d (List.mem_cons_of_mem _ hd)
      rw [← here.opener, ← here.closer]
      rw [← here.children] at below
      exact .node (here.content.trans hc) below rest

/-- Text that is written to a node comes after what its children spell. -/
theorem Spells.writes (wf : f.WellFormed) {p : Handle} (hp : p < f.size) {u : Text}
    {origin : Option Int} (hw : f.Writes p u origin f') (h : Spells f k (f.children p) s) :
    Spells f' k (f'.children p) (s ++ u) := by
  cases hw with
  | @last c hlast htext =>
      obtain ⟨cs, hcs⟩ := List.getLast?_eq_some_iff.mp hlast
      have parent := wf.parent_of_lastChild? hlast
      have children : (f.update c (Node.appendText u)).children p = cs ++ [c] :=
        (Forest.children_update_appendText f c p u).trans hcs
      rw [hcs] at h
      obtain ⟨s₁, s₂, rfl, before, last⟩ := h.exists_of_append
      have before' : Spells (f.update c (Node.appendText u)) k cs s₁ :=
        before.congr wf fun d hd y hover => .of_node_eq (wf.node_update_of_over hcs hd hover _)
      have content := Forest.content?_update_appendText (Forest.lt_size_of_parent parent) u
      rw [children, List.append_assoc]
      refine before'.append ?_
      cases last with
      | @text _ _ b _ hb hrest =>
          cases hrest
          rw [hb, Option.map_some] at content
          have spelled := Spells.text (k := k) content .nil
          rw [List.append_nil] at spelled
          rw [List.append_nil]
          exact spelled
      | node hb _ _ =>
          rw [Node.isText_eq_isSome, hb] at htext
          cases htext
  | new _ =>
      have before : Spells (f.growText p u origin) k (f.children p) s :=
        h.congr wf fun d hd y hover => .of_node_eq (wf.node_grow_of_over hd hover _)
      have last := Spells.text (k := k) (Forest.content?_growText hp u origin) .nil
      rw [List.append_nil] at last
      rw [Forest.children_growText hp]
      exact before.append last

/-- A path through a forest is no longer than the table. -/
theorem length_lt_of_path (wf : f.WellFormed) {path : List Handle} {d : Handle} (nodup : path.Nodup)
    (known : ∀ a ∈ path, a < f.size) (hd : d < f.size) (above : ∀ a ∈ path, f.ProperlyOver a d) :
    path.length < f.size := by
  have longer : (d :: path).Nodup :=
    List.nodup_cons.mpr ⟨fun hm => wf.acyclic d (above d hm), nodup⟩
  have within : ∀ a ∈ d :: path, a ∈ List.range f.size := by
    intro a ha
    rw [List.mem_range]
    rcases List.mem_cons.mp ha with rfl | ha
    · exact hd
    · exact known a ha
  have := (longer.subperm within).length_le
  rw [List.length_range, List.length_cons] at this
  omega

/-- The levels that a path from above has left are enough. -/
theorem flatMap_spell (wf : f.WellFormed) (h : Spells f k hs s) : ∀ (n : Nat) (path : List Handle),
    path.Nodup → (∀ a ∈ path, a < f.size) → (∀ d ∈ hs, d < f.size ∧ ∀ a ∈ path, f.ProperlyOver a d) →
    f.size ≤ n + path.length → hs.flatMap (spell f k n) = s := by
  induction h with
  | nil => exact fun _ _ _ _ _ _ => rfl
  | text hc _ ih =>
      intro n path nodup known above enough
      have first := above _ (List.mem_cons_self ..)
      have room := length_lt_of_path wf nodup known first.1 first.2
      obtain ⟨n, rfl⟩ : ∃ j, n = j + 1 := ⟨n - 1, by omega⟩
      rw [List.flatMap_cons, ih (n + 1) path nodup known (fun d hd => above d (List.mem_cons_of_mem _ hd)) enough,
        spell, hc]
  | node hc _ _ ihc ih =>
      rename_i x hs s t _ _
      intro n path nodup known above enough
      have first := above x (List.mem_cons_self ..)
      have room := length_lt_of_path wf nodup known first.1 first.2
      obtain ⟨n, rfl⟩ : ∃ j, n = j + 1 := ⟨n - 1, by omega⟩
      have below : (f.children x).flatMap (spell f k n) = s := by
        refine ihc n (x :: path) ?_ ?_ ?_ (by rw [List.length_cons]; omega)
        · exact List.nodup_cons.mpr ⟨fun hm => wf.acyclic x (first.2 x hm), nodup⟩
        · intro a ha
          rcases List.mem_cons.mp ha with rfl | ha
          · exact first.1
          · exact known a ha
        · intro d hd
          have parent := (wf.linked x d).2 hd
          refine ⟨wf.lt_size hd, fun a ha => ?_⟩
          rcases List.mem_cons.mp ha with rfl | ha
          · exact Relation.TransGen.single parent
          · exact Relation.TransGen.head parent (first.2 a ha)
      rw [List.flatMap_cons, ih (n + 1) path nodup known (fun d hd => above d (List.mem_cons_of_mem _ hd)) enough,
        spell, hc]
      dsimp only
      rw [below]

/-- In a well-formed forest the computed text is the one that is spelled. -/
theorem source_eq (wf : f.WellFormed) {h : Handle} (hs : Spells f k (f.children h) s) :
    source f k h = s :=
  flatMap_spell wf hs f.size [] List.nodup_nil (fun _ ha => absurd ha List.not_mem_nil)
    (fun _ hd => ⟨wf.lt_size hd, fun _ ha => absurd ha List.not_mem_nil⟩) (Nat.le_refl _)

end Engine

end Needlework
