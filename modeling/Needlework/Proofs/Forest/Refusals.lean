import Needlework.Proofs.Forest.Histories

/-!
# Refused edits

An edit that moves a node checks everything before it writes anything.  This is so in any
table whose nodes have ids of their own (`Grounded`), however the links have been corrupted:
a parent that is recorded need not list the node, a list of children may repeat an entry or hold
the child of another, and a destroyed node may be attached.

*Two lookups.*  An insertion beside a child looks the child up, takes its node from the old
parent, and looks the child up again.  The second lookup comes after a write.  It finds the child
because the entry that has gone is another node (`mem_children_withoutEntry`).

*Acceptance.*  `Edit.Accepted` says what an edit needs.  Edits that have it succeed, and the others
leave the table alone (`refused_edit_changes_nothing`).  A cycle among the parents of the receiver
is the only corruption that is ruled out, since the search for the node among them must end.
-/

namespace Needlework

open Relation

variable {f f' : Forest} {c d h n p q r : Handle} {α : Type}

namespace Forest

/-- An action that succeeds if a condition holds, and is refused without a change if not. -/
def AllOrNothing (f : Forest) (P : Prop) (x : TreeM α) : Prop :=
  (P ∧ ∃ a f', x.run f = .ok a f') ∨ ¬ P ∧ ∃ e, x.run f = .error e f

namespace AllOrNothing

variable {P : Prop} {x : TreeM α}

/-- It succeeds exactly if the condition holds. -/
theorem exists_ok_iff (h : f.AllOrNothing P x) : (∃ a f', x.run f = .ok a f') ↔ P := by
  rcases h with ⟨hP, hok⟩ | ⟨hP, e, hrun⟩
  · exact ⟨fun _ => hP, fun _ => hok⟩
  · refine ⟨fun ⟨a, f', hok⟩ => ?_, fun h => absurd h hP⟩
    rw [hrun] at hok
    cases hok

/-- Where it is refused, nothing has changed. -/
theorem eq_of_error (h : f.AllOrNothing P x) {e : Fault} (hrun : x.run f = .error e f') :
    f' = f := by
  rcases h with ⟨-, a, g, hok⟩ | ⟨-, e', hrun'⟩
  · rw [hok] at hrun
    cases hrun
  · rw [hrun'] at hrun
    cases hrun
    rfl

/-- An action on a node that is given as an argument. -/
theorem asChild (y : Handle → TreeM Unit) (h : f.AllOrNothing P (y n)) :
    f.AllOrNothing P (do
      let c ← (Arg.node n).asChild
      y c
      return c) := by
  rcases h with ⟨hP, a, f', hrun⟩ | ⟨hP, e, hrun⟩
  · refine .inl ⟨hP, n, f', ?_⟩
    change (do y n; return n : TreeM Handle).run f = .ok n f'
    rw [EStateM.run_bind, hrun]
    rfl
  · refine .inr ⟨hP, e, ?_⟩
    change (do y n; return n : TreeM Handle).run f = .error e f
    rw [EStateM.run_bind, hrun]

end AllOrNothing

/-! ## Taking an entry out -/

theorem children_setParent (f : Forest) (c : Handle) (o : Option Handle) (k : Handle) :
    (f.setParent c o).children k = f.children k := by
  rw [children, setParent, node_update]
  split
  · rfl
  · rfl

theorem children_setChildren (known : p < f.size) (cs : List Handle) (k : Handle) :
    (f.setChildren p cs).children k = if k = p then cs else f.children k := by
  rw [children, node_setChildren known]

@[simp] theorem idOf_setParent (f : Forest) (c : Handle) (o : Option Handle) (k : Handle) :
    (f.setParent c o).idOf k = f.idOf k := by
  rw [idOf, setParent, node_update]
  split
  · rfl
  · rfl

@[simp] theorem idOf_setChildren (f : Forest) (p : Handle) (cs : List Handle) (k : Handle) :
    (f.setChildren p cs).idOf k = f.idOf k := by
  rw [idOf, setChildren, node_update]
  split
  · rfl
  · rfl

/-- A table in which one entry of a list of children has been taken out. -/
def withoutEntry (f : Forest) (p : Handle) (i : Nat) (c : Handle) : Forest :=
  (f.setChildren p ((f.children p).eraseIdx i)).setParent c none

theorem idOf_withoutEntry (f : Forest) (p : Handle) (i : Nat) (c h : Handle) :
    (f.withoutEntry p i c).idOf h = f.idOf h := by
  simp [withoutEntry]

/-- The entries of other nodes stay. -/
theorem mem_children_withoutEntry {i : Nat} (entry : (f.children p)[i]? = some c) (hr : r ≠ c)
    (member : r ∈ f.children q) : r ∈ (f.withoutEntry p i c).children q := by
  have known : p < f.size := lt_size_of_mem_children (List.mem_of_getElem? entry)
  rw [withoutEntry, children_setParent, children_setChildren known]
  split
  next same =>
    subst same
    obtain ⟨j, hj⟩ := List.mem_iff_getElem?.1 member
    refine List.mem_eraseIdx_iff_getElem?.2 ⟨j, fun hij => ?_, hj⟩
    rw [hij, entry] at hj
    exact hr (Option.some.inj hj).symm
  next => exact member

/-- The entry at an index is refused if it records another parent. -/
theorem run_removeAt_of_parent_ne {i : Nat} (entry : (f.children p)[i]? = some c)
    (hp : f.parent c ≠ some p) : ∃ e, (removeAt p i).run f = .error e f := by
  simp only [removeAt, EStateM.run_bind, EStateM.run_get, Int.toNat_natCast, entry, hp,
    Int.not_ofNat_neg, if_false, ne_eq, not_false_eq_true, if_true]
  exact ⟨_, rfl⟩

/-! ## Corrupted tables -/

/-- Nodes have ids of their own, and links lead to nodes of the table.  The links may be as they
like otherwise. -/
structure Grounded (f : Forest) : Prop where
  distinct : ∀ h k, h < f.size → k < f.size → f.idOf h = f.idOf k → h = k
  above : ∀ c p, f.parent c = some p → p < f.size
  below : ∀ p, ∀ c ∈ f.children p, c < f.size

/-- What stands outside the table has no links. -/
theorem grounded_iff : f.Grounded ↔
    (∀ h < f.size, ∀ k < f.size, f.idOf h = f.idOf k → h = k)
      ∧ (∀ c < f.size, ∀ p ∈ f.parent c, p < f.size)
      ∧ ∀ p < f.size, ∀ c ∈ f.children p, c < f.size := by
  constructor
  · intro grounded
    exact ⟨fun h hh k => grounded.distinct h k hh, fun c _ p => grounded.above c p,
      fun p _ => grounded.below p⟩
  · intro ⟨distinct, above, below⟩
    exact ⟨fun h k hh => distinct h hh k, fun c p hp => above c (lt_size_of_parent hp) p hp,
      fun p c hc => below p (lt_size_of_mem_children hc) c hc⟩

instance : Decidable f.Grounded := decidable_of_iff _ grounded_iff.symm

/-- The chain of parents above a node comes to an end. -/
def ChainEnds (f : Forest) (h : Handle) : Prop := ∃ top, f.Over top h ∧ f.parent top = none

/-- The parent that a node records, if it records one, lists the node. -/
def Listed (f : Forest) (n : Handle) : Prop := ∀ p, f.parent n = some p → n ∈ f.children p

end Forest

namespace Edit

/-- The edits that move a node: the four insertions, and removals without destruction. -/
def Moves : Edit → Prop
  | .append _ _ | .prepend _ _ | .insertBefore _ _ _ | .insertAfter _ _ _ => True
  | .remove _ _ andDestroy => andDestroy = false
  | _ => False

/-- The node whose list of children an edit is about. -/
def receiver? : Edit → Option Handle
  | .append p _ | .prepend p _ | .insertBefore p _ _ | .insertAfter p _ _ | .remove p _ _ => some p
  | _ => none

/-- What a move needs.  A node that is inserted must be insertable and in order with its old parent.
A reference must be another child.  A node that is removed must be listed here and record it. -/
def Accepted (f : Forest) : Edit → Prop
  | .append p (.node n) | .prepend p (.node n) => f.Insertable p n ∧ f.Listed n
  | .insertBefore p (.node n) (.node r) | .insertAfter p (.node n) (.node r) =>
      f.Insertable p n ∧ f.Listed n ∧ r ≠ n ∧ r ∈ f.children p
  | .remove p (.node c) _ => c ∈ f.children p ∧ f.parent c = some p
  | .remove p (.other (.int i)) _ =>
      0 ≤ i ∧ ∃ c, (f.children p)[i.toNat]? = some c ∧ f.parent c = some p
  | _ => False

end Edit

namespace Forest

/-- What lies on a chain that ends is not above itself. -/
theorem ChainEnds.not_properlyOver (ends : f.ChainEnds h) (onChain : f.Over d h) :
    ¬ f.ProperlyOver d d := by
  obtain ⟨top, htop, hnone⟩ := ends
  have below : f.Over top d := by
    rcases htop.total onChain with hover | hover
    · exact hover
    · rw [hover.eq_of_parent_none hnone]
      exact .refl f top
  clear htop onChain
  induction below using ReflTransGen.head_induction_on with
  | refl =>
      intro cycle
      obtain ⟨p, hp, -⟩ := TransGen.head'_iff.1 cycle
      rw [hnone] at hp
      cases hp
  | @head x y hxy _ ih =>
      intro cycle
      -- A cycle through a node goes on through its parent.
      obtain ⟨p, hp, back⟩ := TransGen.head'_iff.1 cycle
      rw [hxy] at hp
      cases hp
      exact ih (TransGen.tail' back hxy)

namespace Grounded

variable (grounded : f.Grounded)

include grounded

/-- Where the chain of parents ends, the lineage lists all of it. -/
theorem mem_lineage_iff (ends : f.ChainEnds p) (known : p < f.size) :
    n ∈ f.lineage p ↔ f.Over n p :=
  WellFormed.mem_lineage_iff_of_acyclic (fun _ hx => ends.not_properlyOver hx) grounded.above known

/-! ## Lookup -/

/-- The entry with the id of a node is the node. -/
theorem getElem?_of_indexOf? (known : c < f.size) {i : Nat} (found : f.indexOf? p c = some i) :
    (f.children p)[i]? = some c := by
  rw [indexOf?, List.findIdx?_eq_some_iff_getElem] at found
  obtain ⟨hi, same, -⟩ := found
  have entry := grounded.below p _ (List.getElem_mem hi)
  rw [List.getElem?_eq_getElem hi, grounded.distinct _ _ entry known (by simpa using same)]

omit grounded in
/-- What is listed is found. -/
theorem exists_indexOf? (member : c ∈ f.children p) : ∃ i, f.indexOf? p c = some i := by
  cases found : f.indexOf? p c with
  | some i => exact ⟨i, rfl⟩
  | none =>
      rw [indexOf?, List.findIdx?_eq_none_iff] at found
      have missed := found c member
      simp at missed

/-- What is not listed is not found. -/
theorem indexOf?_eq_none (known : c < f.size) (missing : c ∉ f.children p) :
    f.indexOf? p c = none := by
  cases found : f.indexOf? p c with
  | none => rfl
  | some i => exact absurd (List.mem_of_getElem? (grounded.getElem?_of_indexOf? known found)) missing

/-! ## Removing -/

/-- A child that records the parent is taken out, one entry of it.  Any other node is refused. -/
theorem removeNode_cases (known : c < f.size) (p : Handle) :
    (c ∈ f.children p ∧ f.parent c = some p ∧ ∃ i, (f.children p)[i]? = some c
        ∧ (removeNode p c).run f = .ok c (f.withoutEntry p i c))
      ∨ ¬ (c ∈ f.children p ∧ f.parent c = some p)
        ∧ ∃ e, (removeNode p c).run f = .error e f := by
  rw [removeNode, EStateM.run_bind, run_requireIndex]
  cases found : f.indexOf? p c with
  | none =>
      refine .inr ⟨fun linked => ?_, _, rfl⟩
      obtain ⟨i, hi⟩ := exists_indexOf? linked.1
      rw [found] at hi
      cases hi
  | some i =>
      have entry := grounded.getElem?_of_indexOf? known found
      by_cases hp : f.parent c = some p
      · exact .inl ⟨List.mem_of_getElem? entry, hp, i, entry, run_removeAt_of_parent entry hp⟩
      · exact .inr ⟨fun hc => hp hc.2, run_removeAt_of_parent_ne entry hp⟩

/-- A node is taken from its old parent, or the table stays as it is.  The other entries of every
list of children stay, and so do the ids. -/
theorem detach_cases (known : n < f.size) :
    (f.Listed n ∧ ∃ f', (detach n).run f = .ok () f' ∧ (∀ h, f'.idOf h = f.idOf h)
        ∧ ∀ p r, r ≠ n → r ∈ f.children p → r ∈ f'.children p)
      ∨ ¬ f.Listed n ∧ ∃ e, (detach n).run f = .error e f := by
  rw [detach, EStateM.run_bind, EStateM.run_get]
  dsimp only
  cases hq : f.parent n with
  | none =>
      refine .inl ⟨fun p hp => ?_, f, rfl, fun _ => rfl, fun _ _ _ hr => hr⟩
      rw [hq] at hp
      cases hp
  | some q =>
      rcases grounded.removeNode_cases known q with ⟨member, -, i, entry, hrun⟩ | ⟨unlisted, e, hrun⟩
      · refine .inl ⟨fun p hp => ?_, _, ?_, fun h => idOf_withoutEntry f q i n h, fun p r hr member => ?_⟩
        · rw [hq] at hp
          cases hp
          exact member
        · rw [EStateM.run_bind, hrun]
          rfl
        · exact mem_children_withoutEntry entry hr member
      · refine .inr ⟨fun listed => unlisted ⟨listed q hq, hq⟩, e, ?_⟩
        rw [EStateM.run_bind, hrun]

omit grounded in
/-- Taking the child at an index needs a child there that records the parent. -/
theorem allOrNothing_removeAt (p : Handle) (index : Int) :
    f.AllOrNothing (0 ≤ index ∧ ∃ c, (f.children p)[index.toNat]? = some c ∧ f.parent c = some p)
      (removeAt p index) := by
  rcases Int.lt_or_le index 0 with negative | nonnegative
  · refine .inr ⟨fun h => by omega, .edit (.noSuchChild index (f.idOf p) (f.children p).length), ?_⟩
    simp only [removeAt, EStateM.run_bind, EStateM.run_get, negative, if_true, run_refuse]
  lift index to Nat using nonnegative with i
  simp only [Int.toNat_natCast]
  cases entry : (f.children p)[i]? with
  | none =>
      refine .inr ⟨?_, .edit (.noSuchChild i (f.idOf p) (f.children p).length), ?_⟩
      · rintro ⟨-, _, ⟨⟩, -⟩
      · simp only [removeAt, EStateM.run_bind, EStateM.run_get, Int.toNat_natCast, entry,
          Int.not_ofNat_neg, if_false, run_refuse]
  | some c =>
      by_cases hp : f.parent c = some p
      · exact .inl ⟨⟨by omega, c, rfl, hp⟩, c, _, run_removeAt_of_parent entry hp⟩
      · refine .inr ⟨?_, run_removeAt_of_parent_ne entry hp⟩
        rintro ⟨-, _, ⟨⟩, records⟩
        exact hp records

/-- Removing a child without destroying it, whatever is given as the child. -/
theorem allOrNothing_removeChild {child : Arg} (fits : child.Fits f) :
    f.AllOrNothing ((Edit.remove p child false).Accepted f) (removeChild p child false) := by
  cases child with
  | node c =>
      have same : removeChild p (.node c) false = removeNode p c := by simp [removeChild]
      rw [same]
      rcases grounded.removeNode_cases fits p with ⟨member, hp, i, -, hrun⟩ | refused
      · exact .inl ⟨⟨member, hp⟩, c, _, hrun⟩
      · exact .inr refused
  | other v =>
      cases v with
      | int i =>
          have same : removeChild p (.other (.int i)) false = removeAt p i := by simp [removeChild]
          rw [same]
          exact allOrNothing_removeAt p i
      | _ => exact .inr ⟨id, _, rfl⟩

/-! ## Inserting -/

/-- An insertion at one end needs an insertable node that is in order with its old parent. -/
theorem allOrNothing_insert (ends : f.ChainEnds p) (hp : p < f.size) (hn : n < f.size)
    (place : List Handle → List Handle) :
    f.AllOrNothing (f.Insertable p n ∧ f.Listed n) (do
      checkInsertable p n
      detach n
      attach p n place) := by
  rcases checkInsertable_cases (grounded.mem_lineage_iff ends hp) with ⟨hi, check⟩ | ⟨hi, e, check⟩
  · rcases grounded.detach_cases hn with ⟨listed, f', off, -⟩ | ⟨unlisted, e, off⟩
    · refine .inl ⟨⟨hi, listed⟩, (), f'.after (attach p n place), ?_⟩
      simp only [EStateM.run_bind, check, off]
      rfl
    · refine .inr ⟨fun h => unlisted h.2, e, ?_⟩
      simp only [EStateM.run_bind, check, off]
  · refine .inr ⟨fun h => hi h.1, e, ?_⟩
    simp only [EStateM.run_bind, check]

/-- The check of an insertion beside a child wants the reference to be another child. -/
theorem checkBeside_cases (ends : f.ChainEnds p) (hp : p < f.size) (n : Handle) (hr : r < f.size) :
    (f.Insertable p n ∧ r ≠ n ∧ r ∈ f.children p) ∧ (checkBeside p n (.node r)).run f = .ok r f
      ∨ ¬ (f.Insertable p n ∧ r ≠ n ∧ r ∈ f.children p)
        ∧ ∃ e, (checkBeside p n (.node r)).run f = .error e f := by
  rcases checkInsertable_cases (grounded.mem_lineage_iff (n := n) ends hp)
    with ⟨hi, check⟩ | ⟨hi, e, check⟩
  · by_cases same : r = n
    · refine .inr ⟨fun h => h.2.1 same, .edit .besideItself, ?_⟩
      simp only [checkBeside, EStateM.run_bind, check, same, if_true]
      rfl
    by_cases member : r ∈ f.children p
    · obtain ⟨i, found⟩ := exists_indexOf? member
      refine .inl ⟨⟨hi, same, member⟩, ?_⟩
      simp only [checkBeside, EStateM.run_bind, check, same, if_false, run_requireIndex, found]
      rfl
    · refine .inr ⟨fun h => member h.2.2, .edit (.notAChild (f.idOf r) (f.idOf p)), ?_⟩
      have missing := grounded.indexOf?_eq_none hr member
      simp only [checkBeside, EStateM.run_bind, check, same, if_false, run_requireIndex, missing]
  · refine .inr ⟨fun h => hi h.1, e, ?_⟩
    simp only [checkBeside, EStateM.run_bind, check]

/-- After the node has left its old parent, the reference of an insertion is found again. -/
theorem allOrNothing_insertBeside (ends : f.ChainEnds p) (hp : p < f.size) (hn : n < f.size)
    (hr : r < f.size) (shift : Nat) :
    f.AllOrNothing (f.Insertable p n ∧ f.Listed n ∧ r ≠ n ∧ r ∈ f.children p)
      (insertBeside p n (.node r) shift) := by
  rcases grounded.checkBeside_cases ends hp n hr with ⟨⟨hi, other, member⟩, check⟩ | ⟨unfit, e, check⟩
  · rcases grounded.detach_cases hn with ⟨listed, f', off, -, others⟩ | ⟨unlisted, e, off⟩
    · obtain ⟨i, found⟩ := exists_indexOf? (others p r other member)
      refine .inl ⟨⟨hi, listed, other, member⟩, (), f'.after (attach p n (·.insertIdx (i + shift) n)), ?_⟩
      simp only [insertBeside, EStateM.run_bind, check, off, run_requireIndex, found]
      rfl
    · refine .inr ⟨fun h => unlisted h.2.1, e, ?_⟩
      simp only [insertBeside, EStateM.run_bind, check, off]
  · refine .inr ⟨fun h => unfit ⟨h.1, h.2.2⟩, e, ?_⟩
    simp only [insertBeside, EStateM.run_bind, check]

/-- What is no node is no reference. -/
theorem allOrNothing_insertBeside_other (ends : f.ChainEnds p) (hp : p < f.size) (n : Handle)
    (v : Value) (shift : Nat) :
    f.AllOrNothing False (insertBeside p n (.other v) shift) := by
  rcases checkInsertable_cases (grounded.mem_lineage_iff (n := n) ends hp)
    with ⟨-, check⟩ | ⟨-, e, check⟩
  · refine .inr ⟨id, .edit .referenceNotANode, ?_⟩
    simp only [insertBeside, checkBeside, EStateM.run_bind, check]
    rfl
  · refine .inr ⟨id, e, ?_⟩
    simp only [insertBeside, checkBeside, EStateM.run_bind, check]

/-! ## Edits -/

/-- Every move is done as a whole or not at all. -/
theorem allOrNothing_move {e : Edit} (moves : e.Moves) (fits : e.Fits f)
    (ends : ∀ p, e.receiver? = some p → f.ChainEnds p) : f.AllOrNothing (e.Accepted f) e.run := by
  cases e with
  | append p n =>
      cases n with
      | other v => exact .inr ⟨id, _, rfl⟩
      | node n =>
          exact .asChild (append p) (grounded.allOrNothing_insert (ends p rfl) fits.1 fits.2 (· ++ [n]))
  | prepend p n =>
      cases n with
      | other v => exact .inr ⟨id, _, rfl⟩
      | node n =>
          exact .asChild (prepend p) (grounded.allOrNothing_insert (ends p rfl) fits.1 fits.2 (n :: ·))
  | insertBefore p n r =>
      cases n with
      | other v => exact .inr ⟨id, _, rfl⟩
      | node n =>
          refine .asChild (insertBefore p · r) ?_
          obtain ⟨hp, hn, hr⟩ := fits
          cases r with
          | other v => exact grounded.allOrNothing_insertBeside_other (ends p rfl) hp n v 0
          | node r => exact grounded.allOrNothing_insertBeside (ends p rfl) hp hn hr 0
  | insertAfter p n r =>
      cases n with
      | other v => exact .inr ⟨id, _, rfl⟩
      | node n =>
          refine .asChild (insertAfter p · r) ?_
          obtain ⟨hp, hn, hr⟩ := fits
          cases r with
          | other v => exact grounded.allOrNothing_insertBeside_other (ends p rfl) hp n v 1
          | node r => exact grounded.allOrNothing_insertBeside (ends p rfl) hp hn hr 1
  | remove p child andDestroy =>
      obtain rfl : andDestroy = false := moves
      exact grounded.allOrNothing_removeChild fits.2
  | create | destroy | appendToLastText | appendText | setContent | setFlag => cases moves

end Grounded

/-- In a table whose nodes have ids of their own, an insertion, or a removal without destruction,
succeeds exactly if it is accepted, and if it is refused then nothing has changed.  The links may be
as they like, except that the chain of parents above the receiver comes to an end. -/
theorem refused_edit_changes_nothing (grounded : f.Grounded) {e : Edit} (moves : e.Moves)
    (fits : e.Fits f) (ends : ∀ p, e.receiver? = some p → f.ChainEnds p) :
    ((∃ h f', e.run.run f = .ok h f') ↔ e.Accepted f)
      ∧ ∀ fault f', e.run.run f = .error fault f' → f' = f := by
  have h := grounded.allOrNothing_move moves fits ends
  exact ⟨h.exists_ok_iff, fun _ _ => h.eq_of_error⟩

/-- A root with an element that is listed twice, and with a text that is listed nowhere else than
here but records the element as its parent. -/
def tangled : Forest :=
  let f := edited {} [.create .root, .create (.plain none), .create (.text [97] (some 0)),
    .append 0 (.node 1)]
  [.child 0 1, .child 0 2, .parent 2 (some 1)].foldl Tamper.apply f

/-- The text passes all checks of an insertion behind the element, and then the element does not
give it away. -/
theorem refused_edit_changes_nothing_tangled :
    tangled.Grounded ∧ (Edit.insertAfter 0 (.node 2) (.node 1)).Fits tangled ∧ tangled.ChainEnds 0
      ∧ (checkBeside 0 2 (.node 1)).run tangled = .ok 1 tangled
      ∧ ∃ fault, (Edit.insertAfter 0 (.node 2) (.node 1)).run.run tangled = .error fault tangled := by
  have grounded : tangled.Grounded := by decide
  have fits : (Edit.insertAfter 0 (.node 2) (.node 1)).Fits tangled := by decide
  have ends : tangled.ChainEnds 0 := ⟨0, .refl _ _, rfl⟩
  have settled := refused_edit_changes_nothing grounded (e := .insertAfter 0 (.node 2) (.node 1))
    trivial fits (by rintro _ ⟨⟩; exact ends)
  refine ⟨grounded, fits, ends, rfl, ?_⟩
  cases hrun : (Edit.insertAfter 0 (.node 2) (.node 1)).run.run tangled with
  | ok h f' =>
      have listed := (settled.1.1 ⟨h, f', hrun⟩).2.1
      exact absurd (listed 1 rfl) (by decide)
  | error fault f' => exact ⟨fault, by rw [settled.2 fault f' hrun]⟩

/-! ## The faults of refused edits -/

/-- An action that fails by being refused, and in no other way. -/
def Refuses (x : TreeM α) : Prop :=
  ∀ f e f', x.run f = .error e f' → ∃ cause, e = .edit cause

namespace Refuses

/-- An action that does not fail. -/
theorem of_ok {x : TreeM α} (h : ∀ f, ∃ a f', x.run f = .ok a f') : Refuses x := by
  intro f e f' failed
  obtain ⟨a, g, ok⟩ := h f
  rw [ok] at failed
  cases failed

theorem pure (a : α) : Refuses (Pure.pure a : TreeM α) := .of_ok fun _ => ⟨_, _, rfl⟩

theorem get : Refuses (MonadState.get : TreeM Forest) := .of_ok fun _ => ⟨_, _, rfl⟩

theorem refuse (cause : EditFault) : Refuses (Forest.refuse cause : TreeM α) := by
  rintro f e f' ⟨⟩
  exact ⟨cause, rfl⟩

theorem bind {β : Type} {x : TreeM α} {k : α → TreeM β} (hx : Refuses x) (hk : ∀ a, Refuses (k a)) :
    Refuses (x >>= k) := by
  intro f e f' h
  rw [EStateM.run_bind] at h
  cases hr : x.run f with
  | ok a g =>
      rw [hr] at h
      exact hk a g e f' h
  | error e' g =>
      rw [hr] at h
      cases h
      exact hx f e f' hr

theorem ite {P : Prop} [Decidable P] {x y : TreeM α} (hx : Refuses x) (hy : Refuses y) :
    Refuses (if P then x else y) := by
  split
  · exact hx
  · exact hy

/-- A check comes before the rest. -/
theorem check {P : Prop} [Decidable P] {cause : EditFault} {k : Unit → TreeM α} (hk : Refuses (k ())) :
    Refuses (if P then Forest.refuse cause >>= k else k ()) :=
  .ite (.bind (.refuse cause) fun _ => hk) hk

theorem removeAt (p : Handle) (index : Int) : Refuses (removeAt p index) := by
  refine .bind .get fun f => .ite (.refuse _) ?_
  cases (f.children p)[index.toNat]? with
  | none => exact .refuse _
  | some c => exact .check (.of_ok fun _ => ⟨_, _, rfl⟩)

theorem removeNode (p c : Handle) : Refuses (removeNode p c) := by
  refine .bind (.bind .get fun f => ?_) fun i => .removeAt p i
  cases f.indexOf? p c with
  | some i => exact .pure i
  | none => exact .refuse _

theorem detach (n : Handle) : Refuses (detach n) := by
  refine .bind .get fun f => ?_
  cases f.parent n with
  | none => exact .pure ()
  | some p => exact .bind (.removeNode p n) fun _ => .pure ()

theorem append (p n : Handle) : Refuses (append p n) := by
  have insertable : Refuses (checkInsertable p n) :=
    .bind .get fun f => .check (.check (.ite (.refuse _) (.pure ())))
  exact .bind insertable fun _ => .bind (.detach n) fun _ => .of_ok fun _ => ⟨_, _, rfl⟩

theorem create (b : Blueprint) : Refuses (create b) := by
  rw [Forest.create]
  exact .check (.of_ok fun _ => ⟨_, _, rfl⟩)

theorem appendToLastText (p : Handle) (t : Text) (origin : Option Int) :
    Refuses (appendToLastText p t origin) := by
  have begun : Refuses (do Forest.append p (← Forest.create (.text t origin))) :=
    .bind (.create _) fun n => .append p n
  refine .ite (.pure ()) (.bind .get fun f => ?_)
  cases f.lastChild? p with
  | none => exact begun
  | some c => exact .ite (.of_ok fun _ => ⟨_, _, rfl⟩) begun

end Refuses

end Forest

end Needlework
