import Needlework.Proofs.Forest.WellFormed

/-!
# What the edits do

In a well-formed forest every edit is one of the changes of the table, or is refused
and leaves the table as it was.

*Lookup.*  Ids are distinct, so looking a child up by its id finds that child
(`WellFormed.indexOf?_eq_some_iff`).  A removal finds its entry whenever the node
records the parent, and the step that takes a node from its old parent never fails
(`WellFormed.run_detach`).

*Insertions.*  They succeed when the node is `Insertable`, and then the node leaves
its old parent (`uproot`) and is linked below the new one.

*Destruction.*  The pending nodes are off their parents when they are torn down, so
that a teardown that fails leaves a well-formed forest behind at any point.
-/

namespace Needlework

open Relation

namespace Node

/-- More text leaves the rest of a node alone. -/
@[simp] theorem origin_appendText (t : Text) (n : Node) : (n.appendText t).origin = n.origin := by
  cases h : n.form <;> simp [appendText, h]

@[simp] theorem parent_appendText (t : Text) (n : Node) : (n.appendText t).parent = n.parent := by
  cases h : n.form <;> simp [appendText, h]

@[simp] theorem children_appendText (t : Text) (n : Node) :
    (n.appendText t).children = n.children := by
  cases h : n.form <;> simp [appendText, h]

@[simp] theorem isText_appendText (t : Text) (n : Node) : (n.appendText t).isText = n.isText := by
  cases h : n.form <;> simp [appendText, isText, h]

end Node

namespace Forest

variable {f f' : Forest} {a b c d h n p r : Handle} {α : Type}

/-! ## The forest after an action -/

/-- The forest that an action leaves behind, whether it succeeds or is refused. -/
def after (f : Forest) (x : TreeM α) : Forest :=
  match x.run f with
  | .ok _ f' => f'
  | .error _ f' => f'

theorem after_of_ok {x : TreeM α} {r : α} (hx : x.run f = .ok r f') : f.after x = f' := by
  rw [after, hx]

theorem after_of_error {x : TreeM α} {e : Fault} (hx : x.run f = .error e f') :
    f.after x = f' := by
  rw [after, hx]

theorem after_bind {β : Type} (x : TreeM α) (k : α → TreeM β) (f : Forest) :
    f.after (x >>= k)
      = match x.run f with
        | .ok r f' => f'.after (k r)
        | .error _ f' => f' := by
  rw [after, EStateM.run_bind]
  cases x.run f <;> rfl

@[simp] theorem run_refuse (cause : EditFault) (f : Forest) :
    (refuse cause : TreeM α).run f = .error (.edit cause) f := rfl

/-! ## Lookup -/

namespace WellFormed

/-- A child is found by its id. -/
theorem indexOf?_eq_some_iff (wf : f.WellFormed) (hc : c < f.size) {i : Nat} :
    f.indexOf? p c = some i ↔ (f.children p)[i]? = some c := by
  have same : ∀ x ∈ f.children p, f.idOf x = f.idOf c ↔ x = c := fun x hx =>
    ⟨wf.distinct x c (wf.lt_size hx) hc, fun h => by rw [h]⟩
  rw [indexOf?, List.findIdx?_eq_some_iff_getElem]
  simp only [beq_iff_eq, List.getElem?_eq_some_iff]
  constructor
  · rintro ⟨hi, hid, -⟩
    exact ⟨hi, (same _ (List.getElem_mem hi)).1 hid⟩
  · rintro ⟨hi, rfl⟩
    refine ⟨hi, rfl, fun j hj hid => ?_⟩
    have := (same _ (List.getElem_mem (by omega))).1 hid
    rw [(wf.once p).getElem_inj_iff] at this
    omega

theorem exists_indexOf? (wf : f.WellFormed) (hp : f.parent c = some p) :
    ∃ i, f.indexOf? p c = some i ∧ (f.children p)[i]? = some c := by
  obtain ⟨i, hi⟩ := List.mem_iff_getElem?.1 ((wf.linked p c).1 hp)
  exact ⟨i, (wf.indexOf?_eq_some_iff (lt_size_of_parent hp)).2 hi, hi⟩

theorem indexOf?_eq_none (wf : f.WellFormed) (hc : c < f.size) (hp : f.parent c ≠ some p) :
    f.indexOf? p c = none := by
  cases hi : f.indexOf? p c with
  | none => rfl
  | some i =>
      have := (wf.indexOf?_eq_some_iff hc).1 hi
      exact absurd ((wf.linked p c).2 (List.mem_of_getElem? this)) hp

end WellFormed

theorem run_requireIndex (p c : Handle) (f : Forest) :
    (requireIndex p c).run f
      = match f.indexOf? p c with
        | some i => .ok i f
        | none => .error (.edit (.notAChild (f.idOf c) (f.idOf p))) f := by
  rw [requireIndex, EStateM.run_bind, EStateM.run_get]
  dsimp only
  cases f.indexOf? p c <;> rfl

/-! ## Removing -/

/-- The child at an index is taken if it records the parent. -/
theorem run_removeAt_of_parent {i : Nat} (hi : (f.children p)[i]? = some c)
    (hp : f.parent c = some p) : (removeAt p i).run f
      = .ok c ((f.setChildren p ((f.children p).eraseIdx i)).setParent c none) := by
  simp only [removeAt, EStateM.run_bind, EStateM.run_get, Int.toNat_natCast, hi, hp,
    Int.not_ofNat_neg, if_false, ne_eq, not_true_eq_false]
  rfl

/-- Taking the child at an index cuts its link. -/
theorem WellFormed.run_removeAt (wf : f.WellFormed) {i : Nat}
    (hi : (f.children p)[i]? = some c) : (removeAt p i).run f = .ok c (f.unlink p c) := by
  have hp : f.parent c = some p := (wf.linked p c).2 (List.mem_of_getElem? hi)
  obtain ⟨hlt, rfl⟩ := List.getElem?_eq_some_iff.1 hi
  rw [run_removeAt_of_parent hi hp, Forest.unlink, (wf.once p).erase_getElem i hlt]

/-- Taking a child at an index cuts a link or is refused. -/
theorem WellFormed.removeAt_cases (wf : f.WellFormed) (p : Handle) (i : Int) :
    (∃ e, (removeAt p i).run f = .error e f)
      ∨ ∃ c, f.parent c = some p ∧ (removeAt p i).run f = .ok c (f.unlink p c) := by
  by_cases hi : i < 0
  · left
    simp only [removeAt, EStateM.run_bind, EStateM.run_get, hi, if_true]
    exact ⟨_, rfl⟩
  · obtain ⟨k, rfl⟩ := Int.eq_ofNat_of_zero_le (Int.not_lt.1 hi)
    cases hk : (f.children p)[k]? with
    | none =>
        left
        simp only [removeAt, EStateM.run_bind, EStateM.run_get, hi, if_false, Int.toNat_natCast, hk]
        exact ⟨_, rfl⟩
    | some c =>
        exact .inr ⟨c, (wf.linked p c).2 (List.mem_of_getElem? hk), wf.run_removeAt hk⟩

/-- Taking a child from the parent that it records cuts its link. -/
theorem WellFormed.run_removeNode (wf : f.WellFormed) (hp : f.parent c = some p) :
    (removeNode p c).run f = .ok c (f.unlink p c) := by
  obtain ⟨i, hi, hc⟩ := wf.exists_indexOf? hp
  rw [removeNode, EStateM.run_bind, run_requireIndex, hi]
  exact wf.run_removeAt hc

/-- Taking a node from anything but its parent is refused. -/
theorem WellFormed.run_removeNode_of_ne (wf : f.WellFormed) (hc : c < f.size)
    (hp : f.parent c ≠ some p) :
    (removeNode p c).run f = .error (.edit (.notAChild (f.idOf c) (f.idOf p))) f := by
  rw [removeNode, EStateM.run_bind, run_requireIndex, wf.indexOf?_eq_none hc hp]

/-- A node off its parent. -/
def uproot (f : Forest) (n : Handle) : Forest :=
  match f.parent n with
  | none => f
  | some p => f.unlink p n

theorem uproot_of_parent_none (hn : f.parent n = none) : f.uproot n = f := by
  rw [uproot, hn]

@[simp] theorem size_uproot (f : Forest) (n : Handle) : (f.uproot n).size = f.size := by
  rw [uproot]
  cases f.parent n <;> simp

@[simp] theorem torn_uproot (f : Forest) (n : Handle) : (f.uproot n).torn = f.torn := by
  rw [uproot]
  cases f.parent n <;> rfl

namespace WellFormed

theorem uproot (wf : f.WellFormed) (n : Handle) : (f.uproot n).WellFormed := by
  rw [Forest.uproot]
  cases hp : f.parent n with
  | none => exact wf
  | some p => exact wf.unlink hp

theorem node_uproot (wf : f.WellFormed) (n k : Handle) :
    (f.uproot n).node k = { f.node k with
      parent := if k = n then none else f.parent k
      children := (f.children k).erase n } := by
  rw [Forest.uproot]
  cases hp : f.parent n with
  | none =>
      have hn : n ∉ f.children k := wf.not_mem_of_parent_none hp
      rw [List.erase_of_not_mem hn]
      by_cases hk : k = n
      · subst hk
        rw [if_pos rfl]
        show f.node k = { f.node k with parent := none, children := (f.node k).children }
        rw [← hp]
        rfl
      · rw [if_neg hk]
        rfl
  | some p =>
      rw [node_unlink (wf.parent_lt_size hp) (lt_size_of_parent hp)]
      by_cases hk : k = p
      · simp [hk]
      · have hn : n ∉ f.children k := fun hm => by
          rw [← wf.linked, hp] at hm
          exact hk (Option.some.inj hm).symm
        simp [hk, List.erase_of_not_mem hn]

theorem parent_uproot (wf : f.WellFormed) (n k : Handle) :
    (f.uproot n).parent k = if k = n then none else f.parent k := by
  rw [parent, wf.node_uproot]

/-- The parent of a node that is taken off it loses exactly that. -/
theorem exists_node_uproot (wf : f.WellFormed) (hp : f.parent n = some p) : ∃ left right,
    f.children p = left ++ n :: right
      ∧ (f.uproot n).node p = { f.node p with children := left ++ right } := by
  obtain ⟨left, right, -, split, rest⟩ := List.exists_erase_eq ((wf.linked p n).1 hp)
  refine ⟨left, right, split, ?_⟩
  rw [wf.node_uproot, if_neg (wf.parent_ne hp), rest]
  rfl

/-- Only a node that is taken off its parent and that parent change. -/
theorem node_uproot_of_ne (wf : f.WellFormed) (ne : k ≠ n) (old : f.parent n ≠ some k) :
    (f.uproot n).node k = f.node k := by
  rw [wf.node_uproot, if_neg ne, List.erase_of_not_mem fun hm => old ((wf.linked k n).2 hm)]
  rfl

theorem parent_uproot_self (wf : f.WellFormed) (n : Handle) : (f.uproot n).parent n = none := by
  rw [wf.parent_uproot, if_pos rfl]

/-- Taking a node off its parent puts nothing over anything. -/
theorem over_of_over_uproot (wf : f.WellFormed) (h : (f.uproot n).Over a d) : f.Over a d := by
  refine ReflTransGen.mono (fun x y hxy => ?_) _ _ h
  rw [wf.parent_uproot] at hxy
  split at hxy
  · cases hxy
  · exact hxy

/-- What is below a node stays below it when another is taken off its parent, if the node is not over
that parent. -/
theorem over_uproot_iff (wf : f.WellFormed) (apart : ∀ q, f.parent n = some q → ¬ f.Over a q) :
    (f.uproot n).Over a d ↔ f.Over a d := by
  refine ⟨wf.over_of_over_uproot, fun hover => ?_⟩
  induction hover using ReflTransGen.head_induction_on with
  | refl => exact .refl _ a
  | @head x q hp above ih =>
      refine Over.trans ih (.of_parent ?_)
      rw [wf.parent_uproot, if_neg]
      · exact hp
      · rintro rfl
        exact apart q hp above

/-- The step that takes a node from its old parent never fails. -/
theorem run_detach (wf : f.WellFormed) (n : Handle) : (detach n).run f = .ok () (f.uproot n) := by
  rw [detach, EStateM.run_bind, EStateM.run_get]
  dsimp only
  rw [Forest.uproot]
  cases hp : f.parent n with
  | none => rfl
  | some p =>
      rw [EStateM.run_bind, wf.run_removeNode hp]
      rfl

end WellFormed

/-! ## Inserting -/

/-- A node can be put below another: it is no root, not destroyed, and not over it. -/
structure Insertable (f : Forest) (p n : Handle) : Prop where
  kind : (f.node n).kind ≠ rootKind
  alive : (f.node n).destroyed = false
  notOver : ¬ f.Over n p

/-- The check passes exactly the insertable nodes, where the lineage of the parent is what is over
it. -/
theorem checkInsertable_cases (lineage : n ∈ f.lineage p ↔ f.Over n p) :
    f.Insertable p n ∧ (checkInsertable p n).run f = .ok () f
      ∨ ¬ f.Insertable p n ∧ ∃ e, (checkInsertable p n).run f = .error e f := by
  simp only [checkInsertable, EStateM.run_bind, EStateM.run_get]
  by_cases hk : (f.node n).kind = rootKind
  · rw [if_pos hk]
    exact .inr ⟨fun hi => hi.kind hk, _, rfl⟩
  rw [if_neg hk]
  by_cases hd : (f.node n).destroyed = true
  · simp only [hd, if_true]
    refine .inr ⟨fun hi => ?_, _, rfl⟩
    rw [hi.alive] at hd
    cases hd
  by_cases hl : n ∈ f.lineage p
  · simp only [hd, hl, if_true, Bool.false_eq_true, if_false]
    exact .inr ⟨fun hi => hi.notOver (lineage.1 hl), _, rfl⟩
  · simp only [hd, hl, Bool.false_eq_true, if_false]
    exact .inl ⟨⟨hk, by simpa using hd, fun ho => hl (lineage.2 ho)⟩, rfl⟩

namespace WellFormed

theorem run_checkInsertable (wf : f.WellFormed) (hp : p < f.size) (hi : f.Insertable p n) :
    (checkInsertable p n).run f = .ok () f := by
  rcases checkInsertable_cases (wf.mem_lineage_iff hp) with ⟨-, hr⟩ | ⟨hn, -⟩
  · exact hr
  · exact absurd hi hn

theorem run_checkInsertable_of_not (wf : f.WellFormed) (hp : p < f.size)
    (hi : ¬ f.Insertable p n) : ∃ e, (checkInsertable p n).run f = .error e f := by
  rcases checkInsertable_cases (wf.mem_lineage_iff hp) with ⟨hn, -⟩ | ⟨-, hr⟩
  · exact absurd hn hi
  · exact hr

/-- A node that is insertable may be linked once it is off its old parent. -/
theorem insert (wf : f.WellFormed) (hp : p < f.size) (hn : n < f.size) (hi : f.Insertable p n)
    {cs : List Handle} (hcs : cs.Perm (n :: (f.uproot n).children p)) :
    ((f.uproot n).link p n cs).WellFormed := by
  refine (wf.uproot n).link (by simpa using hp) (by simpa using hn) ?_ ?_ ?_ ?_ hcs
  · exact wf.parent_uproot_self n
  · rw [wf.node_uproot]
    exact hi.kind
  · rw [wf.node_uproot]
    exact hi.alive
  · exact fun ho => hi.notOver (wf.over_of_over_uproot ho)

/-- Appending links an insertable node behind the other children. -/
theorem run_append (wf : f.WellFormed) (hp : p < f.size) (hi : f.Insertable p n) :
    (append p n).run f
      = .ok () ((f.uproot n).link p n ((f.uproot n).children p ++ [n])) := by
  simp only [append, EStateM.run_bind, wf.run_checkInsertable hp hi, wf.run_detach]
  rfl

/-- Prepending links an insertable node before the other children. -/
theorem run_prepend (wf : f.WellFormed) (hp : p < f.size) (hi : f.Insertable p n) :
    (prepend p n).run f = .ok () ((f.uproot n).link p n (n :: (f.uproot n).children p)) := by
  simp only [prepend, EStateM.run_bind, wf.run_checkInsertable hp hi, wf.run_detach]
  rfl

theorem append_cases (wf : f.WellFormed) (hp : p < f.size) (n : Handle) :
    (∃ e, (append p n).run f = .error e f)
      ∨ f.Insertable p n ∧ (append p n).run f
          = .ok () ((f.uproot n).link p n ((f.uproot n).children p ++ [n])) := by
  by_cases hi : f.Insertable p n
  · exact .inr ⟨hi, wf.run_append hp hi⟩
  · obtain ⟨e, he⟩ := wf.run_checkInsertable_of_not hp hi
    exact .inl ⟨e, by rw [append, EStateM.run_bind, he]⟩

theorem prepend_cases (wf : f.WellFormed) (hp : p < f.size) (n : Handle) :
    (∃ e, (prepend p n).run f = .error e f)
      ∨ f.Insertable p n ∧ (prepend p n).run f
          = .ok () ((f.uproot n).link p n (n :: (f.uproot n).children p)) := by
  by_cases hi : f.Insertable p n
  · exact .inr ⟨hi, wf.run_prepend hp hi⟩
  · obtain ⟨e, he⟩ := wf.run_checkInsertable_of_not hp hi
    exact .inl ⟨e, by rw [prepend, EStateM.run_bind, he]⟩

/-- Inserting beside another child links an insertable node next to it.  The reference stays a child
when the node leaves its old parent, so the second lookup finds it. -/
theorem run_insertBeside (wf : f.WellFormed) (hp : p < f.size) (hi : f.Insertable p n)
    (hrn : r ≠ n) (hrp : f.parent r = some p) (shift : Nat) :
    ∃ i, ((f.uproot n).children p)[i]? = some r
      ∧ (insertBeside p n (.node r) shift).run f
        = .ok () ((f.uproot n).link p n (((f.uproot n).children p).insertIdx (i + shift) n)) := by
  obtain ⟨i, found, -⟩ := wf.exists_indexOf? hrp
  have stays : (f.uproot n).parent r = some p := by
    rw [wf.parent_uproot, if_neg hrn, hrp]
  obtain ⟨j, again, entry⟩ := (wf.uproot n).exists_indexOf? stays
  refine ⟨j, entry, ?_⟩
  simp only [insertBeside, checkBeside, EStateM.run_bind, wf.run_checkInsertable hp hi, hrn, if_false,
    EStateM.run_pure, run_requireIndex, found, wf.run_detach, again]
  rfl

/-- Inserting beside a child links an insertable node next to it, or is refused. -/
theorem insertBeside_cases (wf : f.WellFormed) (hp : p < f.size) (n : Handle)
    {reference : Arg} (hr : ∀ r, reference = .node r → r < f.size) (shift : Nat) :
    (∃ e, (insertBeside p n reference shift).run f = .error e f)
      ∨ f.Insertable p n ∧ ∃ r i, reference = .node r ∧ r ≠ n ∧ f.parent r = some p
        ∧ ((f.uproot n).children p)[i]? = some r
        ∧ (insertBeside p n reference shift).run f
          = .ok () ((f.uproot n).link p n
              (((f.uproot n).children p).insertIdx (i + shift) n)) := by
  by_cases hi : f.Insertable p n
  · have check := wf.run_checkInsertable hp hi
    cases reference with
    | other v =>
        left
        simp only [insertBeside, checkBeside, EStateM.run_bind, check]
        exact ⟨_, rfl⟩
    | node r =>
        have hrs := hr r rfl
        by_cases hrn : r = n
        · left
          simp only [insertBeside, checkBeside, EStateM.run_bind, check, hrn, if_true]
          exact ⟨_, rfl⟩
        by_cases hrp : f.parent r = some p
        · obtain ⟨i, entry, hrun⟩ := wf.run_insertBeside hp hi hrn hrp shift
          exact .inr ⟨hi, r, i, rfl, hrn, hrp, entry, hrun⟩
        · left
          simp only [insertBeside, checkBeside, EStateM.run_bind, check, hrn, if_false,
            run_requireIndex, wf.indexOf?_eq_none hrs hrp]
          exact ⟨_, rfl⟩
  · obtain ⟨e, he⟩ := wf.run_checkInsertable_of_not hp hi
    exact .inl ⟨e, by simp only [insertBeside, checkBeside, EStateM.run_bind, he]⟩

theorem after_append (wf : f.WellFormed) (hp : p < f.size) (hn : n < f.size) :
    (f.after (append p n)).WellFormed := by
  rcases wf.append_cases hp n with ⟨e, he⟩ | ⟨hi, hr⟩
  · rw [after_of_error he]
    exact wf
  · rw [after_of_ok hr]
    exact wf.insert hp hn hi (List.perm_append_singleton _ _)

theorem after_prepend (wf : f.WellFormed) (hp : p < f.size) (hn : n < f.size) :
    (f.after (prepend p n)).WellFormed := by
  rcases wf.prepend_cases hp n with ⟨e, he⟩ | ⟨hi, hr⟩
  · rw [after_of_error he]
    exact wf
  · rw [after_of_ok hr]
    exact wf.insert hp hn hi (List.Perm.refl _)

theorem after_insertBeside (wf : f.WellFormed) (hp : p < f.size) (hn : n < f.size)
    {reference : Arg} (hr : ∀ r, reference = .node r → r < f.size) {shift : Nat}
    (hs : shift ≤ 1) : (f.after (insertBeside p n reference shift)).WellFormed := by
  rcases wf.insertBeside_cases hp n hr shift with ⟨e, he⟩ | ⟨hi, r, i, -, -, -, hir, hok⟩
  · rw [after_of_error he]
    exact wf
  · rw [after_of_ok hok]
    have hlt := (List.getElem?_eq_some_iff.1 hir).1
    exact wf.insert hp hn hi (List.perm_insertIdx n _ (by omega))

end WellFormed

/-! ## Destroying -/

theorem LinksAgree.trans {g : Forest} (h₁ : LinksAgree f f') (h₂ : LinksAgree f' g) :
    LinksAgree f g where
  size := h₂.size.trans h₁.size
  nextId := h₂.nextId.trans h₁.nextId
  parent k := (h₂.parent k).trans (h₁.parent k)
  children k := (h₂.children k).trans (h₁.children k)
  idOf k := (h₂.idOf k).trans (h₁.idOf k)
  kind k := (h₂.kind k).trans (h₁.kind k)

/-- A teardown, failed or not, leaves the links and the other nodes alone. -/
theorem after_tearDown (f : Forest) (h : Handle) :
    LinksAgree f (f.after (tearDown h)) ∧ ∀ k, k ≠ h → (f.after (tearDown h)).node k = f.node k := by
  have updated : ∀ (g : Forest) (change : Node → Node),
      (∀ m, (change m).parent = m.parent ∧ (change m).children = m.children
        ∧ (change m).id = m.id ∧ (change m).kind = m.kind) →
      (LinksAgree f g ∧ ∀ k, k ≠ h → g.node k = f.node k) →
      LinksAgree f (g.update h change) ∧ ∀ k, k ≠ h → (g.update h change).node k = f.node k := by
    intro g change hchange hg
    refine ⟨hg.1.trans (.update hchange), fun k hk => ?_⟩
    rw [node_update_of_ne g hk]
    exact hg.2 k hk
  have marked := fun g => updated g (fun n => { n with destroyed := true }) fun m => ⟨rfl, rfl, rfl, rfl⟩
  have recorded : LinksAgree f { f with torn := h :: f.torn }
      ∧ ∀ k, k ≠ h → node { f with torn := h :: f.torn } k = f.node k :=
    ⟨⟨rfl, rfl, fun _ => rfl, fun _ => rfl, fun _ => rfl, fun _ => rfl⟩, fun _ _ => rfl⟩
  rw [tearDown, after_bind, EStateM.run_modify]
  dsimp only
  rw [after_bind, EStateM.run_get]
  dsimp only
  cases hform : (node { f with torn := h :: f.torn } h).form with
  | plain => exact marked _ recorded
  | root => exact marked _ recorded
  | text b fs => exact marked _ (updated _ _ (fun m => ⟨rfl, rfl, rfl, rfl⟩) recorded)
  | custom t =>
      cases ends : t.teardown with
      | some fault =>
          simp only [ends]
          exact recorded
      | none =>
          simp only [ends]
          exact marked _ recorded

/-- What holds after a sequence holds after its first part failed, or after the rest. -/
theorem after_bind_of {β : Type} {P : Forest → Prop} {x : TreeM α} {k : α → TreeM β}
    (herror : ∀ e g, x.run f = .error e g → P g) (hok : ∀ r g, x.run f = .ok r g → P (g.after (k r))) :
    P (f.after (x >>= k)) := by
  rw [after_bind]
  cases hx : x.run f with
  | ok r g => exact hok r g hx
  | error e g => exact herror e g hx

namespace WellFormed

theorem of_tearDown (wf : f.WellFormed) (hh : f.parent h = none) :
    (f.after (tearDown h)).WellFormed := by
  obtain ⟨links, others⟩ := after_tearDown f h
  refine wf.of_linksAgree links fun k hk => ?_
  by_cases hkh : k = h
  · rw [hkh, hh]
  · rw [others k hkh] at hk
    exact wf.destroyedFree k hk

/-- Working off pending nodes keeps a forest well-formed, as long as they are off
their parents, and changes nothing that is not below them. -/
theorem after_dismantle : ∀ (n : Nat) (pending : List Handle) {f : Forest}, f.WellFormed →
    (∀ k ∈ pending, f.parent k = none) → (f.after (dismantle n pending)).WellFormed
      ∧ ∀ k, (∀ h ∈ pending, ¬ f.Over h k) → (f.after (dismantle n pending)).node k = f.node k
  | _, [], f, wf, _ => by
      unfold dismantle
      exact ⟨wf, fun _ _ => rfl⟩
  | 0, _ :: _, f, wf, _ => ⟨wf, fun _ _ => rfl⟩
  | n + 1, h :: pending, f, wf, free => by
      have hh := free h List.mem_cons_self
      rw [dismantle, after_bind, EStateM.run_get]
      dsimp only
      cases hcs : f.children h with
      | nil =>
          rw [List.isEmpty_nil, if_pos rfl]
          have wf' := wf.of_tearDown hh
          obtain ⟨links, others⟩ := after_tearDown f h
          have spared : ∀ k, (∀ x ∈ h :: pending, ¬ f.Over x k) → k ≠ h := by
            rintro k hk rfl
            exact hk k List.mem_cons_self (.refl f k)
          refine after_bind_of (P := fun g => g.WellFormed ∧ ∀ k, (∀ x ∈ h :: pending, ¬ f.Over x k) →
            g.node k = f.node k) (fun e g hg => ?_) (fun r g hg => ?_)
          · rw [after_of_error hg] at wf' others
            exact ⟨wf', fun k hk => others k (spared k hk)⟩
          · rw [after_of_ok hg] at wf' links others
            obtain ⟨wf'', rest⟩ := after_dismantle n pending wf' fun k hk => by
              rw [links.parent, free k (List.mem_cons_of_mem _ hk)]
            refine ⟨wf'', fun k hk => (rest k fun x hx hover => ?_).trans (others k (spared k hk))⟩
            refine hk x (List.mem_cons_of_mem _ hx) (.of_parent_eq (fun y _ => ?_) hover)
            exact (links.parent y).symm
      | cons c cs =>
          rw [List.isEmpty_cons, if_neg Bool.false_ne_true]
          have hc : (f.children h)[0]? = some c := by rw [hcs]; rfl
          have hp : f.parent c = some h := (wf.linked h c).2 (List.mem_of_getElem? hc)
          have off : f.uproot c = f.unlink h c := by rw [Forest.uproot, hp]
          rw [after_bind, show ((0 : Int)) = ((0 : Nat) : Int) from rfl, wf.run_removeAt hc]
          dsimp only
          obtain ⟨wf', rest⟩ := after_dismantle n (c :: h :: pending) (wf.unlink hp) fun k hk => by
            rw [← off, wf.parent_uproot]
            by_cases hkc : k = c
            · rw [if_pos hkc]
            · rw [if_neg hkc]
              exact free k ((List.mem_cons.1 hk).resolve_left hkc)
          refine ⟨wf', fun k hk => (rest k fun x hx hover => ?_).trans ?_⟩
          · rw [← off] at hover
            have above := wf.over_of_over_uproot hover
            rcases List.mem_cons.1 hx with rfl | hx
            · exact hk h List.mem_cons_self ((Over.of_parent hp).trans above)
            · exact hk x hx above
          · refine node_unlink_of_ne (wf.parent_lt_size hp) (lt_size_of_parent hp) ?_ ?_
            · rintro rfl
              exact hk k List.mem_cons_self (.refl f k)
            · rintro rfl
              exact hk h List.mem_cons_self (.of_parent hp)

theorem after_raze (wf : f.WellFormed) (hh : f.parent h = none) : (f.after (raze h)).WellFormed
    ∧ ∀ k, ¬ f.Over h k → (f.after (raze h)).node k = f.node k := by
  rw [raze, after_bind, EStateM.run_get]
  obtain ⟨wf', rest⟩ := after_dismantle (2 * f.links + 1) [h] wf fun k hk => by
    rw [List.mem_singleton.1 hk, hh]
  refine ⟨wf', fun k hk => rest k fun x hx => ?_⟩
  rw [List.mem_singleton.1 hx]
  exact hk

theorem after_destroy (wf : f.WellFormed) (h : Handle) : (f.after (destroy h)).WellFormed := by
  rw [destroy, after_bind, EStateM.run_get]
  dsimp only
  cases hp : f.parent h with
  | none => exact (wf.after_raze hp).1
  | some p =>
      dsimp only
      rw [after_bind, wf.run_removeNode hp]
      refine ((wf.unlink hp).after_raze ?_).1
      rw [parent_unlink (wf.parent_lt_size hp) (lt_size_of_parent hp), if_pos rfl]

/-- What is not below a node without a parent outlives it. -/
theorem node_destroy (wf : f.WellFormed) (hh : f.parent h = none) {k : Handle}
    (hk : ¬ f.Over h k) : (f.after (destroy h)).node k = f.node k := by
  rw [destroy, after_bind, EStateM.run_get]
  dsimp only
  rw [hh]
  exact (wf.after_raze hh).2 k hk

/-- Removing a child, and destroying it if asked to, keeps a forest well-formed. -/
theorem after_removeChild (wf : f.WellFormed) {child : Arg}
    (hc : ∀ c, child = .node c → c < f.size) (p : Handle) (andDestroy : Bool) :
    (f.after (removeChild p child andDestroy)).WellFormed := by
  have destroyed : ∀ (g : Forest) (c : Handle), g.WellFormed → (g.after (do
      if andDestroy then destroy c
      return c)).WellFormed := by
    intro g c wg
    cases andDestroy with
    | false => exact wg
    | true =>
        have wd := wg.after_destroy c
        refine after_bind_of (fun e g' hg => ?_) (fun r g' hg => ?_)
        · rw [← after_of_error hg]
          exact wd
        · rw [← after_of_ok hg]
          exact wd
  -- However the child is given, it is taken from its parent or the removal is refused.
  have removed : ∀ x : TreeM Handle, ((∃ e, x.run f = .error e f)
      ∨ ∃ c, f.parent c = some p ∧ x.run f = .ok c (f.unlink p c)) →
      (f.after (x >>= fun c => do
        if andDestroy then destroy c
        return c)).WellFormed := by
    rintro x (⟨e, he⟩ | ⟨c, hp, hx⟩)
    · rw [after_bind, he]
      exact wf
    · rw [after_bind, hx]
      exact destroyed _ c (wf.unlink hp)
  cases child with
  | node c =>
      refine removed (removeNode p c) ?_
      by_cases hp : f.parent c = some p
      · exact .inr ⟨c, hp, wf.run_removeNode hp⟩
      · exact .inl ⟨_, wf.run_removeNode_of_ne (hc c rfl) hp⟩
  | other v =>
      cases v with
      | int i => exact removed (removeAt p i) (wf.removeAt_cases p i)
      | _ => exact wf

end WellFormed

/-! ## Creating -/

theorem create_cases (bp : Blueprint) (f : Forest) :
    (∃ e, (create bp).run f = .error e f) ∨ (create bp).run f = .ok f.size (f.add bp).2 := by
  rw [create]
  cases hb : bp.isReserved with
  | true => exact .inl ⟨_, rfl⟩
  | false => exact .inr rfl

/-- A new node, as the last child of a node. -/
def grow (f : Forest) (p : Handle) (bp : Blueprint) : Forest :=
  (f.add bp).2.link p f.size (f.children p ++ [f.size])

theorem node_grow (hp : p < f.size) (bp : Blueprint) (k : Handle) :
    (f.grow p bp).node k
      = if k = f.size then { bp.build f.nextId with parent := some p }
        else { f.node k with children := if k = p then f.children p ++ [f.size] else f.children k } := by
  have hp' : p < (f.add bp).2.size := by
    rw [size_add]
    exact Nat.lt_succ_of_lt hp
  have hn : f.size < (f.add bp).2.size := by
    rw [size_add]
    exact Nat.lt_succ_self _
  rw [grow, node_link hp' hn, parent, children.eq_def _ k, node_add]
  by_cases hk : k = f.size
  · rw [if_pos hk, if_pos hk, if_pos hk, if_neg (hk ▸ (Nat.ne_of_lt hp).symm)]
  · rw [if_neg hk, if_neg hk, if_neg hk]
    rfl

/-- A new text node with its content, as the last child of a node. -/
def growText (f : Forest) (p : Handle) (t : Text) (origin : Option Int) : Forest :=
  (f.add (.text t origin)).2.link p f.size (f.children p ++ [f.size])

@[simp] theorem size_growText (f : Forest) (p : Handle) (t : Text) (origin : Option Int) :
    (f.growText p t origin).size = f.size + 1 := by
  simp [growText]

theorem node_growText (hp : p < f.size) (t : Text) (origin : Option Int) (k : Handle) :
    (f.growText p t origin).node k
      = if k = f.size then { (Blueprint.text t origin).build f.nextId with parent := some p }
        else { f.node k with children := if k = p then f.children p ++ [f.size] else f.children k } :=
  node_grow hp (.text t origin) k

/-- The new text is the last child. -/
theorem children_growText (hp : p < f.size) (t : Text) (origin : Option Int) :
    (f.growText p t origin).children p = f.children p ++ [f.size] := by
  rw [children, node_growText hp, if_neg (Nat.ne_of_lt hp), if_pos rfl]

theorem content?_growText (hp : p < f.size) (t : Text) (origin : Option Int) :
    ((f.growText p t origin).node f.size).content? = some t := by
  rw [node_growText hp, if_pos rfl]
  simp [Node.content?, Blueprint.build, Blueprint.text, Form.ofText]

/-- It is a leaf itself. -/
theorem children_growText_size (hp : p < f.size) (t : Text) (origin : Option Int) :
    (f.growText p t origin).children f.size = [] := by
  rw [children, node_growText hp, if_pos rfl]
  rfl

theorem parent_update_appendText (f : Forest) (c k : Handle) (t : Text) :
    (f.update c (Node.appendText t)).parent k = f.parent k := by
  rw [parent, node_update]
  split
  · exact Node.parent_appendText t _
  · rfl

theorem children_update_appendText (f : Forest) (c k : Handle) (t : Text) :
    (f.update c (Node.appendText t)).children k = f.children k := by
  rw [children, node_update]
  split
  · exact Node.children_appendText t _
  · rfl

theorem content?_update_appendText (hc : c < f.size) (t : Text) :
    ((f.update c (Node.appendText t)).node c).content? = (f.node c).content?.map (· ++ t) := by
  rw [node_update, if_pos ⟨rfl, hc⟩, Node.content?_appendText]

/-- A text goes to the end of a node: behind the trailing text child, or into a new
one. -/
inductive Writes (f : Forest) (p : Handle) (t : Text) (origin : Option Int) : Forest → Prop where
  | last {c : Handle} : f.lastChild? p = some c → (f.node c).isText = true →
      Writes f p t origin (f.update c (Node.appendText t))
  | new : (∀ c, f.lastChild? p = some c → (f.node c).isText = false) →
      Writes f p t origin (f.growText p t origin)

theorem node_grow_of_ne (hp : p < f.size) (bp : Blueprint) {k : Handle} (hk : k < f.size)
    (hkp : k ≠ p) : (f.grow p bp).node k = f.node k := by
  rw [node_grow hp, if_neg (Nat.ne_of_lt hk), if_neg hkp]
  rfl

theorem node_growText_of_ne (hp : p < f.size) (t : Text) (origin : Option Int) {k : Handle}
    (hk : k < f.size) (hkp : k ≠ p) : (f.growText p t origin).node k = f.node k :=
  node_grow_of_ne hp (.text t origin) hk hkp

/-- Writing touches the trailing text child, or else the node itself. -/
theorem Writes.node_of_ne {t : Text} {origin : Option Int} (hw : f.Writes p t origin f')
    (hp : p < f.size) {k : Handle} (hk : k < f.size) (hkp : k ≠ p) (hkc : k ∉ f.children p) :
    f'.node k = f.node k := by
  cases hw with
  | last hc _ =>
      refine node_update_of_ne f (fun h => hkc ?_) _
      rw [h]
      exact List.mem_of_getLast? hc
  | new _ => exact node_growText_of_ne hp t origin hk hkp

namespace WellFormed

/-- A new child changes nothing below the other children. -/
theorem node_grow_of_over (wf : f.WellFormed) (hd : d ∈ f.children p) {k : Handle}
    (below : f.Over d k) (bp : Blueprint) : (f.grow p bp).node k = f.node k := by
  have parent : f.parent d = some p := (wf.linked p d).2 hd
  refine node_grow_of_ne (wf.parent_lt_size parent) bp ?_ ?_
  · rcases over_iff.1 below with rfl | ⟨q, hq, -⟩
    · exact lt_size_of_parent parent
    · exact lt_size_of_parent hq
  · rintro rfl
    exact wf.not_over_parent parent below

/-- A change of the last child changes nothing below the other children. -/
theorem node_update_of_over (wf : f.WellFormed) {cs : List Handle} (hcs : f.children p = cs ++ [c])
    (hd : d ∈ cs) {k : Handle} (below : f.Over d k) (change : Node → Node) :
    (f.update c change).node k = f.node k := by
  refine node_update_of_ne f ?_ change
  rintro rfl
  exact wf.not_over_last hcs hd below (.refl f k)

/-- A new node is over nothing else. -/
theorem not_over_new (wf : f.WellFormed) (bp : Blueprint) (hp : p < f.size) :
    ¬ (f.add bp).2.Over f.size p := by
  intro ho
  rcases ReflTransGen.cases_tail ho with rfl | ⟨y, -, hy⟩
  · exact Nat.lt_irrefl _ hp
  · rw [(wf.add bp).linked, children_add, children_size] at hy
    cases hy

/-- A new node can be inserted. -/
theorem insertable_new (wf : f.WellFormed) {bp : Blueprint} (hp : p < f.size)
    (kind : bp.kind ≠ rootKind) : (f.add bp).2.Insertable p f.size := by
  refine ⟨?_, ?_, wf.not_over_new _ hp⟩
  · rw [node_add, if_pos rfl]
    exact kind
  · rw [node_add, if_pos rfl]
    rfl

end WellFormed

/-- Text goes behind a trailing text child. -/
theorem run_appendToLastText_last {t : Text} (ht : t ≠ []) (hc : f.lastChild? p = some c)
    (htext : (f.node c).isText = true) (origin : Option Int) :
    (appendToLastText p t origin).run f = .ok () (f.update c (Node.appendText t)) := by
  have hempty : t.isEmpty = false := by simpa using ht
  simp only [appendToLastText, hempty, Bool.false_eq_true, if_false, EStateM.run_bind,
    EStateM.run_get, hc, htext, if_true]
  rfl

theorem kind_text_ne_rootKind (t : Text) (origin : Option Int) :
    (Blueprint.text t origin).kind ≠ rootKind :=
  show textKind ≠ rootKind by decide

/-- A new node can be appended. -/
theorem WellFormed.run_append_new (wf : f.WellFormed) (hp : p < f.size) {bp : Blueprint}
    (kind : bp.kind ≠ rootKind) :
    (append p f.size).run (f.add bp).2 = .ok () (f.grow p bp) := by
  have hp' : p < (f.add bp).2.size := by
    rw [size_add]
    exact Nat.lt_succ_of_lt hp
  have hparent : (f.add bp).2.parent f.size = none := by rw [parent_add, parent_size]
  rw [(wf.add bp).run_append hp' (wf.insertable_new hp kind), uproot_of_parent_none hparent,
    children_add]
  rfl

/-- Without a trailing text child, text gets a child of its own. -/
theorem WellFormed.run_appendToLastText_new (wf : f.WellFormed) (hp : p < f.size) {t : Text}
    (ht : t ≠ []) (hlast : ∀ c, f.lastChild? p = some c → (f.node c).isText = false)
    (origin : Option Int) :
    (appendToLastText p t origin).run f = .ok () (f.growText p t origin) := by
  have hempty : t.isEmpty = false := by simpa using ht
  have grown : (do append p (← create (.text t origin)) : TreeM Unit).run f
      = .ok () (f.growText p t origin) :=
    wf.run_append_new hp (kind_text_ne_rootKind t origin)
  simp only [appendToLastText, hempty, Bool.false_eq_true, if_false, EStateM.run_bind,
    EStateM.run_get]
  cases hc : f.lastChild? p with
  | none => exact grown
  | some c =>
      simp only [hlast c hc, Bool.false_eq_true, if_false]
      exact grown

namespace WellFormed

theorem run_appendToLastText (wf : f.WellFormed) (hp : p < f.size) {t : Text} (ht : t ≠ [])
    (origin : Option Int) :
    ∃ f', (appendToLastText p t origin).run f = .ok () f' ∧ f.Writes p t origin f' := by
  by_cases hlast : ∃ c, f.lastChild? p = some c ∧ (f.node c).isText = true
  · obtain ⟨c, hc, htext⟩ := hlast
    exact ⟨_, run_appendToLastText_last ht hc htext origin, .last hc htext⟩
  · have none : ∀ c, f.lastChild? p = some c → (f.node c).isText = false := fun c hc => by
      rw [← Bool.not_eq_true]
      exact fun htext => hlast ⟨c, hc, htext⟩
    exact ⟨_, wf.run_appendToLastText_new hp ht none origin, .new none⟩

theorem after_create (wf : f.WellFormed) (bp : Blueprint) : (f.after (create bp)).WellFormed := by
  rcases create_cases bp f with ⟨e, he⟩ | hr
  · rw [after_of_error he]
    exact wf
  · rw [after_of_ok hr]
    exact wf.add bp

/-- A change of one node that leaves its links and its mark alone. -/
theorem update (wf : f.WellFormed) {h : Handle} {change : Node → Node}
    (hc : ∀ m : Node, (change m).parent = m.parent ∧ (change m).children = m.children
      ∧ (change m).id = m.id ∧ (change m).kind = m.kind ∧ (change m).destroyed = m.destroyed) :
    (f.update h change).WellFormed := by
  refine wf.of_linksAgree (.update fun m => ?_) fun k hk => ?_
  · exact ⟨(hc m).1, (hc m).2.1, (hc m).2.2.1, (hc m).2.2.2.1⟩
  · rw [node_update] at hk
    split at hk
    · rw [(hc _).2.2.2.2] at hk
      exact wf.destroyedFree k hk
    · exact wf.destroyedFree k hk

theorem appendText (wf : f.WellFormed) (h : Handle) (t : Text) :
    (f.update h (Node.appendText t)).WellFormed :=
  wf.update fun m => by cases hm : m.form <;> simp [Node.appendText, hm]

theorem grow (wf : f.WellFormed) (hp : p < f.size) {bp : Blueprint} (kind : bp.kind ≠ rootKind) :
    (f.grow p bp).WellFormed := by
  have insertable := wf.insertable_new hp kind
  refine (wf.add bp).link ?_ ?_ ?_ insertable.kind insertable.alive insertable.notOver ?_
  · rw [size_add]
    exact Nat.lt_succ_of_lt hp
  · rw [size_add]
    exact Nat.lt_succ_self _
  · rw [parent_add, parent_size]
  · rw [children_add]
    exact List.perm_append_singleton _ _

theorem growText (wf : f.WellFormed) (hp : p < f.size) (t : Text) (origin : Option Int) :
    (f.growText p t origin).WellFormed :=
  wf.grow hp (kind_text_ne_rootKind t origin)

theorem writes (wf : f.WellFormed) (hp : p < f.size) {t : Text} {origin : Option Int}
    (hw : f.Writes p t origin f') : f'.WellFormed := by
  cases hw with
  | last => exact wf.appendText _ t
  | new => exact wf.growText hp t origin

theorem after_appendToLastText (wf : f.WellFormed) (hp : p < f.size) (t : Text)
    (origin : Option Int) : (f.after (appendToLastText p t origin)).WellFormed := by
  by_cases ht : t = []
  · subst ht
    exact wf
  · obtain ⟨f', hrun, hw⟩ := wf.run_appendToLastText hp ht origin
    rw [after_of_ok hrun]
    exact wf.writes hp hw

end WellFormed

end Forest

end Needlework
