import Needlework.Proofs.Engine.Changes
import Needlework.Proofs.Engine.Roots
import Needlework.Proofs.Engine.SourcePreservation
import Needlework.Proofs.Forest.Destruction

/-!
# What the engine has in its care

While a parse runs, the engine takes care of the nodes below its root, and of the nodes that
recoveries have put aside, with what is below them.  A node that was put aside may have been
attached again, to the tree or to another such node, and then it belongs there (`Owned`).

*Lawful hooks* go through the public operations on the forest and name nodes that exist.
They may move, nest and destroy what they like.  The forest stays well-formed, the root is a
root, and no root is put aside (`Orderly`).  *Gentle* hooks destroy nothing either, so that
what the engine cares for is alive (`Unharmed`).

One lemma says what a lawful step can do to these (`tends_lawful`), and what holds after any
number of steps follows.  No step that the engine takes by itself lets go of a node: what a
recovery takes from the tree is put aside (`Owned.change`).
-/

namespace Needlework

namespace Engine

open Act

variable {σ : Type} {w w' : World σ} {x : Handle}

/-! ## Lawful and gentle steps -/

/-- The operations of a lawful hook: it writes to the forest through edits of nodes that are
in the table, and it leaves it to the engine what is open and what is the root. -/
def LawfulOp (w : World σ) : Op σ → Prop
  | .push n => n.Fits w.forest
  | .edit e => e.Fits w.forest
  | .tamper _ => False
  | .assign (.root _) => False
  | .assign (.stack _) => False
  | .setStatus _ => False
  | .recover => False
  | _ => True

/-- A step of a parse whose hooks are lawful. -/
def Moment.Lawful (m : Moment σ) : Prop :=
  match m.step with
  | .op o => LawfulOp m.before o
  | _ => True

/-- A lawful hook does not take the root away. -/
theorem Moment.Lawful.ne_rootless {m : Moment σ} (lawful : m.Lawful) :
    m.step ≠ .op (.assign (.root none)) := by
  intro same
  rw [Moment.Lawful, same] at lawful
  exact lawful

/-- The edit that a step makes. -/
def Step.edit? : Step σ → Option Edit
  | .op (.edit e) => some e
  | _ => none

/-- A step of a parse whose hooks are lawful and destroy nothing. -/
def Moment.Gentle (m : Moment σ) : Prop := m.Lawful ∧ ∀ e ∈ m.step.edit?, e.Spares

instance (w : World σ) : DecidablePred (LawfulOp w)
  | .push n => inferInstanceAs (Decidable (n.Fits w.forest))
  | .edit e => inferInstanceAs (Decidable (e.Fits w.forest))
  | .tamper _ | .assign (.root _) | .assign (.stack _) | .setStatus _ | .recover =>
      inferInstanceAs (Decidable False)
  | .look | .strictness | .memory | .remember _ | .pop | .appendText _ _ | .closeOpen
  | .assign (.strict _) | .assign (.output _) | .assign (.cursor _) | .assign (.status _)
  | .assign (.needles _) | .assign (.text _) | .assign .newRoot | .assign .dropTop
  | .postfilter _ | .parse _ _ => inferInstanceAs (Decidable True)

instance : DecidablePred (Moment.Lawful : Moment σ → Prop)
  | ⟨.op o, w⟩ => inferInstanceAs (Decidable (LawfulOp w o))
  | ⟨.enter _, _⟩ | ⟨.withdraw, _⟩ | ⟨.resume _ _, _⟩ | ⟨.beginRound, _⟩ | ⟨.approach _, _⟩
  | ⟨.accept _, _⟩ | ⟨.reject _ _, _⟩ | ⟨.appendRest, _⟩ | ⟨.load _, _⟩ | ⟨.reportOpen, _⟩
  | ⟨.handOut, _⟩ => inferInstanceAs (Decidable True)

instance : DecidablePred (Moment.Gentle : Moment σ → Prop) := fun m =>
  inferInstanceAs (Decidable (m.Lawful ∧ ∀ e ∈ m.step.edit?, e.Spares))

/-! ## What a step can do -/

/-- The forest is well-formed, the open nodes and the nodes put aside are in it, the root is a
root, and no root is put aside. -/
structure Orderly (w : World σ) : Prop extends Tidy w where
  root : ∀ r, w.engine.root = some r →
    r < w.forest.size ∧ (w.forest.node r).kind = rootKind
  aside : ∀ d ∈ w.engine.detached,
    d < w.forest.size ∧ (w.forest.node d).kind ≠ rootKind

/-- Neither the root nor a node put aside is destroyed. -/
structure Unharmed (w : World σ) : Prop where
  root : ∀ r, w.engine.root = some r → (w.forest.node r).destroyed = false
  aside : ∀ d ∈ w.engine.detached, (w.forest.node d).destroyed = false

/-- What a lawful step can do.  A new root is a new node, and a node that is put aside had a
parent. -/
structure Tends (w w' : World σ) : Prop where
  tidy : Tidy w'
  origins : w.forest.OriginsKept w'.forest
  root : ∀ r, w'.engine.root = some r → w.engine.root = some r
    ∨ r < w'.forest.size ∧ (w'.forest.node r).kind = rootKind ∧ (w'.forest.node r).destroyed = false
  aside : ∀ d ∈ w'.engine.detached, d ∈ w.engine.detached ∨ ∃ p, w.forest.parent d = some p

theorem Orderly.tends (orderly : Orderly w) (h : Tends w w') : Orderly w' := by
  refine ⟨h.tidy, fun r hr => ?_, fun d hd => ?_⟩
  · rcases h.root r hr with old | ⟨known, kind, -⟩
    · obtain ⟨known, kind⟩ := orderly.root r old
      refine ⟨Nat.lt_of_lt_of_le known h.origins.size, ?_⟩
      rw [(h.origins.same r known).kind]
      exact kind
    · exact ⟨known, kind⟩
  · have before : d < w.forest.size ∧ (w.forest.node d).kind ≠ rootKind := by
      rcases h.aside d hd with old | ⟨p, hp⟩
      · exact orderly.aside d old
      · refine ⟨Forest.lt_size_of_parent hp, fun kind => ?_⟩
        rw [orderly.wellFormed.rootFree d kind] at hp
        cases hp
    refine ⟨Nat.lt_of_lt_of_le before.1 h.origins.size, ?_⟩
    rw [(h.origins.same d before.1).kind]
    exact before.2

theorem Unharmed.tends (unharmed : Unharmed w) (orderly : Orderly w) (h : Tends w w')
    (marks : w.forest.MarksKept w'.forest) : Unharmed w' := by
  refine ⟨fun r hr => ?_, fun d hd => ?_⟩
  · rcases h.root r hr with old | ⟨-, -, alive⟩
    · rw [marks]
      exact unharmed.root r old
    · exact alive
  · rw [marks]
    rcases h.aside d hd with old | ⟨p, hp⟩
    · exact unharmed.aside d old
    · rw [← Bool.not_eq_true]
      intro destroyed
      rw [orderly.wellFormed.destroyedFree d destroyed] at hp
      cases hp

theorem Tends.of_change (tidy : Tidy w) (h : Change w w')
    (root : w'.engine.root = w.engine.root) : Tends w w' := by
  refine ⟨tidy.change h, h.originsKept, fun r hr => .inl (root ▸ hr), fun d hd => ?_⟩
  cases h with
  | withdrawn hs hp _ _ haside =>
      rw [haside] at hd
      rcases List.mem_cons.mp hd with rfl | hd
      · exact .inr ⟨_, hp⟩
      · exact .inl hd
  | still _ _ haside => exact .inl (haside ▸ hd)
  | created _ _ haside => exact .inl (haside ▸ hd)
  | opened _ _ _ _ _ haside => exact .inl (haside ▸ hd)
  | closed _ _ _ haside => exact .inl (haside ▸ hd)
  | wrote _ _ _ haside => exact .inl (haside ▸ hd)
  | closedAll _ _ haside => exact .inl (haside ▸ hd)

/-- What leaves root, stack and nodes put aside alone. -/
theorem Tends.of_forest (tidy : Tidy w) (wf : w'.forest.WellFormed)
    (origins : w.forest.OriginsKept w'.forest) (hs : w'.engine.stack = w.engine.stack)
    (root : w'.engine.root = w.engine.root) (aside : w'.engine.detached = w.engine.detached) :
    Tends w w' := by
  refine ⟨⟨wf, fun k hk => ?_⟩, origins, fun r hr => .inl (root ▸ hr), fun d hd => .inl (aside ▸ hd)⟩
  rw [hs] at hk
  exact Nat.lt_of_lt_of_le (tidy.known k hk) origins.size

/-- What lets go of the root and of all open nodes, and leaves the nodes put aside alone. -/
theorem Tends.of_release (wf : w'.forest.WellFormed) (origins : w.forest.OriginsKept w'.forest)
    (hs : w'.engine.stack = []) (root : w'.engine.root = none)
    (aside : w'.engine.detached = w.engine.detached) : Tends w w' := by
  refine ⟨⟨wf, fun k hk => ?_⟩, origins, fun r hr => ?_, fun d hd => .inl (aside ▸ hd)⟩
  · rw [hs] at hk
    exact absurd hk List.not_mem_nil
  · rw [root] at hr
    cases hr

/-! ## Operations -/

theorem tends_push (tidy : Tidy w) {n : Arg} (fits : n.Fits w.forest) :
    Tends w ((push n).outcome w).2 := by
  rcases push_cases n w
    with ⟨e, f, hout, hf⟩ | ⟨top, rest, h, f, hs, rfl, hr, hout⟩
  · rw [hout]
    have same : f = w.forest := by
      rcases hf with rfl | ⟨top, rest, h, hs, rfl, hr⟩
      · rfl
      have known : top < w.forest.size := tidy.known top (by rw [hs]; exact List.mem_cons_self ..)
      rcases tidy.wellFormed.append_cases known h with ⟨e', he'⟩ | ⟨-, hok⟩
      · rw [hr] at he'
        cases he'
        rfl
      · rw [hr] at hok
        cases hok
    rw [same]
    exact .of_forest tidy tidy.wellFormed (.refl _) rfl rfl rfl
  · have known : top < w.forest.size := tidy.known top (by rw [hs]; exact List.mem_cons_self ..)
    have wf := tidy.wellFormed.after_append known fits
    have origins := Forest.steady_append top h w.forest
    rw [Forest.after_of_ok hr] at wf origins
    rw [hout]
    refine ⟨⟨wf, fun k hk => ?_⟩, origins, fun r hr => .inl hr, fun d hd => .inl hd⟩
    rcases List.mem_cons.mp hk with rfl | hk
    · exact Nat.lt_of_lt_of_le fits origins.size
    · exact Nat.lt_of_lt_of_le (tidy.known k hk) origins.size

theorem tends_assign (tidy : Tidy w) {a : Assignment} (lawful : LawfulOp w (.assign a)) :
    Tends w ((assign a).outcome w).2 := by
  cases a with
  | root r => exact lawful.elim
  | stack hs => exact lawful.elim
  | newRoot =>
      rw [outcome_newRoot]
      have node : (w.forest.add .root).2.node w.forest.size = Blueprint.root.build w.forest.nextId := by
        rw [Forest.node_add, if_pos rfl]
      have known : w.forest.size < (w.forest.add .root).2.size := by
        rw [Forest.size_add]
        exact Nat.lt_succ_self _
      refine ⟨⟨tidy.wellFormed.add _, fun k hk => ?_⟩, .add _, fun r hr => .inr ?_,
        fun d hd => .inl hd⟩
      · rw [List.mem_singleton.mp hk]
        exact known
      · cases hr
        rw [World.forest_onEngine, World.forest_withForest, node]
        exact ⟨known, rfl, rfl⟩
  | dropTop =>
      rw [assign, outcome_engine]
      split
      · exact .of_forest tidy tidy.wellFormed (.refl _) rfl rfl rfl
      · refine ⟨⟨tidy.wellFormed, fun k hk => ?_⟩, .refl _, fun r hr => .inl hr, fun d hd => .inl hd⟩
        exact tidy.known k (List.mem_of_mem_tail hk)
  | _ => exact .of_forest tidy tidy.wellFormed (.refl _) rfl rfl rfl

theorem tends_op (tidy : Tidy w) {o : Op σ} (lawful : LawfulOp w o) :
    Tends w ((Step.act (.op o)).outcome w).2 := by
  have quiet : TameOp w o → IsPlain o → ¬ SetsRoot o →
      Tends w ((Step.act (.op o)).outcome w).2 := fun tame plain old =>
    .of_change tidy (tidy.change_op tame) (root_op plain old)
  cases o with
  | push n => exact tends_push tidy lawful
  | edit e =>
      show Tends w ((tree e.run).outcome w).2
      rw [after_tree]
      exact .of_forest tidy (tidy.wellFormed.after_edit lawful) (Forest.originsKept_edit e _)
        rfl rfl rfl
  | assign a => exact tends_assign tidy lawful
  | tamper t => exact lawful.elim
  | setStatus n => exact lawful.elim
  | recover => exact lawful.elim
  | _ => exact quiet trivial trivial nofun

/-! ## The steps of the engine -/

theorem Moment.change_of_noOp {m : Moment σ} (tidy : Tidy m.before) (isWork : m.step.IsWork)
    (noOp : ∀ o, m.step ≠ .op o) : Change m.before m.after := by
  refine tidy.change_tame ?_
  obtain ⟨step, w⟩ := m
  cases step with
  | op o => exact absurd rfl (noOp o)
  | load input => exact isWork.elim
  | handOut => exact isWork.elim
  | _ => trivial

/-- What a lawful step can do, between the beginning of a parse and the end of the work. -/
theorem tends_lawful {m : Moment σ} (tidy : Tidy m.before) (lawful : m.Lawful)
    (isWork : m.step.IsWork) : Tends m.before m.after := by
  by_cases noOp : ∀ o, m.step ≠ .op o
  · exact .of_change tidy (m.change_of_noOp tidy isWork noOp) (root_after m isWork noOp)
  · obtain ⟨step, w⟩ := m
    obtain ⟨o, rfl⟩ : ∃ o, step = .op o := by simpa using noOp
    exact tends_op tidy lawful

/-! ## Runs -/

theorem Runs.orderly {ms : List (Moment σ)} (runs : Runs w ms w') (orderly : Orderly w)
    (lawful : ∀ m ∈ ms, m.Lawful) (isWork : ∀ m ∈ ms, m.step.IsWork) : Orderly w' := by
  induction runs with
  | nil => exact orderly
  | cons _ ih =>
      have first := tends_lawful orderly.toTidy (lawful _ List.mem_cons_self)
        (isWork _ List.mem_cons_self)
      exact ih (orderly.tends first) (fun m hm => lawful m (List.mem_cons_of_mem _ hm))
        fun m hm => isWork m (List.mem_cons_of_mem _ hm)

theorem marksKept_change (h : Change w w') : w.forest.MarksKept w'.forest := by
  cases h with
  | still hf _ _ => rw [hf]; exact .refl _
  | created hf _ _ => rw [hf]; exact .add _
  | opened _ _ _ hf _ _ => rw [hf]; exact .link _ _ _
  | closed _ hf _ _ => rw [hf]; exact .refl _
  | wrote _ hw _ _ => exact .writes hw
  | withdrawn _ _ hf _ _ => rw [hf]; exact .unlink _ _
  | closedAll hf _ _ => rw [hf]; exact .refl _

theorem marksKept_push (tidy : Tidy w) {n : Arg} :
    w.forest.MarksKept ((push n).outcome w).2.forest := by
  have appended : ∀ {top rest h}, w.engine.stack = top :: rest →
      w.forest.MarksKept (w.forest.after (Forest.append top h)) := by
    intro top rest h hs
    have known : top < w.forest.size := tidy.known top (by rw [hs]; exact List.mem_cons_self ..)
    rcases tidy.wellFormed.append_cases known h with ⟨e, he⟩ | ⟨-, hok⟩
    · rw [Forest.after_of_error he]
      exact .refl _
    · rw [Forest.after_of_ok hok]
      exact (Forest.MarksKept.uproot h).trans (.link top h _)
  rcases push_cases n w
    with ⟨e, f, hout, rfl | ⟨top, rest, h, hs, -, hr⟩⟩ | ⟨top, rest, h, f, hs, -, hr, hout⟩
  · rw [hout]
    exact .refl _
  · rw [hout, World.forest_withForest, ← Forest.after_of_error hr]
    exact appended hs
  · rw [hout, World.forest_onEngine, World.forest_withForest, ← Forest.after_of_ok hr]
    exact appended hs

/-- A gentle step destroys nothing. -/
theorem marksKept_gentle {m : Moment σ} (tidy : Tidy m.before) (gentle : m.Gentle)
    (isWork : m.step.IsWork) : m.before.forest.MarksKept m.after.forest := by
  by_cases noOp : ∀ o, m.step ≠ .op o
  · exact marksKept_change (m.change_of_noOp tidy isWork noOp)
  obtain ⟨step, w⟩ := m
  obtain ⟨o, rfl⟩ : ∃ o, step = .op o := by simpa using noOp
  obtain ⟨lawful, spares⟩ := gentle
  show w.forest.MarksKept ((Step.act (.op o)).outcome w).2.forest
  cases o with
  | push n => exact marksKept_push tidy
  | edit e =>
      show w.forest.MarksKept ((tree e.run).outcome w).2.forest
      rw [after_tree]
      exact tidy.wellFormed.marksKept_edit lawful (spares e rfl)
  | assign a =>
      cases a with
      | newRoot => exact .add _
      | dropTop =>
          show w.forest.MarksKept ((assign .dropTop).outcome w).2.forest
          rw [assign, outcome_engine]
          split
          · exact .refl _
          · exact .refl _
      | _ => exact .refl _
  | tamper t => exact lawful.elim
  | setStatus n => exact lawful.elim
  | recover => exact lawful.elim
  | look => exact .refl _
  | strictness => exact .refl _
  | memory => exact .refl _
  | remember s => exact .refl _
  | pop => exact marksKept_change (tidy.change_op (o := .pop) trivial)
  | appendText t offset => exact marksKept_change (tidy.change_op (o := .appendText t offset) trivial)
  | closeOpen => exact marksKept_change (tidy.change_op (o := .closeOpen) trivial)
  | postfilter t => exact marksKept_change (tidy.change_op (o := .postfilter t) trivial)
  | parse input override =>
      exact marksKept_change (tidy.change_op (o := .parse input override) trivial)

theorem Runs.unharmed {ms : List (Moment σ)} (runs : Runs w ms w') (orderly : Orderly w)
    (unharmed : Unharmed w) (gentle : ∀ m ∈ ms, m.Gentle) (isWork : ∀ m ∈ ms, m.step.IsWork) :
    Unharmed w' := by
  induction runs with
  | nil => exact unharmed
  | cons _ ih =>
      have mild := gentle _ List.mem_cons_self
      have working := isWork _ List.mem_cons_self
      have first := tends_lawful orderly.toTidy mild.1 working
      have marks := marksKept_gentle orderly.toTidy mild working
      exact ih (orderly.tends first) (unharmed.tends orderly first marks)
        (fun m hm => gentle m (List.mem_cons_of_mem _ hm))
        fun m hm => isWork m (List.mem_cons_of_mem _ hm)

/-- A parse begins in order, and with nothing destroyed. -/
theorem Begins.orderly {f : Forest} (h : Begins w w' f) (wf : w.forest.WellFormed) :
    Orderly w' ∧ Unharmed w' := by
  have node : w'.forest.node f.size = Blueprint.root.build f.nextId := by
    rw [h.forest, Forest.node_add, if_pos rfl]
  refine ⟨⟨h.tidy wf, fun r hr => ?_, fun d hd => ?_⟩, fun r hr => ?_, fun d hd => ?_⟩
  · rw [h.root] at hr
    cases hr
    refine ⟨(h.tidy wf).known _ ?_, ?_⟩
    · rw [h.stack]
      exact List.mem_singleton_self _
    · rw [node]
      rfl
  · rw [h.detached] at hd
    cases hd
  · rw [h.root] at hr
    cases hr
    rw [node]
    rfl
  · rw [h.detached] at hd
    cases hd

/-! ## Care -/

/-- What the engine has in its care: the nodes below its root, and the nodes below what is put
aside and has no parent. -/
def Owned (w : World σ) (x : Handle) : Prop :=
  (∃ r, w.engine.root = some r ∧ w.forest.Over r x)
    ∨ ∃ d ∈ w.engine.detached, w.forest.parent d = none ∧ w.forest.Over d x

/-- Where no link is cut and nothing put aside is attached, nothing gets out of care. -/
theorem Owned.of_parents (root : w'.engine.root = w.engine.root)
    (aside : w'.engine.detached = w.engine.detached)
    (kept : ∀ k q, w.forest.parent k = some q → w'.forest.parent k = some q)
    (free : ∀ d ∈ w.engine.detached, w.forest.parent d = none → w'.forest.parent d = none)
    (owned : Owned w x) : Owned w' x := by
  have hover : ∀ {a}, w.forest.Over a x → w'.forest.Over a x := fun h =>
    Relation.ReflTransGen.mono (fun k q hk => kept k q hk) _ _ h
  rcases owned with ⟨r, hr, hx⟩ | ⟨d, hd, hp, hx⟩
  · exact .inl ⟨r, root.trans hr, hover hx⟩
  · refine .inr ⟨d, ?_, free d hd hp, hover hx⟩
    rw [aside]
    exact hd

/-- No change lets go of a node in care.  What is taken from the tree is put aside. -/
theorem Owned.change (orderly : Orderly w) (h : Change w w')
    (root : w'.engine.root = w.engine.root) (owned : Owned w x) : Owned w' x := by
  have known : w'.engine.detached = w.engine.detached →
      (∀ k, k < w.forest.size → w'.forest.parent k = w.forest.parent k) → Owned w' x := by
    intro aside same
    refine owned.of_parents root aside (fun k q hq => ?_) (fun d hd free => ?_)
    · rw [same k (Forest.lt_size_of_parent hq)]
      exact hq
    · rw [same d (orderly.aside d hd).1]
      exact free
  cases h with
  | still hf _ aside => exact known aside fun k _ => by rw [hf]
  | closed _ hf _ aside => exact known aside fun k _ => by rw [hf]
  | closedAll hf _ aside => exact known aside fun k _ => by rw [hf]
  | created hf _ aside =>
      refine known aside fun k _ => ?_
      rw [hf, Forest.parent_add]
  | @wrote top rest t origin htop hw _ aside =>
      refine known aside fun k hk => hw.parent (orderly.known top ?_) hk
      rw [htop]
      exact List.mem_cons_self
  | @opened top h rest htop fresh _ hf _ aside =>
      have known := orderly.known top (htop ▸ List.mem_cons_self)
      have parent := Forest.parent_link known fresh.known (w.forest.children top ++ [h])
      refine owned.of_parents root aside (fun k q hq => ?_) (fun d hd free => ?_)
      · have other : k ≠ h := by
          rintro rfl
          rw [fresh.parent] at hq
          cases hq
        rw [hf, parent, if_neg other]
        exact hq
      · have other : d ≠ h := by
          rintro rfl
          exact fresh.notAside hd
        rw [hf, parent, if_neg other]
        exact free
  | @withdrawn top p rest _ hp hf _ aside =>
      have off : w'.forest = w.forest.uproot top := by rw [hf, Forest.uproot, hp]
      have free : ∀ k, w.forest.parent k = none → w'.forest.parent k = none := by
        intro k hk
        rw [off, orderly.wellFormed.parent_uproot]
        split
        · rfl
        · exact hk
      have top' : w'.forest.parent top = none := by
        rw [off, orderly.wellFormed.parent_uproot_self]
      have hover : ∀ {a}, w.forest.Over a x → w'.forest.Over a x ∨ w'.forest.Over top x := by
        intro a ha
        rw [off]
        exact orderly.wellFormed.over_uproot_or top ha
      have taken : w'.forest.Over top x → Owned w' x := by
        intro below
        refine .inr ⟨top, ?_, top', below⟩
        rw [aside]
        exact List.mem_cons_self
      rcases owned with ⟨r, hr, hx⟩ | ⟨d, hd, hparent, hx⟩
      · rcases hover hx with hx | hx
        · exact .inl ⟨r, root.trans hr, hx⟩
        · exact taken hx
      · rcases hover hx with hx | hx
        · refine .inr ⟨d, ?_, free d hparent, hx⟩
          rw [aside]
          exact List.mem_cons_of_mem _ hd
        · exact taken hx

/-- Hooks have no part in a step. -/
def Step.IsSilent : Step σ → Prop
  | .enter _ => False
  | .op _ => False
  | _ => True

/-- While no hook acts, nothing gets out of care. -/
theorem Runs.owned {ms : List (Moment σ)} (runs : Runs w ms w') (orderly : Orderly w)
    (silent : ∀ m ∈ ms, m.step.IsSilent) (isWork : ∀ m ∈ ms, m.step.IsWork) (owned : Owned w x) :
    Owned w' x := by
  induction runs with
  | nil => exact owned
  | @cons m ms v _ ih =>
      have noOp : ∀ o, m.step ≠ .op o := by
        intro o ho
        have quiet := silent m List.mem_cons_self
        rw [ho] at quiet
        exact quiet
      have working := isWork m List.mem_cons_self
      have change := m.change_of_noOp orderly.toTidy working noOp
      have root := root_after m working noOp
      exact ih (orderly.tends (.of_change orderly.toTidy change root))
        (fun k hk => silent k (List.mem_cons_of_mem _ hk))
        (fun k hk => isWork k (List.mem_cons_of_mem _ hk)) (owned.change orderly change root)

end Engine

end Needlework
