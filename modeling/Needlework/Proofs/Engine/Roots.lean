import Needlework.Proofs.Engine.Preservation
import Needlework.Proofs.Engine.Steps

/-!
# The root of a parse

A parse begins with a new root.  The engine takes no step that puts another node in its place
while the grammar works: a recovery closes a node, but not the root (`root_after`).  A hook may set
the root, to another node or to none, and no other operation touches it (`root_op`).

So there is a root when the work is done, unless a hook has taken it away (`isSome_root_work`).
-/

namespace Needlework

namespace Engine

open Act

variable {σ : Type} {w w' : World σ}

/-- The steps between the beginning of a parse and the end of the work. -/
def Step.IsWork : Step σ → Prop
  | .load _ => False
  | .handOut => False
  | _ => True

theorem workSteps_isWork : WorkSteps (Step.IsWork : Step σ → Prop) where
  enter _ := trivial
  op _ := trivial
  withdraw := trivial
  resume _ _ := trivial
  own s own := by
    cases s with
    | load input => exact own.elim
    | handOut => exact own.elim
    | _ => trivial

/-! ## Operations -/

/-- The operations that set the root. -/
def SetsRoot : Op σ → Prop
  | .assign (.root _) => True
  | .assign .newRoot => True
  | _ => False

/-- No other operation touches the root. -/
theorem root_op {o : Op σ} (plain : IsPlain o) (old : ¬ SetsRoot o) :
    ((Step.act (.op o)).outcome w).2.engine.root = w.engine.root := by
  cases o with
  | push n =>
      show ((push n).outcome w).2.engine.root = _
      rcases push_cases n w with ⟨e, f, hout, -⟩ | ⟨top, rest, h, f, -, -, -, hout⟩
      · rw [hout]
        rfl
      · rw [hout]
        rfl
  | pop =>
      show (pop.outcome w).2.engine.root = _
      rcases pop_cases w with ⟨e, hout⟩ | ⟨top, next, rest, -, hout⟩
      · rw [hout]
      · rw [hout]
        rfl
  | appendText t offset =>
      show ((appendText t offset).outcome w).2.engine.root = _
      rw [after_appendText]
      rfl
  | closeOpen =>
      show (closeOpen.outcome w).2.engine.root = _
      rcases closeOpen_cases w with ⟨b, hout⟩ | moved
      · rw [hout]
      · exact moved.root
  | edit e =>
      show ((tree e.run).outcome w).2.engine.root = _
      rw [after_tree]
      rfl
  | assign a =>
      cases a with
      | root r => exact absurd trivial old
      | newRoot => exact absurd trivial old
      | dropTop =>
          show ((assign .dropTop).outcome w).2.engine.root = _
          rw [assign, outcome_engine]
          split
          · rfl
          · rfl
      | _ => rfl
  | setStatus n => exact plain.elim
  | recover => exact plain.elim
  | postfilter t => exact (unmoved_applyFilters .post t w).root
  | parse input override => exact (unmoved_refuseParse w).root
  | _ => rfl

/-! ## The steps of the engine -/

/-- What an engine holds open: the root and the stack. -/
def held (e : Engine) : Option Handle × List Handle := (e.root, e.stack)

/-- No step that the engine takes by itself while the grammar works opens or closes a node, but for
a recovery. -/
theorem held_after {m : Moment σ} (isWork : m.step.IsWork) (noOp : ∀ o, m.step ≠ .op o)
    (noRecovery : m.step ≠ .withdraw) :
    m.after.engine.held = m.before.engine.held := by
  obtain ⟨step, w⟩ := m
  cases step with
  | enter call => rfl
  | op o => exact absurd rfl (noOp o)
  | withdraw => exact absurd rfl noRecovery
  | resume top origin =>
      show ((resume top origin).outcome w).2.engine.held = _
      rcases resume_cases top origin w with ⟨e, f, hout, -⟩ | ⟨c, inner, rest, f, -, -, -, moved⟩
      · rw [hout]; rfl
      · exact congrArg₂ Prod.mk moved.root moved.stack
  | beginRound => rfl
  | approach position =>
      show ((approach position).outcome w).2.engine.held = _
      rcases approach_cases position w with ⟨e, hout⟩ | ⟨-, hout⟩
      · rw [hout]; rfl
      · rw [hout]; rfl
  | accept needle =>
      show ((accept needle).outcome w).2.engine.held = _
      rw [outcome_accept]
      dsimp only
      split
      · rfl
      · rfl
  | reject needle position =>
      show ((reject needle position).outcome w).2.engine.held = _
      rcases reject_cases needle position w
        with ⟨e, w', hout, f, moved, -⟩ | ⟨c, inner, rest, f, w', -, -, -, hout, moved⟩
      · rw [hout]; exact congrArg₂ Prod.mk moved.root moved.stack
      · rw [hout]; exact congrArg₂ Prod.mk moved.root moved.stack
  | appendRest =>
      show (appendRest.outcome w).2.engine.held = _
      rcases appendRest_cases w with ⟨hout, -⟩ | ⟨e, hout⟩ | ⟨-, -, hout⟩
      · rw [hout]
      · rw [hout]; rfl
      · rw [hout]; rfl
  | load input => exact isWork.elim
  | reportOpen =>
      show (reportOpen.outcome w).2.engine.held = _
      rw [reportOpen, outcome_engine]
      split
      · rfl
      · rfl
  | handOut => exact isWork.elim

/-- A recovery closes a node, but not the root. -/
theorem root_after (m : Moment σ) (isWork : m.step.IsWork) (noOp : ∀ o, m.step ≠ .op o) :
    m.after.engine.root = m.before.engine.root := by
  by_cases recovery : m.step = .withdraw
  · obtain ⟨step, w⟩ := m
    obtain rfl : step = .withdraw := recovery
    show (withdraw.outcome w).2.engine.root = _
    obtain ⟨stack, aside, same⟩ := engine_withdraw w
    rw [same]
  · exact congrArg Prod.fst (held_after isWork noOp recovery)

/-! ## The work of a grammar -/

/-- If there is a root, there is one afterwards, perhaps another. -/
def StaysRooted (w w' : World σ) : Prop :=
  w.engine.root.isSome = true → w'.engine.root.isSome = true

theorem StaysRooted.trans (w₁ w₂ w₃ : World σ) (first : StaysRooted w₁ w₂)
    (second : StaysRooted w₂ w₃) : StaysRooted w₁ w₃ := second ∘ first

theorem StaysRooted.of_eq (same : w'.engine.root = w.engine.root) : StaysRooted w w' := by
  intro rooted
  rw [same]
  exact rooted

/-- Only a hook that sets that there is no root takes the root away. -/
theorem rootLaws :
    WorkLaws (fun m : Moment σ => m.step ≠ .op (.assign (.root none))) StaysRooted where
  refl _ := id
  trans := .trans
  plain o w plain stays := by
    by_cases old : SetsRoot o
    · cases o with
      | assign a =>
          cases a with
          | root r =>
              cases r with
              | none => exact absurd rfl stays
              | some h => exact fun _ => rfl
          | newRoot => exact fun _ => rfl
          | _ => exact old.elim
      | _ => exact old.elim
    · exact .of_eq (root_op plain old)
  recovery switch hs := by
    refine .bind .trans (.take fun w _ => ?_) fun taken =>
      .bind .trans (hs 0) fun _ => .take fun w _ => ?_
    · exact .of_eq (root_after ⟨.withdraw, w⟩ trivial nofun)
    · exact .of_eq (root_after ⟨.resume taken.1 taken.2, w⟩ trivial nofun)
  own s w own _ := by
    have working : s.IsWork := by
      cases s with
      | load input => exact own.elim
      | handOut => exact own.elim
      | _ => trivial
    have noOp : ∀ o, s ≠ .op o := by
      rintro o rfl
      exact own.elim
    exact .of_eq (root_after ⟨s, w⟩ working noOp)

/-- There is a root when the work is done, unless a hook has taken it away. -/
theorem isSome_root_work (g : Grammar σ) (n : Nat) (rooted : w.engine.root.isSome = true)
    (stays : ∀ m ∈ (workCourse g n).moments w, m.step ≠ .op (.assign (.root none))) :
    ((work g n).outcome w).2.engine.root.isSome = true := by
  rw [← follows_workCourse]
  exact rootLaws.keeps_workCourse g n w stays rooted

end Engine

end Needlework
