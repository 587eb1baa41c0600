import Mathlib.Data.List.Chain
import Needlework.Proofs.Engine.Course

/-!
# What courses preserve

Two ways to get from single steps to whole runs.

*Moments.*  Each step is taken in the world that the step before it has left behind.
What holds at one step and survives from step to step holds at every later one
(`carry`).

*Relations.*  A reflexive and transitive relation between worlds that every allowed
step respects is respected by a whole course (`Course.Keeps`).  For the hooks of a
grammar, and for the status switches inside them, this needs to be shown of the
operations that call no hook, and of a recovery around a switch that respects it
(`keeps_callCourse`).  A recovery is taken as a whole, since what it does at its end
makes up for what it did at its beginning.  For everything that the grammar has a part
in, it needs to be shown of the engine's own steps too (`keeps_workCourse`).
-/

namespace Needlework

namespace Engine

variable {σ α β : Type}

/-! ## Moments in a row -/

/-- A step is taken where the one before it has ended. -/
def Meets (m m' : Moment σ) : Prop := m'.before = m.after

theorem isChain_moments : ∀ (p : Course σ α) (w : World σ),
    (p.moments w).IsChain Meets ∧ ∀ m ∈ (p.moments w).head?, m.before = w
  | .done _, _ => ⟨.nil, by simp [Course.moments]⟩
  | .raise _, _ => ⟨.nil, by simp [Course.moments]⟩
  | .step s next, w => by
      have ih := isChain_moments (next (s.act.outcome w).1) (s.act.outcome w).2
      rw [Course.moments, List.isChain_cons]
      refine ⟨⟨fun m hm => ih.2 m hm, ih.1⟩, fun m hm => ?_⟩
      cases hm
      rfl

theorem before_eq_after {ms : List (Moment σ)} (linked : ms.IsChain Meets) {k : Nat}
    {m m' : Moment σ} (hm : ms[k]? = some m) (hm' : ms[k + 1]? = some m') : m'.before = m.after := by
  obtain ⟨hk, rfl⟩ := List.getElem?_eq_some_iff.mp hm
  obtain ⟨hk', rfl⟩ := List.getElem?_eq_some_iff.mp hm'
  exact List.isChain_iff_getElem.mp linked k hk'

/-- What holds at one step and survives from step to step up to another holds at that
one. -/
theorem carry {P : World σ → Prop} {ms : List (Moment σ)} (linked : ms.IsChain Meets) {i j : Nat}
    (hij : i ≤ j) (start : ∀ m, ms[i]? = some m → P m.before)
    (survives : ∀ k m m', i ≤ k → k < j → ms[k]? = some m → ms[k + 1]? = some m' →
      m'.before = m.after → P m.before → P m'.before) :
    ∀ m, ms[j]? = some m → P m.before := by
  induction j, hij using Nat.le_induction with
  | base => exact start
  | succ j hij ih =>
    intro m' hm'
    have hj : j < ms.length := by
      obtain ⟨hj, -⟩ := List.getElem?_eq_some_iff.mp hm'
      omega
    obtain ⟨m, hm⟩ : ∃ m, ms[j]? = some m := ⟨_, List.getElem?_eq_getElem hj⟩
    refine survives j m m' hij (Nat.lt_succ_self j) hm hm' (before_eq_after linked hm hm') ?_
    exact ih (fun k n n' hik hkj => survives k n n' hik (Nat.lt_succ_of_lt hkj)) m hm

/-! ## Runs -/

/-- Some steps lead from one world to another. -/
inductive Runs : World σ → List (Moment σ) → World σ → Prop where
  | nil (w : World σ) : Runs w [] w
  | cons {m : Moment σ} {ms : List (Moment σ)} {w : World σ} : Runs m.after ms w →
      Runs m.before (m :: ms) w

theorem runs_moments (p : Course σ α) (w : World σ) : Runs w (p.moments w) (p.outcome w).2 := by
  induction p generalizing w with
  | done a => exact .nil w
  | raise f => exact .nil w
  | step s next ih => exact .cons (m := ⟨s, w⟩) (ih _ _)

theorem Runs.exists_of_append {w w' : World σ} {ms ms' : List (Moment σ)}
    (h : Runs w (ms ++ ms') w') : ∃ v, Runs w ms v ∧ Runs v ms' w' := by
  induction ms generalizing w with
  | nil => exact ⟨w, .nil w, h⟩
  | cons m ms ih =>
    cases h with
    | cons h =>
        obtain ⟨v, first, second⟩ := ih h
        exact ⟨v, .cons first, second⟩

/-! ## The steps that courses take -/

/-- Every step that a course takes, from any world, is of a kind. -/
def Course.Within (P : Step σ → Prop) (p : Course σ α) : Prop := ∀ w, ∀ m ∈ p.moments w, P m.step

section Within

variable {P : Step σ → Prop}

namespace Course.Within

theorem done (a : α) : (Course.done a : Course σ α).Within P :=
  fun _ _ hm => absurd hm List.not_mem_nil

theorem raise (f : Fault) : (Course.raise f : Course σ α).Within P :=
  fun _ _ hm => absurd hm List.not_mem_nil

theorem take {s : Step σ} (hs : P s) : (Course.take s).Within P := by
  intro w m hm
  rw [moments_take, List.mem_singleton] at hm
  rw [hm]
  exact hs

theorem attempt {p : Course σ α} (hp : p.Within P) : p.attempt.Within P := by
  intro w m hm
  rw [moments_attempt] at hm
  exact hp w m hm

theorem bind {p : Course σ α} {k : α → Course σ β} (hp : p.Within P) (hk : ∀ a, (k a).Within P) :
    (p >>= k).Within P := by
  intro w m hm
  rw [moments_andThen] at hm
  generalize p.outcome w = out at hm
  obtain ⟨r, w'⟩ := out
  rcases List.mem_append.mp hm with hm | hm
  · exact hp w m hm
  · cases r with
    | error f => exact absurd hm List.not_mem_nil
    | ok a => exact hk a w' m hm

end Course.Within

/-- The steps of hooks, and of the recoveries and switches in them. -/
structure HookSteps (P : Step σ → Prop) : Prop where
  enter : ∀ call, P (.enter call)
  op : ∀ o, P (.op o)
  withdraw : P .withdraw
  resume : ∀ top origin, P (.resume top origin)

namespace HookSteps

theorem recoverCourse (steps : HookSteps P) {switch : Int → Course σ Unit}
    (hs : ∀ n, (switch n).Within P) : (recoverCourse switch).Within P :=
  .bind (.take steps.withdraw) fun taken => .bind (hs 0) fun _ =>
    .take (steps.resume taken.1 taken.2)

theorem hookCourse (steps : HookSteps P) {switch : Int → Course σ Unit}
    (hs : ∀ n, (switch n).Within P) : ∀ h : Hook σ α, (hookCourse switch h).Within P
  | .done a => .done a
  | .raise f => .raise f
  | .call o next => by
      refine .bind (.attempt ?_) fun r => steps.hookCourse hs (next r)
      cases o with
      | setStatus n => exact hs n
      | recover => exact steps.recoverCourse hs
      | _ => exact .take (steps.op _)

theorem switchCourse (steps : HookSteps P) (g : Grammar σ) : ∀ (n : Nat) (status : Int),
    (switchCourse g n status).Within P
  | 0, _ => .raise _
  | n + 1, status => by
      refine .bind (.take (steps.enter _)) fun _ => ?_
      refine .bind (steps.hookCourse (steps.switchCourse g n) _) fun b => ?_
      cases b with
      | true => exact .done _
      | false => exact .raise _

theorem callCourse (steps : HookSteps P) (g : Grammar σ) (call : HookCall) :
    (callCourse g call).Within P :=
  .bind (.take (steps.enter call)) fun _ =>
    steps.hookCourse (steps.switchCourse g nestingLimit) _

theorem requireCourse (steps : HookSteps P) (g : Grammar σ) (name : HookName) (call : HookCall) :
    (requireCourse g name call).Within P := by
  refine .bind (steps.callCourse g call) fun b => ?_
  cases b with
  | true => exact .done _
  | false => exact .raise _

end HookSteps

/-- The steps that the engine takes by itself while the grammar works. -/
def IsOwn : Step σ → Prop
  | .beginRound => True
  | .approach _ => True
  | .accept _ => True
  | .reject _ _ => True
  | .appendRest => True
  | .reportOpen => True
  | _ => False

/-- The steps of everything that the grammar has a part in. -/
structure WorkSteps (P : Step σ → Prop) : Prop extends HookSteps P where
  own : ∀ s, IsOwn s → P s

namespace WorkSteps

theorem needleCourse (steps : WorkSteps P) (g : Grammar σ) (needle : Text) (position : Nat) :
    (needleCourse g needle position).Within P := by
  refine .bind (.take (steps.own (.approach position) trivial)) fun status => ?_
  refine .bind (steps.callCourse g _) fun accepted => ?_
  cases accepted with
  | true => exact .take (steps.own (.accept needle) trivial)
  | false => exact .take (steps.own (.reject needle position) trivial)

theorem roundCourse (steps : WorkSteps P) (g : Grammar σ) : (roundCourse g).Within P := by
  refine .bind (.take (steps.own .beginRound trivial)) fun e => ?_
  split
  next needle position _ => exact .bind (steps.needleCourse g needle position) fun _ => .done true
  next =>
    split
    · exact .done false
    · split
      · exact .raise _
      · have recovery := steps.recoverCourse (steps.switchCourse g nestingLimit)
        exact .bind recovery fun _ => .done true

theorem scanCourse (steps : WorkSteps P) (g : Grammar σ) (n : Nat) : (scanCourse g n).Within P := by
  induction n with
  | zero => exact .raise _
  | succ n ih =>
    refine .bind (steps.roundCourse g) fun again => ?_
    cases again with
    | true => exact ih
    | false => exact .take (steps.own .appendRest trivial)

theorem finishCourse (steps : WorkSteps P) (g : Grammar σ) : (finishCourse g).Within P := by
  refine .bind (steps.callCourse g _) fun closed => ?_
  cases closed with
  | true => exact .done _
  | false => exact .take (steps.own .reportOpen trivial)

theorem workCourse (steps : WorkSteps P) (g : Grammar σ) (rounds : Nat) :
    (workCourse g rounds).Within P :=
  .bind (steps.requireCourse g .init .init) fun _ =>
    .bind (steps.scanCourse g rounds) fun _ =>
    .bind (steps.finishCourse g) fun _ =>
    .bind (steps.requireCourse g .modifyTree .modifyTree) fun _ =>
    steps.requireCourse g .outputTree .outputTree

end WorkSteps

end Within

/-! ## Relations that courses respect -/

/-- From every world, a course that takes allowed steps only ends in a related world. -/
def Course.Keeps (allowed : Moment σ → Prop) (R : World σ → World σ → Prop) (p : Course σ α) :
    Prop :=
  ∀ w, (∀ m ∈ p.moments w, allowed m) → R w (p.outcome w).2

section Keeps

variable {allowed : Moment σ → Prop} {R : World σ → World σ → Prop}

namespace Course.Keeps

theorem done (refl : ∀ w, R w w) (a : α) : (Course.done a : Course σ α).Keeps allowed R :=
  fun w _ => refl w

theorem raise (refl : ∀ w, R w w) (f : Fault) : (Course.raise f : Course σ α).Keeps allowed R :=
  fun w _ => refl w

theorem take {s : Step σ} (hs : ∀ w, allowed ⟨s, w⟩ → R w (s.act.outcome w).2) :
    (Course.take s).Keeps allowed R := by
  intro w obeys
  rw [outcome_take]
  refine hs w (obeys _ ?_)
  rw [moments_take]
  exact List.mem_singleton_self _

theorem attempt {p : Course σ α} (hp : p.Keeps allowed R) : p.attempt.Keeps allowed R := by
  intro w obeys
  rw [moments_attempt] at obeys
  rw [outcome_attempt]
  exact hp w obeys

theorem bind (trans : ∀ a b c, R a b → R b c → R a c) {p : Course σ α} {k : α → Course σ β}
    (hp : p.Keeps allowed R) (hk : ∀ a, (k a).Keeps allowed R) : (p >>= k).Keeps allowed R := by
  intro w obeys
  rw [moments_andThen] at obeys
  have first := hp w fun m hm => obeys m (List.mem_append_left _ hm)
  have second := fun m hm => obeys m (List.mem_append_right _ hm)
  rw [outcome_andThen]
  generalize p.outcome w = out at first second ⊢
  obtain ⟨r, w'⟩ := out
  cases r with
  | error f => exact first
  | ok a => exact trans _ _ _ first (hk a w' second)

end Course.Keeps

/-- The operations of a hook that call no hook themselves. -/
def IsPlain : Op σ → Prop
  | .setStatus _ => False
  | .recover => False
  | _ => True

/-- What a relation must satisfy so that hooks respect it. -/
structure HookLaws (allowed : Moment σ → Prop) (R : World σ → World σ → Prop) : Prop where
  refl : ∀ w, R w w
  trans : ∀ a b c, R a b → R b c → R a c
  plain : ∀ o w, IsPlain o → allowed ⟨.op o, w⟩ → R w (Step.act (.op o) |>.outcome w).2
  recovery : ∀ switch : Int → Course σ Unit, (∀ n, (switch n).Keeps allowed R) →
    (recoverCourse switch).Keeps allowed R

namespace HookLaws

theorem keeps_opCourse (laws : HookLaws allowed R) {switch : Int → Course σ Unit}
    (hs : ∀ n, (switch n).Keeps allowed R) (o : Op σ) : (opCourse switch o).Keeps allowed R := by
  cases o with
  | setStatus n => exact hs n
  | recover => exact laws.recovery switch hs
  | _ => exact .take fun w ha => laws.plain _ w trivial ha

theorem keeps_hookCourse (laws : HookLaws allowed R) {switch : Int → Course σ Unit}
    (hs : ∀ n, (switch n).Keeps allowed R) : ∀ h : Hook σ α,
    (hookCourse switch h).Keeps allowed R
  | .done a => .done laws.refl a
  | .raise f => .raise laws.refl f
  | .call o next =>
      .bind laws.trans (laws.keeps_opCourse hs o).attempt fun r => laws.keeps_hookCourse hs (next r)

theorem keeps_enter (laws : HookLaws allowed R) (call : HookCall) :
    (Course.take (.enter call)).Keeps allowed R :=
  .take fun w _ => laws.refl w

theorem keeps_switchCourse (laws : HookLaws allowed R) (g : Grammar σ) : ∀ (n : Nat) (status : Int),
    (switchCourse g n status).Keeps allowed R
  | 0, _ => .raise laws.refl _
  | n + 1, status => by
      refine .bind laws.trans (laws.keeps_enter _) fun _ => ?_
      refine .bind laws.trans (laws.keeps_hookCourse (laws.keeps_switchCourse g n) _) fun b => ?_
      cases b with
      | true => exact .done laws.refl _
      | false => exact .raise laws.refl _

theorem keeps_callCourse (laws : HookLaws allowed R) (g : Grammar σ) (call : HookCall) :
    (callCourse g call).Keeps allowed R :=
  .bind laws.trans (laws.keeps_enter call) fun _ =>
    laws.keeps_hookCourse (laws.keeps_switchCourse g nestingLimit) _

theorem keeps_requireCourse (laws : HookLaws allowed R) (g : Grammar σ) (name : HookName)
    (call : HookCall) : (requireCourse g name call).Keeps allowed R := by
  refine .bind laws.trans (laws.keeps_callCourse g call) fun b => ?_
  cases b with
  | true => exact .done laws.refl _
  | false => exact .raise laws.refl _

end HookLaws

/-- What a relation must satisfy so that everything that the grammar has a part in respects
it. -/
structure WorkLaws (allowed : Moment σ → Prop) (R : World σ → World σ → Prop) : Prop
    extends HookLaws allowed R where
  own : ∀ s w, IsOwn s → allowed ⟨s, w⟩ → R w (s.act.outcome w).2

namespace WorkLaws

variable (laws : WorkLaws allowed R) (g : Grammar σ)

include laws

theorem keeps_own {s : Step σ} (own : IsOwn s) : (Course.take s).Keeps allowed R :=
  .take fun w ha => laws.own s w own ha

theorem keeps_needleCourse (needle : Text) (position : Nat) :
    (needleCourse g needle position).Keeps allowed R := by
  refine .bind laws.trans (laws.keeps_own trivial) fun status => ?_
  refine .bind laws.trans (laws.keeps_callCourse g _) fun accepted => ?_
  cases accepted with
  | true => exact laws.keeps_own trivial
  | false => exact laws.keeps_own trivial

theorem keeps_roundCourse : (roundCourse g).Keeps allowed R := by
  refine .bind laws.trans (laws.keeps_own (s := .beginRound) trivial) fun e => ?_
  split
  next needle position _ =>
    exact .bind laws.trans (laws.keeps_needleCourse g needle position) fun _ => .done laws.refl true
  next =>
    split
    · exact .done laws.refl false
    · split
      · exact .raise laws.refl _
      · have recovery := laws.recovery _ (laws.keeps_switchCourse g nestingLimit)
        exact .bind laws.trans recovery fun _ => .done laws.refl true

theorem keeps_scanCourse (n : Nat) : (scanCourse g n).Keeps allowed R := by
  induction n with
  | zero => exact .raise laws.refl _
  | succ n ih =>
    refine .bind laws.trans (laws.keeps_roundCourse g) fun again => ?_
    cases again with
    | true => exact ih
    | false => exact laws.keeps_own trivial

theorem keeps_finishCourse : (finishCourse g).Keeps allowed R := by
  refine .bind laws.trans (laws.keeps_callCourse g _) fun closed => ?_
  cases closed with
  | true => exact .done laws.refl _
  | false => exact laws.keeps_own trivial

theorem keeps_workCourse (rounds : Nat) : (workCourse g rounds).Keeps allowed R :=
  .bind laws.trans (laws.keeps_requireCourse g .init .init) fun _ =>
    .bind laws.trans (laws.keeps_scanCourse g rounds) fun _ =>
    .bind laws.trans (laws.keeps_finishCourse g) fun _ =>
    .bind laws.trans (laws.keeps_requireCourse g .modifyTree .modifyTree) fun _ =>
    laws.keeps_requireCourse g .outputTree .outputTree

end WorkLaws

end Keeps

end Engine

end Needlework
