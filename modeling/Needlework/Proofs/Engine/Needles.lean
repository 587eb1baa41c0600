import Needlework.Proofs.Engine.Places

/-!
# The counter of needles

A needle is counted when the scan has moved to it, and then the grammar is called with it.  No
hook and no other step touches the counter.  So the counter is the number of calls for needles:
this holds of each part of a parse (`Course.Tallies`), and of a whole one
(`needles_buildCourse`).
-/

namespace Needlework

namespace Engine

open Act

/-- Whether a call is for a needle. -/
def HookCall.isHandling : HookCall → Bool
  | .handleStatus _ _ => true
  | _ => false

variable {σ α β : Type} {w w' : World σ}

/-- How often a course calls the grammar for a needle. -/
def Course.handlings (p : Course σ α) (w : World σ) : Nat :=
  (p.calls w).countP HookCall.isHandling

theorem Course.handlings_andThen (p : Course σ α) (k : α → Course σ β) (w : World σ) :
    (p >>= k).handlings w = p.handlings w + match p.outcome w with
      | (.ok a, w') => (k a).handlings w'
      | (.error _, _) => 0 := by
  rw [handlings, calls_andThen, List.countP_append, handlings]
  congr 1
  generalize p.outcome w = out
  obtain ⟨r, w'⟩ := out
  cases r <;> rfl

theorem Course.handlings_take (s : Step σ) (w : World σ) :
    (Course.take s).handlings w = s.call?.toList.countP HookCall.isHandling := by
  rw [handlings, calls_take]

/-- From every world, a course counts its calls for needles, but for some that were counted
before. -/
def Course.Tallies (before : Nat) (p : Course σ α) : Prop :=
  ∀ w, (p.outcome w).2.engine.metrics.needles + before = w.engine.metrics.needles + p.handlings w

namespace Course.Tallies

theorem done (a : α) : (Course.done a : Course σ α).Tallies 0 := fun _ => rfl

theorem raise (f : Fault) : (Course.raise f : Course σ α).Tallies 0 := fun _ => rfl

/-- A step that leaves the counter alone. -/
theorem take {s : Step σ}
    (same : ∀ w, (s.act.outcome w).2.engine.metrics.needles = w.engine.metrics.needles) :
    (Course.take s).Tallies (s.call?.toList.countP HookCall.isHandling) := by
  intro w
  rw [handlings_take, outcome_take, same]

theorem attempt {n : Nat} {p : Course σ α} (hp : p.Tallies n) : p.attempt.Tallies n := by
  intro w
  rw [outcome_attempt, handlings, calls_attempt]
  exact hp w

theorem bind {n : Nat} {p : Course σ α} {k : α → Course σ β} (hp : p.Tallies n)
    (hk : ∀ a, (k a).Tallies 0) : (p >>= k).Tallies n := by
  intro w
  have first := hp w
  rw [handlings_andThen, outcome_andThen]
  generalize p.outcome w = out at first ⊢
  obtain ⟨r, w'⟩ := out
  cases r with
  | error f => exact first
  | ok a =>
      have second := hk a w'
      dsimp only at first ⊢
      omega

end Course.Tallies

/-! ## Hooks -/

theorem needles_op {o : Op σ} (plain : IsPlain o) (w : World σ) :
    ((Step.act (.op o)).outcome w).2.engine.metrics.needles = w.engine.metrics.needles := by
  by_cases keeps : o.KeepsPlace
  · exact congrArg Place.needles (place_op plain keeps w)
  · cases o with
    | assign a =>
        cases a with
        | cursor i => rfl
        | text t => rfl
        | _ => exact absurd trivial keeps
    | tamper t => rfl
    | _ => exact absurd trivial keeps

theorem needles_resume (top : Handle) (origin : Int) (w : World σ) :
    ((resume top origin).outcome w).2.engine.metrics.needles = w.engine.metrics.needles := by
  rcases engine_resume top origin w with ⟨f, -, same⟩ | ⟨r, moved⟩
  · rw [same]
  · rw [moved]
    rfl

theorem tallies_recoverCourse {switch : Int → Course σ Unit} (hs : ∀ n, (switch n).Tallies 0) :
    (recoverCourse switch).Tallies 0 :=
  .bind (.take (s := .withdraw) fun w => congrArg Place.needles (place_withdraw w)) fun taken =>
    .bind (hs 0) fun _ => .take (s := .resume taken.1 taken.2) (needles_resume taken.1 taken.2)

theorem tallies_hookCourse {switch : Int → Course σ Unit} (hs : ∀ n, (switch n).Tallies 0) :
    ∀ h : Hook σ α, (hookCourse switch h).Tallies 0
  | .done a => .done a
  | .raise f => .raise f
  | .call o next => by
      refine .bind (.attempt (?_ : (opCourse switch o).Tallies 0)) fun r =>
        tallies_hookCourse hs (next r)
      cases o with
      | setStatus n => exact hs n
      | recover => exact tallies_recoverCourse hs
      | _ => exact .take (needles_op trivial)

theorem tallies_switchCourse (g : Grammar σ) : ∀ (n : Nat) (status : Int),
    (switchCourse g n status).Tallies 0
  | 0, _ => .raise _
  | n + 1, status => by
      refine .bind (.take (s := .enter (.setStatus status)) fun _ => rfl) fun _ => ?_
      refine .bind (tallies_hookCourse (tallies_switchCourse g n) _) fun accepted => ?_
      cases accepted with
      | true => exact .done _
      | false => exact .raise _

/-- No hook counts its own call. -/
theorem tallies_callCourse (g : Grammar σ) (call : HookCall) :
    (callCourse g call).Tallies ([call].countP HookCall.isHandling) :=
  .bind (.take (s := .enter call) fun _ => rfl) fun _ =>
    tallies_hookCourse (tallies_switchCourse g nestingLimit) _

/-! ## Rounds -/

/-- The needle is counted on the way, and the grammar is called with it. -/
theorem tallies_needleCourse (g : Grammar σ) (needle : Text) (position : Nat) :
    (needleCourse g needle position).Tallies 0 := by
  have rejected : ∀ w : World σ, ((reject needle position).outcome w).2.engine.metrics.needles
      = w.engine.metrics.needles := fun w => by
    rcases place_reject needle position w with ⟨-, same⟩ | ⟨-, moved⟩
    · exact congrArg Place.needles same
    · exact (congrArg Place.needles moved :)
  have accepted : ∀ w : World σ, ((accept needle).outcome w).2.engine.metrics.needles
      = w.engine.metrics.needles := fun w => by
    rw [outcome_accept]
    dsimp only
    split
    · rfl
    · rfl
  have called : ∀ status : Int, (do
      if ← callCourse g (.handleStatus status needle) then Course.take (.accept needle)
      else Course.take (.reject needle position) : Course σ Unit).Tallies 1 := fun status => by
    refine .bind (tallies_callCourse g _) fun well => ?_
    cases well with
    | true => exact .take (s := .accept needle) accepted
    | false => exact .take (s := .reject needle position) rejected
  intro w
  rw [needleCourse, Course.handlings_andThen, Course.handlings_take]
  rcases approach_cases position w with ⟨f, failed⟩ | ⟨-, moved⟩
  · have first := (Course.outcome_take (.approach position) w).trans failed
    rw [first, Course.outcome_andThen_error first]
    rfl
  · have first := (Course.outcome_take (.approach position) w).trans moved
    rw [first, Course.outcome_andThen_ok first]
    generalize moved : World.onEngine _ _ = w₁
    have counted : w₁.engine.metrics.needles = w.engine.metrics.needles + 1 := by
      rw [← moved]
      rfl
    have rest := called w.engine.status w₁
    rw [counted] at rest
    dsimp only [Step.call?, Option.toList, List.countP_nil]
    omega

theorem tallies_roundCourse (g : Grammar σ) : (roundCourse g).Tallies 0 := by
  refine .bind (.take (s := .beginRound) fun _ => rfl) fun e => ?_
  split
  next needle position _ => exact .bind (tallies_needleCourse g needle position) fun _ => .done true
  next =>
    split
    · exact .done false
    · split
      · exact .raise _
      · have recovery := tallies_recoverCourse (tallies_switchCourse g nestingLimit)
        exact .bind recovery fun _ => .done true

theorem tallies_scanCourse (g : Grammar σ) (n : Nat) : (scanCourse g n).Tallies 0 := by
  induction n with
  | zero => exact .raise _
  | succ n ih =>
    refine .bind (tallies_roundCourse g) fun again => ?_
    cases again with
    | true => exact ih
    | false =>
        refine .take (s := .appendRest) fun w => ?_
        show (appendRest.outcome w).2.engine.metrics.needles = _
        rcases appendRest_cases w with ⟨same, -⟩ | ⟨f, failed⟩ | ⟨-, -, moved⟩
        · rw [same]
        · rw [failed]
          rfl
        · rw [moved]
          rfl

/-! ## Whole parses -/

theorem tallies_requireCourse (g : Grammar σ) (name : HookName) {call : HookCall}
    (other : call.isHandling = false) : (requireCourse g name call).Tallies 0 := by
  have called := tallies_callCourse g call
  rw [List.countP_singleton, other] at called
  refine .bind called fun accepted => ?_
  cases accepted with
  | true => exact .done _
  | false => exact .raise _

theorem tallies_finishCourse (g : Grammar σ) : (finishCourse g).Tallies 0 := by
  refine .bind (tallies_callCourse g .closeRemainingBlocks) fun closed => ?_
  cases closed with
  | true => exact .done _
  | false =>
      refine .take (s := .reportOpen) fun w => ?_
      show (reportOpen.outcome w).2.engine.metrics.needles = _
      rw [reportOpen, outcome_engine]
      split
      · rfl
      · rfl

theorem tallies_workCourse (g : Grammar σ) (rounds : Nat) : (workCourse g rounds).Tallies 0 :=
  .bind (tallies_requireCourse g .init rfl) fun _ =>
    .bind (tallies_scanCourse g rounds) fun _ =>
    .bind (tallies_finishCourse g) fun _ =>
    .bind (tallies_requireCourse g .modifyTree rfl) fun _ =>
    tallies_requireCourse g .outputTree rfl

/-- Every call for a needle in a building is counted, and nothing else is. -/
theorem needles_buildCourse {g : Grammar σ} {input : Input} (n : Nat)
    (loaded : (load input).outcome w = (.ok (), w')) :
    ((buildCourse g n input).outcome w).2.engine.metrics.needles
      = w.engine.metrics.needles + (buildCourse g n input).handlings w := by
  have first := (Course.outcome_take (.load input) w).trans loaded
  have worked := (tallies_workCourse g n).bind fun _ => Course.Tallies.take (s := .handOut) fun w =>
    congrArg (fun e => e.metrics.needles) (account_handOut w)
  obtain ⟨f, begins⟩ := begins_of_load loaded
  have kept : w'.engine.metrics.needles = w.engine.metrics.needles := by rw [begins.metrics]
  have counted := worked w'
  rw [kept] at counted
  rw [buildCourse, Course.handlings_andThen, first, Course.outcome_andThen_ok first,
    Course.handlings_take]
  dsimp only [Step.call?, Option.toList, List.countP_nil]
  omega

end Engine

end Needlework
