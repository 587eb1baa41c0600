import Needlework.Engine.Parse

/-!
# Courses

A parse runs the hooks of a grammar inside the engine, and status switches inside
hooks.  A *course* lays all of this out in one line.  It is a program over the
*steps* of a parse.  A step is what happens between two points at which a hook could
look at the world: an operation of a hook, or a piece of the scan between two hook
calls.  A recovery is two steps, since the grammar switches the status in between.

`scanCourse` and `buildCourse` are the courses of the scan and of everything that a
parse does before it settles its report.  They end as the actions `scan` and `build`
do, in the same world (`follows_scanCourse`, `follows_buildCourse`).

The *moments* of a course from a world are the steps that are taken, each with the
world in which it is taken.  Every statement about what happens at some point of a
parse, or between two points, is a statement about this list.
-/

namespace Needlework

variable {σ α β : Type}

/-! ## Outcomes -/

/-- How an action ends, and the world that it leaves behind. -/
def Act.outcome (x : Act σ α) (w : World σ) : Except Fault α × World σ :=
  match x w with
  | .ok a w' => (.ok a, w')
  | .error f w' => (.error f, w')

namespace Act

/-- One action after the other. -/
theorem outcome_bind (x : Act σ α) (k : α → Act σ β) (w : World σ) :
    outcome (x >>= k) w
      = match x.outcome w with
        | (.ok a, w') => (k a).outcome w'
        | (.error f, w') => (.error f, w') := by
  simp only [outcome, bind, EStateM.bind]
  cases x w <;> rfl

theorem outcome_attempt (x : Act σ α) (w : World σ) :
    (attempt x).outcome w = (.ok (x.outcome w).1, (x.outcome w).2) := by
  simp only [outcome, attempt]
  cases x w <;> rfl

theorem outcome_of_attempt {x : Act σ α} {r : Except Fault α} {w w' : World σ}
    (h : (attempt x).outcome w = (.ok r, w')) : x.outcome w = (r, w') := by
  rw [outcome_attempt] at h
  cases h
  rfl

end Act

namespace Engine

open Act

/-! ## Steps -/

/-- The calls of a grammar's hooks. -/
inductive HookCall where
  | init
  | setStatus (status : Int)
  | handleStatus (status : Int) (needle : Text)
  | closeRemainingBlocks
  | modifyTree
  | outputTree

/-- The program of a hook call. -/
def HookCall.hook (g : Grammar σ) : HookCall → Hook σ Bool
  | .init => g.init
  | .setStatus n => g.setStatus n
  | .handleStatus n needle => g.handleStatus n needle
  | .closeRemainingBlocks => g.closeRemainingBlocks
  | .modifyTree => g.modifyTree
  | .outputTree => g.outputTree

/-- The steps of a parse. -/
inductive Step (σ : Type) where
  /-- A hook is called. -/
  | enter (call : HookCall)
  /-- A hook asks for an operation that calls no hook itself. -/
  | op (o : Op σ)
  /-- A recovery takes the innermost construct out of the tree. -/
  | withdraw
  /-- A recovery keeps the marker as text. -/
  | resume (top : Handle) (origin : Int)
  /-- A round begins. -/
  | beginRound
  /-- The scan moves to a needle. -/
  | approach (position : Nat)
  /-- The scan moves behind an accepted needle. -/
  | accept (needle : Text)
  /-- The scan deals with a rejected needle. -/
  | reject (needle : Text) (position : Nat)
  /-- The scan appends what is left of the text. -/
  | appendRest
  /-- A parse sets its text. -/
  | load (input : Input)
  /-- A parse fails over what is open at the end. -/
  | reportOpen
  /-- A parse hands out its tree or output. -/
  | handOut

namespace Step

/-- The type of the reply to a step. -/
@[reducible] def Reply : Step σ → Type
  | .op o => o.Reply
  | .withdraw => Handle × Int
  | .beginRound => Engine
  | .approach _ => Int
  | _ => Unit

/-- What a step does.  Switching the status is a course of its own, and so is a
recovery; neither comes as a step. -/
def act : (s : Step σ) → Act σ s.Reply
  | .enter _ => (pure () : Act σ Unit)
  | .op o => perform (fun _ => pure ()) (fun _ _ => refuseParse) o
  | .withdraw => (Engine.withdraw : Act σ (Handle × Int))
  | .resume top origin => Engine.resume top origin
  | .beginRound => Engine.beginRound
  | .approach position => (Engine.approach position : Act σ Int)
  | .accept needle => Engine.accept needle
  | .reject needle position => Engine.reject needle position
  | .appendRest => Engine.appendRest
  | .load input => Engine.load input
  | .reportOpen => Engine.reportOpen
  | .handOut => Engine.handOut

end Step

/-! ## Programs over steps -/

/-- A program over the steps of a parse. -/
inductive Course (σ α : Type) where
  /-- Return a value. -/
  | done (a : α)
  /-- End with a fault. -/
  | raise (f : Fault)
  /-- Take a step and go on by its reply or its fault. -/
  | step (s : Step σ) (next : Except Fault s.Reply → Course σ α)

namespace Course

/-- One course after the other. -/
def andThen : Course σ α → (α → Course σ β) → Course σ β
  | .done a, k => k a
  | .raise f, _ => .raise f
  | .step s next, k => .step s fun r => (next r).andThen k

instance : Monad (Course σ) where
  pure := .done
  bind := andThen

/-- Take a step and pass its fault on. -/
def take (s : Step σ) : Course σ s.Reply :=
  .step s fun
    | .ok r => .done r
    | .error f => .raise f

/-- A course whose fault is a result. -/
def attempt : Course σ α → Course σ (Except Fault α)
  | .done a => .done (.ok a)
  | .raise f => .done (.error f)
  | .step s next => .step s fun r => (next r).attempt

/-- How a course ends, and the world that it leaves behind. -/
def outcome : Course σ α → World σ → Except Fault α × World σ
  | .done a, w => (.ok a, w)
  | .raise f, w => (.error f, w)
  | .step s next, w => (next (s.act.outcome w).1).outcome (s.act.outcome w).2

end Course

/-- A step that is taken, and the world in which it is taken. -/
structure Moment (σ : Type) where
  step : Step σ
  before : World σ

namespace Moment

/-- The world after the step. -/
def after (m : Moment σ) : World σ := (m.step.act.outcome m.before).2

/-- How the step ends. -/
def reply (m : Moment σ) : Except Fault m.step.Reply := (m.step.act.outcome m.before).1

end Moment

namespace Course

/-- The steps that a course takes from a world, in order. -/
def moments : Course σ α → World σ → List (Moment σ)
  | .done _, _ => []
  | .raise _, _ => []
  | .step s next, w =>
      ⟨s, w⟩ :: (next (s.act.outcome w).1).moments (s.act.outcome w).2

/-! ## Laws -/

theorem outcome_andThen : ∀ (p : Course σ α) (k : α → Course σ β) (w : World σ),
    (p >>= k).outcome w
      = match p.outcome w with
        | (.ok a, w') => (k a).outcome w'
        | (.error f, w') => (.error f, w')
  | .done _, _, _ => rfl
  | .raise _, _, _ => rfl
  | .step s next, k, w => outcome_andThen (next (s.act.outcome w).1) k (s.act.outcome w).2

theorem moments_andThen : ∀ (p : Course σ α) (k : α → Course σ β) (w : World σ),
    (p >>= k).moments w
      = p.moments w ++ match p.outcome w with
        | (.ok a, w') => (k a).moments w'
        | (.error _, _) => []
  | .done _, _, _ => rfl
  | .raise _, _, _ => rfl
  | .step s next, k, w =>
      congrArg (List.cons (Moment.mk s w)) (moments_andThen (next (s.act.outcome w).1) k (s.act.outcome w).2)

theorem outcome_andThen_ok {p : Course σ α} {k : α → Course σ β} {w w' : World σ} {a : α}
    (h : p.outcome w = (.ok a, w')) : (p >>= k).outcome w = (k a).outcome w' := by
  rw [outcome_andThen, h]

theorem outcome_andThen_error {p : Course σ α} {k : α → Course σ β} {w w' : World σ} {f : Fault}
    (h : p.outcome w = (.error f, w')) : (p >>= k).outcome w = (.error f, w') := by
  rw [outcome_andThen, h]

theorem moments_andThen_ok {p : Course σ α} {k : α → Course σ β} {w w' : World σ} {a : α}
    (h : p.outcome w = (.ok a, w')) :
    (p >>= k).moments w = p.moments w ++ (k a).moments w' := by
  rw [moments_andThen, h]

/-- Two courses in a row have succeeded if both of them have. -/
theorem exists_of_andThen_ok {p : Course σ α} {k : α → Course σ β} {w w' : World σ} {b : β}
    (h : (p >>= k).outcome w = (.ok b, w')) :
    ∃ a v, p.outcome w = (.ok a, v) ∧ (k a).outcome v = (.ok b, w')
      ∧ (p >>= k).moments w = p.moments w ++ (k a).moments v := by
  rw [outcome_andThen] at h
  rw [moments_andThen]
  generalize p.outcome w = out at h ⊢
  obtain ⟨r, v⟩ := out
  cases r with
  | ok a => exact ⟨a, v, rfl, h, rfl⟩
  | error f => cases h

theorem outcome_attempt : ∀ (p : Course σ α) (w : World σ),
    p.attempt.outcome w = (.ok (p.outcome w).1, (p.outcome w).2)
  | .done _, _ => rfl
  | .raise _, _ => rfl
  | .step s next, w => outcome_attempt (next (s.act.outcome w).1) (s.act.outcome w).2

/-- An attempt hands on what it comes to, be it a result or a fault. -/
theorem outcome_attempt_of {p : Course σ α} {r : Except Fault α} {w w' : World σ}
    (h : p.outcome w = (r, w')) : p.attempt.outcome w = (.ok r, w') := by
  rw [outcome_attempt, h]

theorem moments_attempt : ∀ (p : Course σ α) (w : World σ), p.attempt.moments w = p.moments w
  | .done _, _ => rfl
  | .raise _, _ => rfl
  | .step s next, w =>
      congrArg (List.cons (Moment.mk s w)) (moments_attempt (next (s.act.outcome w).1) (s.act.outcome w).2)

theorem outcome_take (s : Step σ) (w : World σ) : (take s).outcome w = s.act.outcome w := by
  rw [take, outcome]
  cases h : s.act.outcome w with
  | mk r w' => cases r <;> rfl

theorem moments_take (s : Step σ) (w : World σ) : (take s).moments w = [⟨s, w⟩] := by
  rw [take, moments]
  cases (s.act.outcome w).1 <;> rfl

end Course

/-! ## The courses of a parse -/

/-- The course of a recovery, with a course for switching the status. -/
def recoverCourse (switch : Int → Course σ Unit) : Course σ Unit := do
  let taken ← Course.take .withdraw
  switch 0
  Course.take (.resume taken.1 taken.2)

/-- The course of an operation. -/
def opCourse (switch : Int → Course σ Unit) : (o : Op σ) → Course σ o.Reply
  | .setStatus n => switch n
  | .recover => recoverCourse switch
  | o => Course.take (.op o)

/-- The course of a hook. -/
def hookCourse (switch : Int → Course σ Unit) : Hook σ α → Course σ α
  | .done a => .done a
  | .raise f => .raise f
  | .call o next => (opCourse switch o).attempt >>= fun r => hookCourse switch (next r)

/-- The course of a status switch. -/
def switchCourse (g : Grammar σ) : Nat → Int → Course σ Unit
  | 0, _ => .raise .nestedTooDeeply
  | n + 1, status => do
      Course.take (.enter (.setStatus status))
      let accepted ← hookCourse (switchCourse g n) (g.setStatus status)
      if accepted then return () else .raise (.statusRejected status)

/-- The course of a hook call inside a parse. -/
def callCourse (g : Grammar σ) (call : HookCall) : Course σ Bool := do
  Course.take (.enter call)
  hookCourse (switchCourse g nestingLimit) (call.hook g)

/-- The course of dealing with a needle. -/
def needleCourse (g : Grammar σ) (needle : Text) (position : Nat) : Course σ Unit := do
  let status ← Course.take (.approach position)
  if ← callCourse g (.handleStatus status needle) then Course.take (.accept needle)
  else Course.take (.reject needle position)

/-- The course of a round. -/
def roundCourse (g : Grammar σ) : Course σ Bool := do
  let e ← Course.take .beginRound
  match Text.findNeedle? e.needles e.text e.cursor with
  | some (needle, position) => do
      needleCourse g needle position
      return true
  | none =>
      if e.status = 0 then return false
      else if e.isStrict then .raise (.strict (.unterminated e.status e.openCount))
      else do
        recoverCourse (switchCourse g nestingLimit)
        return true

/-- The course of the scan, in at most the given number of rounds. -/
def scanCourse (g : Grammar σ) : Nat → Course σ Unit
  | 0 => .raise .outOfRounds
  | n + 1 => do
      if ← roundCourse g then scanCourse g n else Course.take .appendRest

/-- The course of a hook call that must do its work. -/
def requireCourse (g : Grammar σ) (name : HookName) (call : HookCall) : Course σ Unit := do
  if ← callCourse g call then return () else .raise (.hookReported name)

/-- The course of closing what is open at the end. -/
def finishCourse (g : Grammar σ) : Course σ Unit := do
  if ← callCourse g .closeRemainingBlocks then return ()
  else Course.take .reportOpen

/-- The course of everything that the grammar has a part in. -/
def workCourse (g : Grammar σ) (rounds : Nat) : Course σ Unit := do
  requireCourse g .init .init
  scanCourse g rounds
  finishCourse g
  requireCourse g .modifyTree .modifyTree
  requireCourse g .outputTree .outputTree

/-- The course of everything that a parse does before it settles its report. -/
def buildCourse (g : Grammar σ) (rounds : Nat) (input : Input) : Course σ Unit := do
  Course.take (.load input)
  workCourse g rounds
  Course.take .handOut

/-! ## Courses end as the actions do -/

/-- A course that ends as an action does, from every world. -/
def Course.Follows (p : Course σ α) (x : Act σ α) : Prop := ∀ w, p.outcome w = x.outcome w

namespace Course.Follows

theorem done (a : α) : (Course.done a : Course σ α).Follows (pure a) := fun _ => rfl

theorem raise (f : Fault) : (Course.raise f : Course σ α).Follows (throw f) := fun _ => rfl

theorem take (s : Step σ) : (Course.take s).Follows s.act := outcome_take s

theorem bind {p : Course σ α} {x : Act σ α} {k : α → Course σ β} {l : α → Act σ β}
    (hp : p.Follows x) (hk : ∀ a, (k a).Follows (l a)) : (p >>= k).Follows (x >>= l) := by
  intro w
  rw [outcome_andThen, outcome_bind, hp w]
  cases hx : x.outcome w with
  | mk r w' =>
      cases r with
      | ok a => exact hk a w'
      | error f => rfl

theorem attempt {p : Course σ α} {x : Act σ α} (hp : p.Follows x) :
    p.attempt.Follows (Act.attempt x) := by
  intro w
  rw [Course.outcome_attempt, Act.outcome_attempt, hp w]

theorem ite {c : Prop} [Decidable c] {p q : Course σ α} {x y : Act σ α} (hp : p.Follows x)
    (hq : q.Follows y) : (if c then p else q).Follows (if c then x else y) := by
  split
  · exact hp
  · exact hq

end Course.Follows

open Course

variable {switch : Int → Act σ Unit} {switchC : Int → Course σ Unit}

theorem follows_recoverCourse (hs : ∀ n, (switchC n).Follows (switch n)) :
    (recoverCourse switchC).Follows (recover switch) :=
  .bind (.take .withdraw) fun taken => .bind (hs 0) fun _ => .take (.resume taken.1 taken.2)

theorem follows_opCourse (hs : ∀ n, (switchC n).Follows (switch n)) (o : Op σ) :
    (opCourse switchC o).Follows (perform switch (fun _ _ => refuseParse) o) := by
  cases o with
  | setStatus n => exact hs n
  | recover => exact follows_recoverCourse hs
  | _ => exact .take _

theorem follows_hookCourse (hs : ∀ n, (switchC n).Follows (switch n)) : ∀ h : Hook σ α,
    (hookCourse switchC h).Follows (h.run (perform switch fun _ _ => refuseParse))
  | .done a => .done a
  | .raise f => .raise f
  | .call o next => .bind (follows_opCourse hs o).attempt fun r => follows_hookCourse hs (next r)

theorem follows_switchCourse (g : Grammar σ) : ∀ (n : Nat) (status : Int),
    (switchCourse g n status).Follows (Engine.switch g (fun _ _ => refuseParse) n status)
  | 0, _ => .raise _
  | n + 1, status => by
      intro w
      rw [switchCourse, outcome_andThen, outcome_take]
      refine Follows.bind (follows_hookCourse (follows_switchCourse g n) _) (fun b => ?_) w
      cases b with
      | true => exact .done _
      | false => exact .raise _

theorem follows_callCourse (g : Grammar σ) (call : HookCall) :
    (callCourse g call).Follows (callHook g (call.hook g)) := by
  intro w
  rw [callCourse, outcome_andThen, outcome_take]
  exact follows_hookCourse (follows_switchCourse g nestingLimit) _ w

theorem follows_needleCourse (g : Grammar σ) (needle : Text) (position : Nat) :
    (needleCourse g needle position).Follows (handleNeedle g needle position) :=
  .bind (.take (.approach position)) fun status =>
    .bind (follows_callCourse g (.handleStatus status needle)) fun _ =>
      .ite (.take (.accept needle)) (.take (.reject needle position))

theorem follows_roundCourse (g : Grammar σ) : (roundCourse g).Follows (round g) := by
  refine .bind (.take .beginRound) fun e => ?_
  dsimp only
  cases Text.findNeedle? e.needles e.text e.cursor with
  | some found => exact .bind (follows_needleCourse g found.1 found.2) fun _ => .done true
  | none =>
      refine .ite (.done false) ?_
      refine .ite (.raise _) ?_
      exact .bind (follows_recoverCourse (follows_switchCourse g nestingLimit)) fun _ => .done true

theorem follows_scanCourse (g : Grammar σ) : ∀ n : Nat, (scanCourse g n).Follows (scan g n)
  | 0 => .raise _
  | n + 1 => .bind (follows_roundCourse g) fun _ => .ite (follows_scanCourse g n) (.take .appendRest)

theorem follows_requireCourse (g : Grammar σ) (name : HookName) (call : HookCall) :
    (requireCourse g name call).Follows (require g name (call.hook g)) := by
  refine .bind (follows_callCourse g call) fun b => ?_
  cases b with
  | true => exact .done _
  | false => exact .raise _

theorem follows_finishCourse (g : Grammar σ) : (finishCourse g).Follows (finish g) := by
  refine .bind (follows_callCourse g .closeRemainingBlocks) fun b => ?_
  cases b with
  | true => exact .done _
  | false => exact .take _

theorem follows_workCourse (g : Grammar σ) (rounds : Nat) :
    (workCourse g rounds).Follows (work g rounds) :=
  .bind (follows_requireCourse g .init .init) fun _ =>
    .bind (follows_scanCourse g rounds) fun _ =>
    .bind (follows_finishCourse g) fun _ =>
    .bind (follows_requireCourse g .modifyTree .modifyTree) fun _ =>
    follows_requireCourse g .outputTree .outputTree

/-- The course of a parse ends as the parse does before it settles its report. -/
theorem follows_buildCourse (g : Grammar σ) (rounds : Nat) (input : Input) :
    (buildCourse g rounds input).Follows (build g rounds input) :=
  .bind (.take (.load input)) fun _ => .bind (follows_workCourse g rounds) fun _ => .take .handOut

end Engine

end Needlework
