import Needlework.Proofs.Engine.Comparison

/-!
# Leftover marks

A recovery marks the round in which it moves the cursor.  Every round begins without the mark, and
nothing but the end of the same round looks at it.  So a mark that was left behind before a parse
begins is never seen.  The parse goes as it would go without the mark, and at the end the two
engines differ in the mark at most (`heedless_parse`, `hookCalls_marked`).

The proof goes through the actions of a parse as they are put together, but for those that come
after the beginning of a round (`roundCourse_marked`).
-/

namespace Needlework

/-- A world whose engine has the mark of a recovery, or has it not. -/
def World.marked {σ : Type} (b : Bool) (w : World σ) : World σ :=
  w.onEngine fun e => { e with rewound := b }

namespace Engine

open Act

variable {σ α β : Type} {w : World σ}

/-! ## Actions -/

/-- An action does not heed the mark: it ends in the same way, and in the same world but for the
mark. -/
def Heedless (x : Act σ α) : Prop :=
  ∀ w b, ∃ b', x.outcome (w.marked b) = ((x.outcome w).1, (x.outcome w).2.marked b')

namespace Heedless

theorem pure (a : α) : Heedless (Pure.pure a : Act σ α) := fun _ b => ⟨b, rfl⟩

theorem throw (f : Fault) : Heedless (MonadExcept.throw f : Act σ α) := fun _ b => ⟨b, rfl⟩

theorem ofExcept (x : Except Fault α) : Heedless (MonadExcept.ofExcept x : Act σ α) := by
  cases x with
  | ok a => exact .pure a
  | error f => exact .throw f

theorem bind {x : Act σ α} {k : α → Act σ β} (hx : Heedless x) (hk : ∀ a, Heedless (k a)) :
    Heedless (x >>= k) := by
  intro w b
  obtain ⟨b', ends⟩ := hx w b
  rw [outcome_bind, outcome_bind, ends]
  generalize x.outcome w = out
  obtain ⟨ended, v⟩ := out
  cases ended with
  | ok a => exact hk a v b'
  | error f => exact ⟨b', rfl⟩

theorem attempt {x : Act σ α} (hx : Heedless x) : Heedless (Act.attempt x) := by
  intro w b
  obtain ⟨b', ends⟩ := hx w b
  exact ⟨b', by rw [outcome_attempt, outcome_attempt, ends]⟩

theorem ite {c : Prop} [Decidable c] {x y : Act σ α} (hx : Heedless x) (hy : Heedless y) :
    Heedless (if c then x else y) := by
  split
  · exact hx
  · exact hy

/-- To look at the engine is heedless if what follows does not depend on the mark. -/
theorem engine {k : Engine → Act σ α} (same : ∀ e b, k { e with rewound := b } = k e)
    (hk : ∀ e, Heedless (k e)) : Heedless (Act.engine >>= k) := by
  intro w b
  obtain ⟨b', ends⟩ := hk w.engine w b
  refine ⟨b', ?_⟩
  rw [outcome_engine, outcome_engine]
  exact (congrArg (fun x => outcome x (w.marked b)) (same w.engine b)).trans ends

theorem get {k : World σ → Act σ α} (same : ∀ w b, k (w.marked b) = k w)
    (hk : ∀ w, Heedless (k w)) : Heedless (MonadState.get >>= k) := by
  intro w b
  obtain ⟨b', ends⟩ := hk w w b
  refine ⟨b', ?_⟩
  rw [outcome_get, outcome_get, same]
  exact ends

theorem tree (x : TreeM α) : Heedless (Act.tree x : Act σ α) := by
  intro w b
  refine ⟨b, ?_⟩
  have same : (w.marked b).forest = w.forest := rfl
  rw [outcome_tree, outcome_tree, same]
  cases x.run w.forest <;> rfl

/-- A change of the engine is heedless if it does not depend on the mark.  It may set it. -/
theorem modifyEngine {c : Engine → Engine}
    (same : ∀ e b, ∃ b', c { e with rewound := b } = { c e with rewound := b' }) :
    Heedless (Act.modifyEngine c : Act σ Unit) := by
  intro w b
  obtain ⟨b', changed⟩ := same w.engine b
  exact ⟨b', congrArg (fun e => (Except.ok (), { w with engine := e })) changed⟩

theorem log (level : Level) (message : Text) (extra : Fields) :
    Heedless (Act.log level message extra : Act σ Unit) := fun _ b => ⟨b, rfl⟩

theorem logFailure (message : Text) (f : Fault) :
    Heedless (Act.logFailure message f : Act σ Unit) := fun _ b => ⟨b, rfl⟩

theorem modifyReport (c : Report → Report) : Heedless (Act.modifyReport c : Act σ Unit) :=
  .modifyEngine fun _ b => ⟨b, rfl⟩

theorem diagnose (severity : Severity) (message : Text) (offset details : Value) :
    Heedless (Act.diagnose severity message offset details : Act σ Unit) :=
  .engine (fun _ _ => rfl) fun e => by
    cases e.report with
    | none => exact .pure ()
    | some r =>
        refine .ite (.bind (.ofExcept _) fun _ => ?_) (.pure ())
        exact .modifyEngine fun _ b => ⟨b, rfl⟩

end Heedless

/-! ## Operations -/

theorem heedless_push (n : Arg) : Heedless (push n : Act σ Handle) :=
  .engine (fun _ _ => rfl) fun e => by
    cases e.stack with
    | nil => exact .throw _
    | cons top rest =>
        exact .bind (.tree _) fun h => .bind (.modifyEngine fun _ b => ⟨b, rfl⟩) fun _ => .pure h

theorem heedless_pop : Heedless (pop : Act σ Handle) :=
  .engine (fun _ _ => rfl) fun e => by
    rcases e.stack with _ | ⟨top, _ | ⟨next, rest⟩⟩
    · exact .throw _
    · exact .throw _
    · exact .bind (.modifyEngine fun _ b => ⟨b, rfl⟩) fun _ => .pure top

theorem heedless_appendText (t : Text) (offset : Option Int) :
    Heedless (appendText t offset : Act σ Unit) := by
  refine .ite (.pure ()) (.engine (fun _ _ => rfl) fun e => ?_)
  cases e.stack with
  | nil => exact .throw _
  | cons top rest => exact .tree _

theorem heedless_withdraw : Heedless (withdraw : Act σ (Handle × Int)) :=
  .engine (fun _ _ => rfl) fun e => by
    rcases e.stack with _ | ⟨top, _ | ⟨next, rest⟩⟩
    · exact .throw _
    · exact .throw _
    refine .ite (.throw _) (.get (fun _ _ => rfl) fun u => ?_)
    dsimp only
    cases u.forest.parent top with
    | none => exact .throw _
    | some p =>
        refine .bind (.bind (.tree _) fun _ => .modifyEngine fun _ b => ⟨b, rfl⟩) fun _ => ?_
        refine .bind (.get (fun _ _ => rfl) fun u => ?_) fun o => .pure (top, o)
        dsimp only
        cases (u.forest.node top).origin with
        | none => exact .throw _
        | some o => exact .engine (fun _ _ => rfl) fun e => .ite (.throw _) (.pure o)

/-- The second half of a recovery sets the mark anyway. -/
theorem heedless_resume (top : Handle) (origin : Int) :
    Heedless (resume top origin : Act σ Unit) := by
  refine .bind (.engine (fun _ _ => rfl) fun e => ?_) fun _ =>
    .bind (.modifyEngine fun _ _ => ⟨true, rfl⟩) fun _ => .get (fun _ _ => rfl) fun _ =>
      .bind (.log _ _ _) fun _ => .diagnose _ _ _ _
  cases e.text.at? origin with
  | none => exact .throw _
  | some c => exact heedless_appendText [c] _

theorem heedless_closeOpen : Heedless (closeOpen : Act σ Bool) :=
  .engine (fun _ _ => rfl) fun _ =>
    .ite (.pure true) <| .ite (.pure false) <| .bind (.modifyEngine fun _ b => ⟨b, rfl⟩) fun _ =>
      .bind (.diagnose _ _ _ _) fun _ => .pure true

theorem heedless_applyFilters (k : FilterKind) (t : Text) :
    Heedless (applyFilters k t : Act σ Text) :=
  .engine (fun _ _ => rfl) fun _ => .bind (fun _ b => ⟨b, rfl⟩) fun _ => .ofExcept _

theorem heedless_assign (a : Assignment) : Heedless (assign a : Act σ Unit) := by
  cases a with
  | newRoot => exact .bind (.tree _) fun _ => .modifyEngine fun _ b => ⟨b, rfl⟩
  | dropTop =>
      exact .engine (fun _ _ => rfl) fun e => .ite (.throw _) (.modifyEngine fun _ b => ⟨b, rfl⟩)
  | _ => exact fun _ b => ⟨b, rfl⟩

theorem heedless_refuseParse : Heedless (refuseParse : Act σ Report) :=
  .bind (.log _ _ _) fun _ => .engine (fun _ _ => rfl) fun _ => .ite (.ofExcept _) (.pure _)

theorem heedless_op {o : Op σ} (plain : IsPlain o) : Heedless (Step.act (.op o)) := by
  cases o with
  | setStatus n => exact plain.elim
  | push n => exact heedless_push n
  | pop => exact heedless_pop
  | appendText t offset => exact heedless_appendText t offset
  | recover => exact plain.elim
  | closeOpen => exact heedless_closeOpen
  | edit e => exact .tree e.run
  | assign a => exact heedless_assign a
  | postfilter t => exact heedless_applyFilters .post t
  | parse input override => exact heedless_refuseParse
  | _ => exact fun _ b => ⟨b, rfl⟩

/-! ## Courses -/

/-- A course does not heed the mark: it ends as heedless actions do, and calls the same hooks. -/
def Course.Heedless (p : Course σ α) : Prop :=
  ∀ w b, (∃ b', p.outcome (w.marked b) = ((p.outcome w).1, (p.outcome w).2.marked b'))
    ∧ p.calls (w.marked b) = p.calls w

namespace Course.Heedless

theorem done (a : α) : (Course.done a : Course σ α).Heedless := fun _ b => ⟨⟨b, rfl⟩, rfl⟩

theorem raise (f : Fault) : (Course.raise f : Course σ α).Heedless := fun _ b => ⟨⟨b, rfl⟩, rfl⟩

theorem take {s : Step σ} (hs : Engine.Heedless s.act) : (Course.take s).Heedless := by
  intro w b
  rw [outcome_take, outcome_take, calls_take, calls_take]
  exact ⟨hs w b, rfl⟩

theorem bind {p : Course σ α} {k : α → Course σ β} (hp : p.Heedless)
    (hk : ∀ a, (k a).Heedless) : (p >>= k).Heedless := by
  intro w b
  obtain ⟨⟨b', ends⟩, calls⟩ := hp w b
  rw [outcome_andThen, outcome_andThen, calls_andThen, calls_andThen, ends, calls]
  generalize p.outcome w = out
  obtain ⟨ended, v⟩ := out
  cases ended with
  | ok a => exact ⟨(hk a v b').1, congrArg (p.calls w ++ ·) (hk a v b').2⟩
  | error f => exact ⟨⟨b', rfl⟩, rfl⟩

theorem attempt {p : Course σ α} (hp : p.Heedless) : p.attempt.Heedless := by
  intro w b
  obtain ⟨⟨b', ends⟩, calls⟩ := hp w b
  rw [calls_attempt, calls_attempt, outcome_attempt, outcome_attempt, ends]
  exact ⟨⟨b', rfl⟩, calls⟩

theorem ite {c : Prop} [Decidable c] {p q : Course σ α} (hp : p.Heedless) (hq : q.Heedless) :
    (if c then p else q).Heedless := by
  split
  · exact hp
  · exact hq

end Course.Heedless

theorem heedless_opCourse {switch : Int → Course σ Unit} (hs : ∀ n, (switch n).Heedless) (o : Op σ) :
    (opCourse switch o).Heedless := by
  cases o with
  | setStatus n => exact hs n
  | recover =>
      exact .bind (.take heedless_withdraw) fun taken => .bind (hs 0) fun _ =>
        .take (heedless_resume taken.1 taken.2)
  | _ => exact .take (heedless_op trivial)

theorem heedless_hookCourse {switch : Int → Course σ Unit} (hs : ∀ n, (switch n).Heedless) :
    ∀ h : Hook σ α, (hookCourse switch h).Heedless
  | .done a => .done a
  | .raise f => .raise f
  | .call o next =>
      .bind (heedless_opCourse hs o).attempt fun r => heedless_hookCourse hs (next r)

theorem heedless_enter (call : HookCall) : (Course.take (.enter call) : Course σ Unit).Heedless :=
  .take (.pure ())

theorem heedless_switchCourse (g : Grammar σ) : ∀ n status, (switchCourse g n status).Heedless
  | 0, _ => .raise _
  | n + 1, _ => .bind (heedless_enter _) fun _ =>
      .bind (heedless_hookCourse (heedless_switchCourse g n) _) fun _ => .ite (.done ()) (.raise _)

theorem heedless_callCourse (g : Grammar σ) (call : HookCall) : (callCourse g call).Heedless :=
  .bind (heedless_enter call) fun _ => heedless_hookCourse (heedless_switchCourse g nestingLimit) _

/-- A round takes the mark away before it does anything else. -/
theorem roundCourse_marked (g : Grammar σ) (w : World σ) (b : Bool) :
    (roundCourse g).outcome (w.marked b) = (roundCourse g).outcome w
      ∧ (roundCourse g).calls (w.marked b) = (roundCourse g).calls w := by
  rw [roundCourse, Course.outcome_andThen, Course.outcome_andThen, Course.calls_andThen,
    Course.calls_andThen, Course.outcome_take, Course.outcome_take, Course.calls_take,
    Course.calls_take]
  exact ⟨rfl, rfl⟩

theorem heedless_roundCourse (g : Grammar σ) : (roundCourse g).Heedless := fun w b => by
  obtain ⟨ends, calls⟩ := roundCourse_marked g w b
  exact ⟨⟨((roundCourse g).outcome w).2.engine.rewound, ends⟩, calls⟩

theorem heedless_scanCourse (g : Grammar σ) : ∀ n, (scanCourse g n).Heedless
  | 0 => .raise _
  | n + 1 => by
      refine .bind (heedless_roundCourse g) fun _ => .ite (heedless_scanCourse g n) (.take ?_)
      refine .engine (fun _ _ => rfl) fun e => .ite (.bind (heedless_appendText _ _) fun _ => ?_)
        (.pure ())
      exact .modifyEngine fun _ b => ⟨b, rfl⟩

theorem heedless_requireCourse (g : Grammar σ) (name : HookName) (call : HookCall) :
    (requireCourse g name call).Heedless :=
  .bind (heedless_callCourse g call) fun _ => .ite (.done ()) (.raise _)

theorem heedless_finishCourse (g : Grammar σ) : (finishCourse g).Heedless :=
  .bind (heedless_callCourse g _) fun _ => .ite (.done ()) <| .take <|
    .engine (fun _ _ => rfl) fun _ => .ite (.throw _) (.throw _)

theorem heedless_discardDetached : Heedless (discardDetached : Act σ Unit) :=
  .engine (fun _ _ => rfl) fun _ => .bind (.tree _) fun _ => .modifyEngine fun _ b => ⟨b, rfl⟩

theorem heedless_destroyRoot : Heedless (destroyRoot : Act σ Unit) :=
  .engine (fun _ _ => rfl) fun e => by
    cases e.root with
    | none => exact .pure ()
    | some r => exact .tree _

theorem heedless_destroyTree : Heedless (destroyTree : Act σ Unit) :=
  .engine (fun _ _ => rfl) fun e => by
    cases e.root with
    | none => exact .throw _
    | some r => exact .tree _

theorem heedless_load (input : Input) : Heedless (load input : Act σ Unit) :=
  .engine (fun _ _ => rfl) fun _ => .bind (.ofExcept _) fun _ =>
    .bind (heedless_applyFilters .pre _) fun _ => .bind (.modifyEngine fun _ b => ⟨b, rfl⟩) fun _ =>
    .bind heedless_discardDetached fun _ => .bind heedless_destroyRoot fun _ =>
    .bind (heedless_assign .newRoot) fun _ => .bind (.modifyEngine fun _ b => ⟨b, rfl⟩) fun _ =>
    .engine (fun _ _ => rfl) fun _ => .log _ _ _

theorem heedless_handOut : Heedless (handOut : Act σ Unit) := by
  have close : Heedless (Act.modifyEngine fun e => { e with root := none, stack := [] } : Act σ Unit) :=
    .modifyEngine fun _ b => ⟨b, rfl⟩
  exact .engine (fun _ _ => rfl) fun _ => .ite (.bind (.modifyReport _) fun _ => close) <|
    .bind (.modifyReport _) fun _ => .bind heedless_destroyTree fun _ => close

theorem heedless_buildCourse (g : Grammar σ) (rounds : Nat) (input : Input) :
    (buildCourse g rounds input).Heedless :=
  .bind (.take (heedless_load input)) fun _ =>
    .bind (.bind (heedless_requireCourse g _ _) fun _ => .bind (heedless_scanCourse g rounds) fun _ =>
      .bind (heedless_finishCourse g) fun _ => .bind (heedless_requireCourse g _ _) fun _ =>
      heedless_requireCourse g _ _) fun _ => .take heedless_handOut

/-! ## Parses -/

theorem heedless_build (g : Grammar σ) (rounds : Nat) (input : Input) :
    Heedless (build g rounds input) := fun w b => by
  rw [← follows_buildCourse, ← follows_buildCourse]
  exact (heedless_buildCourse g rounds input w b).1

theorem heedless_fail (f : Fault) : Heedless (fail f : Act σ Unit) :=
  .engine (fun _ _ => rfl) fun _ => .bind (.log _ _ _) fun _ => .bind (.modifyReport _) fun _ =>
    .diagnose _ _ _ _

theorem heedless_settle (ended : Except Fault Unit) : Heedless (settle ended : Act σ Unit) := by
  cases ended with
  | ok _ => exact .engine (fun _ _ => rfl) fun _ => .log _ _ _
  | error f =>
      exact .ite (.throw f) <| .ite (heedless_fail f) <| .bind (.logFailure _ f) fun _ =>
        heedless_fail _

theorem heedless_settleTeardown (ended : Except Fault Unit) :
    Heedless (settleTeardown ended : Act σ Unit) := by
  cases ended with
  | ok _ => exact .pure ()
  | error f =>
      exact .ite (.throw f) <| .bind (.logFailure _ f) fun _ => .engine (fun _ _ => rfl) fun _ =>
        .ite (heedless_fail _) (.pure ())

theorem heedless_tearDown : Heedless (tearDown : Act σ Unit) :=
  .bind (.attempt (.bind heedless_discardDetached fun _ => heedless_destroyRoot)) fun ended =>
    .bind (.attempt (heedless_settleTeardown ended)) fun _ =>
    .bind (.modifyEngine fun _ b => ⟨b, rfl⟩) fun _ => .bind (.ofExcept _) fun _ =>
    .modifyEngine fun _ _ => ⟨false, rfl⟩

/-- A parse does not heed a mark that was left behind. -/
theorem heedless_parse (g : Grammar σ) (rounds : Nat) (input : Input) (override : Option Text) :
    Heedless (parse g rounds input override) := by
  refine .engine (fun _ _ => rfl) fun _ => .ite heedless_refuseParse ?_
  have begun : Heedless (do
      enter override
      let ended ← Act.attempt (build g rounds input)
      let settled ← Act.attempt (settle ended)
      let closed ← Act.attempt tearDown
      let e ← Act.engine
      leave
      MonadExcept.ofExcept closed
      MonadExcept.ofExcept settled
      let report := e.report.getD {}
      if e.config.collectMetrics.truthy then return { report with metrics := e.metrics }
      return report : Act σ Report) :=
    .bind (.modifyEngine fun _ b => ⟨b, rfl⟩) fun _ =>
      .bind (.attempt (heedless_build g rounds input)) fun ended =>
      .bind (.attempt (heedless_settle ended)) fun _ => .bind (.attempt heedless_tearDown) fun _ =>
      .engine (fun _ _ => rfl) fun _ => .bind (.modifyEngine fun _ b => ⟨b, rfl⟩) fun _ =>
      .bind (.ofExcept _) fun _ => .bind (.ofExcept _) fun _ => .ite (.pure _) (.pure _)
  cases input with
  | other v => exact .throw _
  | text t => exact begun
  | bytes bs => exact begun

theorem hookCalls_marked (g : Grammar σ) (rounds : Nat) (input : Input) (override : Option Text)
    (w : World σ) (b : Bool) :
    hookCalls g rounds input override (w.marked b) = hookCalls g rounds input override w :=
  (heedless_buildCourse g rounds input ((enter override).outcome w).2 b).2

end Engine

end Needlework
