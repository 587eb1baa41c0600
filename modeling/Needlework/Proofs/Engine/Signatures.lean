import Needlework.Proofs.Engine.Books

/-!
# Signatures

Every log record tells which component wrote it and under which correlation id.  Every diagnostic
carries a correlation id too.  Inside a parse these are the id of the call, which is the one that the
caller gave or else the engine's own.

There is one exception.  The filters have a logger of their own, which is made with the engine and
never bound to a call.  So the record of a filter that did not return a text carries the engine's
own id (`Signed.filter`), and that is another one when the caller has given one.

The proof goes through the actions of a parse as they are put together.  Each of them adds signed
records to the log, and keeps what the signatures are made of (`Signs`).
-/

namespace Needlework

/-- The component and the correlation id that a record tells of. -/
def Record.signature (r : Record) : Option Value × Option Value :=
  (Fields.find? "component" r.extras, Fields.find? "correlation_id" r.extras)

/-- The signature of a logger. -/
def Logger.signature (l : Logger) : Option Value × Option Value :=
  (some (.text l.component), some (Value.ofText? l.correlation))

/-- A filter that returns nothing but texts. -/
def Filter.Textual (f : Filter) : Prop := ∀ t v, f.run t = .ok v → ∃ u, v = .text u

/-- A report under a correlation id, as all of its diagnostics are. -/
structure Report.Carries (id : Option Text) (r : Report) : Prop where
  correlation : r.correlation = id
  entries : ∀ d ∈ r.entries, d.correlation = id

/-- What is added to a report is under the correlation id of the report. -/
theorem Report.Carries.add {id : Option Text} {r r' : Report} {severity : Severity}
    {message component : Text} {offset details : Value} (carries : r.Carries id)
    (h : r.add severity message component offset details = .ok r') : r'.Carries id := by
  rw [Report.add] at h
  generalize checked : Diagnostic.check _ = result at h
  cases result with
  | error f => cases h
  | ok d =>
      cases h
      refine ⟨carries.correlation, fun d' hd' => ?_⟩
      rcases List.mem_cons.mp hd' with rfl | hd'
      · rw [Diagnostic.eq_of_check checked]
        exact carries.correlation
      · exact carries.entries d' hd'

/-- Every record that filters write is about one of them, which did not return a text. -/
theorem Pipeline.mem_applyAll {l : Logger} {r : Record} {fs : List Filter} {t : Text}
    (written : r ∈ (applyAll l fs t).2) : ∃ f ∈ fs, ∃ t v, f.run t = .ok v ∧ (∀ u, v ≠ .text u)
      ∧ r = skipRecord l f v := by
  induction fs generalizing t with
  | nil => exact absurd written List.not_mem_nil
  | cons f fs ih =>
      have later : ∀ {u}, r ∈ (applyAll l fs u).2 → ∃ f' ∈ f :: fs, ∃ t v, f'.run t = .ok v
          ∧ (∀ u, v ≠ .text u) ∧ r = skipRecord l f' v := fun written => by
        obtain ⟨f', hf', rest⟩ := ih written
        exact ⟨f', List.mem_cons_of_mem f hf', rest⟩
      rw [applyAll] at written
      cases ran : f.run t with
      | error e =>
          rw [ran] at written
          exact absurd written List.not_mem_nil
      | ok v =>
          rw [ran] at written
          cases v with
          | text u => exact later written
          | _ =>
              rcases List.mem_cons.mp written with rfl | written
              · exact ⟨f, List.mem_cons_self, t, _, ran, fun u same => (by cases same), rfl⟩
              · exact later written

namespace Engine

open Act

variable {σ α β : Type} {w w' w'' : World σ}

/-! ## Signed records -/

/-- A record of an engine, or of its filters. -/
inductive Signed (e : Engine) (r : Record) : Prop where
  /-- The engine signs with the correlation id of the call. -/
  | engine : r.signature = e.logger.signature → Signed e r
  /-- The filters sign with the engine's own correlation id. -/
  | filter {k : FilterKind} {f : Filter} {t : Text} {v : Value} : f ∈ e.filters.get k →
      f.run t = .ok v → (∀ u, v ≠ .text u) →
      r = Pipeline.skipRecord (Pipeline.logger e.correlation) f v → Signed e r

/-- Records that are signed with another correlation id than that of the call are from filters that
do not return texts. -/
theorem Signed.correlation {e : Engine} {r : Record} (signed : Signed e r)
    (same : e.callId = e.correlation ∨ ∀ k, ∀ f ∈ e.filters.get k, f.Textual) :
    r.signature.2 = some (Value.ofText? e.callId) := by
  cases signed with
  | engine signature => exact congrArg Prod.snd signature
  | @filter k f t v hf ran other written =>
      rcases same with same | textual
      · rw [written, same]
        rfl
      · obtain ⟨u, text⟩ := textual k f hf t v ran
        exact absurd text (other u)

/-- What comes between two worlds: signed records, and diagnostics under the id of the report. -/
structure Signs (w w' : World σ) : Prop where
  callId : w'.engine.callId = w.engine.callId
  correlation : w'.engine.correlation = w.engine.correlation
  filters : w'.engine.filters = w.engine.filters
  records : ∃ rs, w'.log = rs ++ w.log ∧ ∀ r ∈ rs, Signed w.engine r
  report : ∀ id r, w.engine.report = some r → r.Carries id →
    ∃ r', w'.engine.report = some r' ∧ r'.Carries id

namespace Signs

theorem refl (w : World σ) : Signs w w :=
  ⟨rfl, rfl, rfl, ⟨[], rfl, nofun⟩, fun _ r hr carries => ⟨r, hr, carries⟩⟩

theorem trans (first : Signs w w') (second : Signs w' w'') : Signs w w'' where
  callId := second.callId.trans first.callId
  correlation := second.correlation.trans first.correlation
  filters := second.filters.trans first.filters
  records := by
    obtain ⟨rs, log, signed⟩ := first.records
    obtain ⟨rs', log', signed'⟩ := second.records
    refine ⟨rs' ++ rs, by rw [log', log, List.append_assoc], fun r hr => ?_⟩
    rcases List.mem_append.mp hr with hr | hr
    · cases signed' r hr with
      | engine signature =>
          refine .engine (signature.trans ?_)
          rw [logger, logger, first.callId]
      | filter hf ran other written =>
          rw [first.filters] at hf
          rw [first.correlation] at written
          exact .filter hf ran other written
    · exact signed r hr
  report id r hr carries := by
    obtain ⟨r', hr', carries'⟩ := first.report id r hr carries
    exact second.report id r' hr' carries'

/-- A world with another log. -/
theorem write (rs : List Record) (signed : ∀ r ∈ rs, Signed w.engine r) :
    Signs w { w with log := rs ++ w.log } :=
  ⟨rfl, rfl, rfl, ⟨rs, rfl, signed⟩, fun _ r hr carries => ⟨r, hr, carries⟩⟩

/-- A change of what signatures are not made of. -/
theorem change (callId : w'.engine.callId = w.engine.callId)
    (correlation : w'.engine.correlation = w.engine.correlation)
    (filters : w'.engine.filters = w.engine.filters) (log : w'.log = w.log)
    (report : w'.engine.report = w.engine.report) : Signs w w' :=
  ⟨callId, correlation, filters, ⟨[], log, nofun⟩, fun _ r hr carries => ⟨r, report.trans hr, carries⟩⟩

end Signs

/-! ## Actions -/

/-- An action signs whatever it writes. -/
def Signing (x : Act σ α) : Prop := ∀ w, Signs w (x.outcome w).2

namespace Signing

theorem pure (a : α) : Signing (Pure.pure a : Act σ α) := Signs.refl

theorem throw (f : Fault) : Signing (MonadExcept.throw f : Act σ α) := Signs.refl

theorem bind {x : Act σ α} {k : α → Act σ β} (hx : Signing x) (hk : ∀ a, Signing (k a)) :
    Signing (x >>= k) := by
  intro w
  have first := hx w
  rw [outcome_bind]
  generalize x.outcome w = out at first ⊢
  obtain ⟨ended, v⟩ := out
  cases ended with
  | ok a => exact first.trans (hk a v)
  | error f => exact first

theorem attempt {x : Act σ α} (hx : Signing x) : Signing (Act.attempt x) := by
  intro w
  rw [outcome_attempt]
  exact hx w

theorem engine : Signing (Act.engine : Act σ Engine) := Signs.refl

theorem get : Signing (MonadState.get : Act σ (World σ)) := Signs.refl

theorem ofExcept (x : Except Fault α) : Signing (MonadExcept.ofExcept x : Act σ α) := by
  cases x with
  | ok a => exact .pure a
  | error f => exact .throw f

theorem tree (x : TreeM α) : Signing (Act.tree x : Act σ α) := by
  intro w
  rw [after_tree]
  exact .change rfl rfl rfl rfl rfl

theorem modifyEngine {c : Engine → Engine} (leaves : ∀ e, (c e).callId = e.callId
    ∧ (c e).correlation = e.correlation ∧ (c e).filters = e.filters ∧ (c e).report = e.report) :
    Signing (Act.modifyEngine c : Act σ Unit) := fun w => by
  obtain ⟨callId, correlation, filters, report⟩ := leaves w.engine
  exact .change callId correlation filters rfl report

theorem log (level : Level) (message : Text) (extra : Fields)
    (signed : ∀ l : Logger, (l.record level message extra).signature = l.signature) :
    Signing (Act.log level message extra : Act σ Unit) := fun w =>
  .write (w := w) [w.engine.logger.record level message extra] fun r hr => by
    rw [List.mem_singleton.mp hr]
    exact .engine (signed _)

theorem logFailure (message : Text) (f : Fault) :
    Signing (Act.logFailure message f : Act σ Unit) := fun w =>
  .write (w := w) [w.engine.logger.failureRecord message
    [("exception_type", .text f.kind.name)] (some f.kind.name)] fun r hr => by
    rw [List.mem_singleton.mp hr]
    exact .engine rfl

/-- A change of the report that leaves its id and its diagnostics alone. -/
theorem modifyReport {c : Report → Report} (correlation : ∀ r, (c r).correlation = r.correlation)
    (entries : ∀ r, (c r).entries = r.entries) : Signing (Act.modifyReport c : Act σ Unit) := fun w =>
  { Signs.refl w with
    report := fun id r hr carries => by
      refine ⟨c r, ?_, ?_, fun d hd => ?_⟩
      · show w.engine.report.map c = some (c r)
        rw [hr]
        rfl
      · rw [correlation]
        exact carries.correlation
      · rw [entries] at hd
        exact carries.entries d hd }

theorem diagnose (severity : Severity) (message : Text) (offset details : Value) :
    Signing (Act.diagnose severity message offset details : Act σ Unit) := by
  intro w
  rw [Act.diagnose, outcome_engine]
  cases hr : w.engine.report with
  | none => exact .refl w
  | some r =>
      dsimp only
      split
      · cases added : r.add severity message Engine.component offset details with
        | error f => exact .refl w
        | ok r' =>
            refine { Signs.refl w with report := fun id r₀ hr₀ carries => ⟨r', rfl, ?_⟩ }
            rw [hr] at hr₀
            cases hr₀
            exact carries.add added
      · exact .refl w

end Signing

/-! ## Steps -/

theorem signing_push (n : Arg) : Signing (push n : Act σ Handle) :=
  .bind .engine fun e => by
    cases e.stack with
    | nil => exact .throw _
    | cons top rest =>
        exact .bind (.tree _) fun h => .bind (.modifyEngine fun _ => ⟨rfl, rfl, rfl, rfl⟩)
          fun _ => .pure h

theorem signing_pop : Signing (pop : Act σ Handle) := fun w => by
  rcases pop_cases w with ⟨e, hout⟩ | ⟨top, next, rest, -, hout⟩
  · rw [hout]
    exact .refl w
  · rw [hout]
    exact .change rfl rfl rfl rfl rfl

theorem signing_appendText (t : Text) (offset : Option Int) :
    Signing (appendText t offset : Act σ Unit) := fun w => by
  rw [after_appendText]
  exact .change rfl rfl rfl rfl rfl

theorem signing_appendPoint (offset : Int) : Signing (appendPoint offset : Act σ Unit) :=
  .bind .engine fun e => by
    cases e.text.at? offset with
    | none => exact .throw _
    | some c => exact signing_appendText [c] _

theorem signing_withdraw : Signing (withdraw : Act σ (Handle × Int)) := fun w => by
  rcases withdraw_cases w with ⟨e, hout⟩ | ⟨top, next, rest, p, -, -, ⟨e, f, -, hout⟩ | ⟨c, f, -, hout, -⟩⟩
  · rw [hout]
    exact .refl w
  · rw [hout]
    exact .change rfl rfl rfl rfl rfl
  · rw [hout]
    exact .change rfl rfl rfl rfl rfl

theorem signing_resume (top : Handle) (origin : Int) : Signing (resume top origin : Act σ Unit) :=
  .bind (signing_appendPoint origin) fun _ =>
    .bind (.modifyEngine fun _ => ⟨rfl, rfl, rfl, rfl⟩) fun _ => .bind .get fun _ =>
      .bind (.log _ _ _ fun _ => rfl) fun _ => .diagnose _ _ _ _

theorem signing_closeOpen : Signing (closeOpen : Act σ Bool) :=
  .bind .engine fun e => by
    dsimp only
    split
    · exact .pure true
    split
    · exact .pure false
    exact .bind (.modifyEngine fun _ => ⟨rfl, rfl, rfl, rfl⟩) fun _ =>
      .bind (.diagnose _ _ _ _) fun _ => .pure true

/-- Filters sign as the engine does between parses. -/
theorem signing_applyFilters (k : FilterKind) (t : Text) : Signing (applyFilters k t : Act σ Text) := by
  intro w
  rw [applyFilters, outcome_engine]
  have written := Signs.write (w := w)
    (w.engine.filters.apply (Pipeline.logger w.engine.correlation) k t).2.reverse
    fun r hr => by
      obtain ⟨f, hf, t, v, ran, other, rfl⟩ := Pipeline.mem_applyAll (List.mem_reverse.mp hr)
      exact .filter hf ran other rfl
  dsimp only
  cases (w.engine.filters.apply (Pipeline.logger w.engine.correlation) k t).1 with
  | ok u => exact written
  | error f => exact written

theorem signing_assign (a : Assignment) : Signing (assign a : Act σ Unit) := by
  cases a with
  | newRoot =>
      exact .bind (.tree _) fun _ => .modifyEngine fun _ => ⟨rfl, rfl, rfl, rfl⟩
  | dropTop =>
      refine .bind .engine fun e => ?_
      split
      · exact .throw _
      · exact .modifyEngine fun _ => ⟨rfl, rfl, rfl, rfl⟩
  | _ => exact fun _ => .change rfl rfl rfl rfl rfl

theorem signing_refuseParse : Signing (refuseParse : Act σ Report) :=
  .bind (.log _ _ _ fun _ => rfl) fun _ => .bind .engine fun e => by
    dsimp only
    split
    · exact .ofExcept _
    · exact .pure _

theorem signing_op (o : Op σ) : Signing (Step.act (.op o)) := by
  cases o with
  | push n => exact signing_push n
  | pop => exact signing_pop
  | appendText t offset => exact signing_appendText t offset
  | recover =>
      exact .bind signing_withdraw fun taken => .bind (.pure ()) fun _ =>
        signing_resume taken.1 taken.2
  | closeOpen => exact signing_closeOpen
  | edit e => exact .tree e.run
  | assign a => exact signing_assign a
  | postfilter t => exact signing_applyFilters .post t
  | parse input override => exact signing_refuseParse
  | _ => exact fun w => .change rfl rfl rfl rfl rfl

theorem signing_approach (position : Nat) : Signing (approach position : Act σ Int) :=
  .bind .engine fun _ => .bind (signing_appendText _ _) fun _ =>
    .bind (.modifyEngine fun _ => ⟨rfl, rfl, rfl, rfl⟩) fun _ => .pure _

theorem signing_accept (needle : Text) : Signing (accept needle : Act σ Unit) :=
  .bind .engine fun e => by
    split
    · exact .modifyEngine fun _ => ⟨rfl, rfl, rfl, rfl⟩
    · exact .pure ()

theorem signing_downgrade (needle : Text) : Signing (downgrade needle : Act σ Unit) :=
  .bind .engine fun e => .bind (.log _ _ _ fun _ => rfl) fun _ =>
    .bind (.modifyEngine fun _ => ⟨rfl, rfl, rfl, rfl⟩) fun _ => .bind (.diagnose _ _ _ _) fun _ => by
      cases e.text.at? e.cursor with
      | none => exact .throw _
      | some c =>
          exact .bind (signing_appendText _ _) fun _ => .modifyEngine fun _ => ⟨rfl, rfl, rfl, rfl⟩

theorem signing_reject (needle : Text) (position : Nat) :
    Signing (reject needle position : Act σ Unit) :=
  .bind .engine fun e => by
    dsimp only
    split
    · exact .throw _
    · exact signing_downgrade needle

theorem signing_appendRest : Signing (appendRest : Act σ Unit) :=
  .bind .engine fun e => by
    split
    · exact .bind (signing_appendText _ _) fun _ => .modifyEngine fun _ => ⟨rfl, rfl, rfl, rfl⟩
    · exact .pure ()

theorem signing_discardDetached : Signing (discardDetached : Act σ Unit) :=
  .bind .engine fun _ => .bind (.tree _) fun _ => .modifyEngine fun _ => ⟨rfl, rfl, rfl, rfl⟩

theorem signing_destroyRoot : Signing (destroyRoot : Act σ Unit) :=
  .bind .engine fun e => by
    cases e.root with
    | none => exact .pure ()
    | some r => exact .tree _

theorem signing_destroyTree : Signing (destroyTree : Act σ Unit) :=
  .bind .engine fun e => by
    cases e.root with
    | none => exact .throw _
    | some r => exact .tree _

theorem signing_load (input : Input) : Signing (load input : Act σ Unit) :=
  .bind .engine fun _ => .bind (.ofExcept _) fun _ => .bind (signing_applyFilters .pre _) fun _ =>
    .bind (.modifyEngine fun _ => ⟨rfl, rfl, rfl, rfl⟩) fun _ => .bind signing_discardDetached fun _ =>
    .bind signing_destroyRoot fun _ => .bind (signing_assign .newRoot) fun _ =>
    .bind (.modifyEngine fun _ => ⟨rfl, rfl, rfl, rfl⟩) fun _ => .bind .engine fun _ =>
    .log _ _ _ fun _ => rfl

theorem signing_reportOpen : Signing (reportOpen : Act σ Unit) :=
  .bind .engine fun e => by
    dsimp only
    split
    · exact .throw _
    · exact .throw _

theorem signing_handOut : Signing (handOut : Act σ Unit) := by
  refine .bind .engine fun e => ?_
  split
  · exact .bind (.modifyReport (fun _ => rfl) fun _ => rfl) fun _ =>
      .modifyEngine fun _ => ⟨rfl, rfl, rfl, rfl⟩
  · exact .bind (.modifyReport (fun _ => rfl) fun _ => rfl) fun _ =>
      .bind signing_destroyTree fun _ => .modifyEngine fun _ => ⟨rfl, rfl, rfl, rfl⟩

/-- Every step signs whatever it writes. -/
theorem signing_step (s : Step σ) : Signing s.act := by
  cases s with
  | enter call => exact .pure ()
  | op o => exact signing_op o
  | withdraw => exact signing_withdraw
  | resume top origin => exact signing_resume top origin
  | beginRound => exact .bind (.modifyEngine fun _ => ⟨rfl, rfl, rfl, rfl⟩) fun _ => .engine
  | approach position => exact signing_approach position
  | accept needle => exact signing_accept needle
  | reject needle position => exact signing_reject needle position
  | appendRest => exact signing_appendRest
  | load input => exact signing_load input
  | reportOpen => exact signing_reportOpen
  | handOut => exact signing_handOut

theorem Runs.signs {ms : List (Moment σ)} (runs : Runs w ms w') : Signs w w' := by
  induction runs with
  | nil w => exact .refl w
  | @cons m ms w' rest ih => exact (signing_step m.step m.before).trans ih

theorem signing_build (g : Grammar σ) (rounds : Nat) (input : Input) :
    Signing (build g rounds input) := fun w => by
  rw [← follows_buildCourse]
  exact (runs_moments (buildCourse g rounds input) w).signs

/-! ## Parses -/

theorem signing_fail (f : Fault) : Signing (fail f : Act σ Unit) :=
  .bind .engine fun _ => .bind (.log _ _ _ fun _ => rfl) fun _ =>
    .bind (.modifyReport (fun _ => rfl) fun _ => rfl) fun _ => .diagnose _ _ _ _

theorem signing_settle (ended : Except Fault Unit) : Signing (settle ended : Act σ Unit) := by
  cases ended with
  | ok _ => exact .bind .engine fun _ => .log _ _ _ fun _ => rfl
  | error f =>
      rw [settle]
      split
      · exact .throw f
      split
      · exact signing_fail f
      · exact .bind (.logFailure _ f) fun _ => signing_fail _

theorem signing_settleTeardown (ended : Except Fault Unit) :
    Signing (settleTeardown ended : Act σ Unit) := by
  cases ended with
  | ok _ => exact .pure ()
  | error f =>
      rw [settleTeardown]
      split
      · exact .throw f
      refine .bind (.logFailure _ f) fun _ => .bind .engine fun _ => ?_
      split
      · exact signing_fail _
      · exact .pure ()

theorem signing_tearDown : Signing (tearDown : Act σ Unit) :=
  .bind (.attempt (.bind signing_discardDetached fun _ => signing_destroyRoot)) fun ended =>
    .bind (.attempt (signing_settleTeardown ended)) fun _ =>
    .bind (.modifyEngine fun _ => ⟨rfl, rfl, rfl, rfl⟩) fun _ => .bind (.ofExcept _) fun _ =>
    .modifyEngine fun _ => ⟨rfl, rfl, rfl, rfl⟩

/-- What a parse writes after it has begun is signed, and what it reports carries the id that the
report began with. -/
theorem signs_parse (g : Grammar σ) (rounds : Nat) {input : Input} (override : Option Text)
    (idle : w.engine.parsing = false) (accepted : ∀ x, input ≠ .other x) :
    ∃ v, Signs ((enter override).outcome w).2 v
      ∧ ((parse g rounds input override).outcome w).2.log = v.log
      ∧ ∀ report, ((parse g rounds input override).outcome w).1 = .ok report →
        ∀ id r, v.engine.report = some r → r.Carries id → report.Carries id := by
  have parsed : (parse g rounds input override).outcome w = outcome (do
      let ended ← attempt (build g rounds input)
      let settled ← attempt (settle ended)
      let closed ← attempt tearDown
      let e ← Act.engine
      leave
      ofExcept closed
      ofExcept settled
      let report := e.report.getD {}
      if e.config.collectMetrics.truthy then return { report with metrics := e.metrics }
      return report) ((enter override).outcome w).2 := by
    rw [parse, outcome_engine]
    case x => exact accepted
    rw [idle]
    simp only [Bool.false_eq_true, if_false]
    rfl
  rw [parsed]
  have built := signing_build g rounds input ((enter override).outcome w).2
  rw [outcome_bind, outcome_attempt]
  generalize (build g rounds input).outcome ((enter override).outcome w).2 = out at built ⊢
  obtain ⟨ended, w₁⟩ := out
  have settled := signing_settle ended w₁
  dsimp only
  rw [outcome_bind, outcome_attempt]
  generalize (settle ended).outcome w₁ = out at settled ⊢
  obtain ⟨result, w₂⟩ := out
  have closed := signing_tearDown w₂
  dsimp only
  rw [outcome_bind, outcome_attempt]
  generalize tearDown.outcome w₂ = out at closed ⊢
  obtain ⟨down, v⟩ := out
  refine ⟨v, (built.trans settled).trans closed, ?_⟩
  dsimp only
  rw [outcome_engine, leave, outcome_modifyEngine]
  cases down with
  | error f => exact ⟨rfl, fun _ returned => by cases returned⟩
  | ok _ =>
    cases result with
    | error f => exact ⟨rfl, fun _ returned => by cases returned⟩
    | ok _ =>
      show (outcome (if v.engine.config.collectMetrics.truthy = true then _ else _) _).2.log = v.log
        ∧ ∀ report, (outcome (if v.engine.config.collectMetrics.truthy = true then _ else _) _).1
          = .ok report → _
      split
      · refine ⟨rfl, fun report returned id r hr carries => ?_⟩
        cases returned
        rw [hr]
        exact ⟨carries.correlation, carries.entries⟩
      · refine ⟨rfl, fun report returned id r hr carries => ?_⟩
        cases returned
        rw [hr]
        exact carries

/-- The engine as a parse finds it when it has begun. -/
def called (e : Engine) (override : Option Text) : Engine :=
  { e with callId := e.effectiveId override }

/-- Every record that a parse writes is signed.  If no other id was given than the engine's own, or
every filter returns texts, then all of them carry the id of the call.  So does the report with its
diagnostics, in any case. -/
theorem parse_signed (g : Grammar σ) (rounds : Nat) (input : Input) (override : Option Text)
    (idle : w.engine.parsing = false) :
    ∃ rs, ((parse g rounds input override).outcome w).2.log = rs ++ w.log
      ∧ (∀ r ∈ rs, Signed (w.engine.called override) r)
      ∧ ((w.engine.effectiveId override = w.engine.correlation
          ∨ ∀ k, ∀ f ∈ w.engine.filters.get k, f.Textual) →
        ∀ r ∈ rs, r.signature.2 = some (Value.ofText? (w.engine.effectiveId override)))
      ∧ ∀ report, ((parse g rounds input override).outcome w).1 = .ok report →
        report.Carries (w.engine.effectiveId override) := by
  by_cases accepted : ∀ x, input ≠ .other x
  · obtain ⟨v, signs, log, reports⟩ :=
      signs_parse g rounds override idle accepted
    obtain ⟨rs, written, signed⟩ := signs.records
    have signed : ∀ r ∈ rs, Signed (w.engine.called override) r := fun r hr => by
      cases signed r hr with
      | engine signature => exact .engine signature
      | filter hf ran other written => exact .filter hf ran other written
    obtain ⟨r, hr, carries⟩ := signs.report (w.engine.effectiveId override) _ rfl ⟨rfl, nofun⟩
    refine ⟨rs, log.trans written, signed, fun same r hr => ?_, fun report returned =>
      reports report returned _ r hr carries⟩
    exact (signed r hr).correlation same
  · obtain ⟨x, rfl⟩ : ∃ x, input = .other x := by
      simpa using accepted
    rw [outcome_parse_other g rounds x override idle]
    exact ⟨[], rfl, nofun, fun _ => nofun, nofun⟩

/-- An engine with an id of its own, and with some filters before the scan. -/
def ownStart (filters : List Filter) : World Unit :=
  { engine := { Engine.make {} (some "own") with filters := { pre := filters } }, memory := () }

theorem parse_signed_call : ∃ rs, ((parse (Bold.treeGrammar Unit) 8 (.text Bold.openMark)
      (some "call")).outcome (ownStart [])).2.log = rs ∧ rs.length = 3
    ∧ ∀ r ∈ rs, r.signature.2 = some (.text "call") := by
  have three : ((parse (Bold.treeGrammar Unit) 8 (.text Bold.openMark)
      (some "call")).outcome (ownStart [])).2.log.length = 3 := by decide +kernel
  have call : (ownStart []).engine.effectiveId (some "call") = some (Text.ofString "call") := by
    decide +kernel
  obtain ⟨rs, log, -, called, -⟩ := parse_signed (w := ownStart []) (Bold.treeGrammar Unit) 8
    (.text Bold.openMark) (some "call") rfl
  rw [call] at called
  generalize (parse (Bold.treeGrammar Unit) 8 (.text Bold.openMark)
    (some "call")).outcome (ownStart []) = out at three log ⊢
  have written : out.2.log = rs := log.trans (List.append_nil rs)
  rw [written] at three
  exact ⟨rs, written, three, called (.inr fun k f hf => by cases k <;> cases hf)⟩

/-- A filter that returns a number. -/
def numbering : Filter where
  name := "const"
  run _ := .ok (.int 5)

/-- The record of a filter carries the engine's own id, whatever id the call has. -/
theorem parse_filter_signs_own : ∃ r ∈ ((parse (Grammar.plain Unit) 2 (.text [0x61])
      (some "call")).outcome (ownStart [numbering])).2.log,
    r.signature.2 = some (.text "own") ∧ r.signature.2 ≠ some (.text "call") := by
  obtain ⟨completed, started, r, log, own⟩ : ∃ completed started r,
      ((parse (Grammar.plain Unit) 2 (.text [0x61]) (some "call")).outcome
        (ownStart [numbering])).2.log = [completed, started, r]
      ∧ r.signature.2 = some (.text "own") := ⟨_, _, _, rfl, rfl⟩
  refine ⟨r, by rw [log]; exact .tail _ (.tail _ (.head _)), own, fun call => ?_⟩
  have same : Text.ofString "own" = Text.ofString "call" :=
    Value.text.inj (Option.some.inj (own.symm.trans call))
  exact absurd same (by decide +kernel)

end Engine

end Needlework
