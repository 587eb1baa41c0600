import Needlework.Proofs.Engine.Verdicts

/-!
# How a parse settles

When the building has ended, well or not, the rest of a parse is settled by four things:
how the building ended, the report so far, the settings of the engine, and how it goes to
take down what is not handed out (`outcome_parse`).

*Faults of the building* are reported as they are or wrapped, but for those that leave a
parse.  With diagnostics on, a parse fault without a wording cannot be reported, since a
diagnostic needs a message (`settledBy`).

*Faults of the teardown* are reported if nothing else is.  Their wording is never empty, so
that a teardown never fails to be reported.  Only a fault that leaves a parse leaves the teardown
as well, and then the engine keeps its open nodes and its output (`outcome_tearDown`).
-/

namespace Needlework

variable {σ α : Type} {w w' : World σ}

namespace Report

/-- A report of a failure, without a diagnostic. -/
def failed (r : Report) (f : Fault) : Report :=
  { r with success := false, error := some f, tree := none, output := .null }

/-- The diagnostic of a failure. -/
def failure (r : Report) (f : Fault) : Diagnostic :=
  { severity := .error, message := f.message, component := Engine.component
    details := .object (Fields.putAll [("error_type", .text f.kind.name)] f.details)
    correlation := r.correlation }

/-- A report of a failure, with its diagnostic if these are on. -/
def blamed (on : Bool) (r : Report) (f : Fault) : Report :=
  if on then { r.failed f with entries := r.failure f :: r.entries } else r.failed f

theorem success_blamed (r : Report) (on : Bool) (f : Fault) : (r.blamed on f).success = false := by
  cases on <;> rfl

theorem tree_blamed (r : Report) (on : Bool) (f : Fault) : (r.blamed on f).tree = none := by
  cases on <;> rfl

theorem metrics_blamed (r : Report) (on : Bool) (f : Fault) :
    (r.blamed on f).metrics = r.metrics := by
  cases on <;> rfl

end Report

namespace Engine

open Act

/-- Whether diagnostics are on. -/
def diagnosing (e : Engine) : Bool := e.config.enableDiagnostics.truthy

/-- A world with another report and another log. -/
def noting (w : World σ) (r : Report) (l : List Record) : World σ :=
  { w with log := l, engine := { w.engine with report := some r } }

theorem noting_of_report {r : Report} (hr : w.engine.report = some r) (l : List Record) :
    noting w r l = { w with log := l } := by
  rw [noting, ← hr]

/-! ## Failures -/

theorem outcome_diagnose {r : Report} (hr : w.engine.report = some r) (severity : Severity)
    (message : Text) (details : Value) :
    (diagnose severity message .null details).outcome w
      = if w.engine.diagnosing then
          if message.isEmpty then (.error (.diagnostic .noMessage), w)
          else (.ok (), w.onEngine fun e => { e with report := some { r with
            entries := { severity, message, component, details, correlation := r.correlation }
              :: r.entries } })
        else (.ok (), w) := by
  rw [diagnose, outcome_engine, hr, diagnosing]
  dsimp only
  split
  · cases message with
    | nil => rfl
    | cons c m => rfl
  · rfl

/-- A failure is reported, unless it has no wording and needs one. -/
theorem outcome_fail {r : Report} (hr : w.engine.report = some r) (f : Fault) :
    ∃ l, (fail f).outcome w
      = if w.engine.diagnosing && f.message.isEmpty then
          (.error (.diagnostic .noMessage), noting w (r.failed f) l)
        else (.ok (), noting w (r.blamed w.engine.diagnosing f) l) := by
  have written : ∀ l, ({ w with log := l } : World σ).onEngine (fun e => { e with
      report := e.report.map fun r =>
        { r with success := false, error := some f, tree := none, output := .null } })
      = noting w (r.failed f) l := fun l => by
    simp only [World.onEngine, hr]
    rfl
  refine ⟨w.engine.logger.record .warning "Parse failed" [("parser_name", w.engine.config.name),
    ("error_type", .text f.kind.name), ("error", .text f.message)] :: w.log, ?_⟩
  rw [fail, outcome_engine, outcome_log, modifyReport, outcome_modifyEngine, written,
    outcome_diagnose (r := r.failed f) rfl, Report.blamed]
  show (if w.engine.diagnosing then _ else _) = _
  cases w.engine.diagnosing with
  | false => rfl
  | true =>
      cases f.message.isEmpty with
      | true => rfl
      | false => rfl

/-! ## The end of the building -/

/-- What is reported of a fault that ends the building. -/
def ruling (f : Fault) : Fault := if f.isParseFault then f else .unexpected f

/-- How the report is settled by the end of the building. -/
def settledBy (on : Bool) (r : Report) : Except Fault Unit → Except Fault Unit × Report
  | .ok _ => (.ok (), r)
  | .error f =>
      if f.passesThrough then (.error f, r)
      else if on && (ruling f).message.isEmpty then
        (.error (.diagnostic .noMessage), r.failed (ruling f))
      else (.ok (), r.blamed on (ruling f))

theorem tree_settledBy {on : Bool} {r : Report} {ended : Except Fault Unit} {h : Handle}
    (tree : (settledBy on r ended).2.tree = some h) : r.tree = some h := by
  cases ended with
  | ok _ => exact tree
  | error f =>
      rw [settledBy] at tree
      split at tree
      · exact tree
      split at tree
      · cases tree
      · rw [Report.tree_blamed] at tree
        cases tree

theorem metrics_settledBy (on : Bool) (r : Report) (ended : Except Fault Unit) :
    (settledBy on r ended).2.metrics = r.metrics := by
  cases ended with
  | ok _ => rfl
  | error f =>
      rw [settledBy]
      split
      · rfl
      split
      · rfl
      · exact r.metrics_blamed on _

theorem outcome_settle {r : Report} (hr : w.engine.report = some r) (ended : Except Fault Unit) :
    ∃ l, (settle ended).outcome w = ((settledBy w.engine.diagnosing r ended).1,
      noting w (settledBy w.engine.diagnosing r ended).2 l) := by
  cases ended with
  | ok u =>
      refine ⟨((settle (.ok u)).outcome w).2.log, ?_⟩
      rw [settledBy, noting_of_report hr]
      rfl
  | error f =>
      rw [settle, settledBy]
      by_cases passes : f.passesThrough = true
      · rw [if_pos passes, if_pos passes]
        exact ⟨w.log, by rw [noting_of_report hr]; rfl⟩
      rw [if_neg passes, if_neg passes]
      by_cases isParse : f.isParseFault = true
      · rw [if_pos isParse, ruling, if_pos isParse]
        obtain ⟨l, h⟩ := outcome_fail hr f
        refine ⟨l, h.trans ?_⟩
        split
        · rfl
        · rfl
      · rw [if_neg isParse, ruling, if_neg isParse]
        obtain ⟨l, h⟩ := outcome_fail (w := ((logFailure
          "Parse aborted by unexpected exception" f).outcome w).2) hr (.unexpected f)
        change _ = if (w.engine.diagnosing && _) = true then (_, noting w _ l) else (_, noting w _ l)
          at h
        refine ⟨l, h.trans ?_⟩
        split
        · rfl
        · rfl

/-! ## Taking down -/

/-- Destroy what a parse does not hand out. -/
def clearing (e : Engine) : TreeM Unit := do
  discardAll e.detached.reverse
  match e.root with
  | none => return ()
  | some r => Forest.destroy r

/-- What leaves a teardown that ended so. -/
def escaping : Except Fault Unit → Except Fault Unit
  | .ok _ => .ok ()
  | .error f => if f.passesThrough then .error f else .ok ()

/-- Whether a teardown that ended so was interrupted. -/
def interrupted : Except Fault Unit → Bool
  | .ok _ => false
  | .error f => f.passesThrough

theorem exists_escaping {down : Except Fault Unit} (h : interrupted down = true) :
    ∃ f, down = .error f ∧ escaping down = .error f := by
  cases down with
  | ok _ => cases h
  | error f => exact ⟨f, rfl, if_pos h⟩

theorem escaping_of_not_interrupted {down : Except Fault Unit} (h : interrupted down = false) :
    escaping down = .ok () := by
  cases down with
  | ok _ => rfl
  | error f => exact if_neg (Bool.eq_false_iff.mp h)

/-- The report after a teardown that ended so. -/
def clearedBy (on : Bool) (r : Report) : Except Fault Unit → Report
  | .ok _ => r
  | .error f => if r.success then r.blamed on (.teardownFailed f) else r

theorem tree_clearedBy {on : Bool} {r : Report} {ended : Except Fault Unit} {h : Handle}
    (tree : (clearedBy on r ended).tree = some h) : r.tree = some h := by
  cases ended with
  | ok _ => exact tree
  | error f =>
      rw [clearedBy] at tree
      split at tree
      · rw [Report.tree_blamed] at tree
        cases tree
      · exact tree

theorem metrics_clearedBy (on : Bool) (r : Report) (ended : Except Fault Unit) :
    (clearedBy on r ended).metrics = r.metrics := by
  cases ended with
  | ok _ => rfl
  | error f =>
      rw [clearedBy]
      split
      · exact r.metrics_blamed on _
      · rfl

/-- A teardown never hides an earlier fault. -/
theorem clearedBy_blamed (on : Bool) (r : Report) (f : Fault) (ended : Except Fault Unit) :
    clearedBy on (r.blamed on f) ended = r.blamed on f := by
  cases ended with
  | ok _ => rfl
  | error e =>
      rw [clearedBy, Report.success_blamed]
      rfl

/-- How the teardown of an engine's nodes ends, and the forest that it leaves. -/
def cleared (w : World σ) : Except Fault Unit × Forest :=
  match w.engine.clearing.run w.forest with
  | .ok _ f => (.ok (), f)
  | .error e f => (.error e, f)

theorem outcome_clearing (w : World σ) : ∃ hs,
    (do discardDetached; destroyRoot : Act σ Unit).outcome w = ((cleared w).1,
      (w.withForest (cleared w).2).onEngine fun e => { e with detached := hs }) := by
  rw [cleared, clearing, outcome_bind, discardDetached, outcome_engine, outcome_bind,
    outcome_tree, EStateM.run_bind]
  cases (discardAll w.engine.detached.reverse).run w.forest with
  | error f forest => exact ⟨w.engine.detached, rfl⟩
  | ok u forest =>
      refine ⟨[], ?_⟩
      dsimp only
      rw [destroyRoot]
      show outcome (match w.engine.root with | none => _ | some r => _) _ = _
      cases w.engine.root with
      | none => rfl
      | some r =>
          dsimp only
          rw [outcome_tree]
          dsimp only [World.withForest]
          cases (Forest.destroy r).run forest <;> rfl

theorem isEmpty_ofString {s : String} (h : s ≠ "") : (Text.ofString s).isEmpty = false := by
  rw [Text.ofString, List.isEmpty_eq_false_iff]
  intro none
  exact h (String.toList_eq_nil_iff.mp (List.map_eq_nil_iff.mp none))

theorem isEmpty_cat {t : Text} (h : t.isEmpty = false) (ts : List Text) :
    (Text.cat (t :: ts)).isEmpty = false := by
  cases t with
  | nil => cases h
  | cons c t => rfl

theorem isEmpty_message_teardownFailed (f : Fault) :
    (Fault.teardownFailed f).message.isEmpty = false := isEmpty_cat (isEmpty_ofString (by decide)) _

/-- A failed teardown never fails to be reported, since its wording is not empty. -/
theorem outcome_settleTeardown {r : Report} (hr : w.engine.report = some r) {f : Fault}
    (stays : f.passesThrough = false) : ∃ l, (settleTeardown (.error f)).outcome w
      = (.ok (), noting w (clearedBy w.engine.diagnosing r (.error f)) l) := by
  rw [settleTeardown, clearedBy, stays, if_neg Bool.false_ne_true]
  obtain ⟨l₀, logged⟩ : ∃ l₀, (logFailure "Tree teardown failed" f).outcome w
      = (.ok (), ({ w with log := l₀ } : World σ)) := ⟨_, rfl⟩
  rw [outcome_bind, logged]
  dsimp only
  rw [outcome_engine]
  dsimp only
  rw [hr, Option.map_some, Option.getD_some]
  cases r.success with
  | false =>
      refine ⟨l₀, ?_⟩
      show (Except.ok (), _) = (Except.ok (), noting w r l₀)
      rw [noting_of_report hr]
  | true =>
      obtain ⟨l, h⟩ := outcome_fail (w := { w with log := l₀ }) hr (.teardownFailed f)
      rw [isEmpty_message_teardownFailed, Bool.and_false] at h
      exact ⟨l, h⟩

/-- An engine whose nodes were taken down so.  What was put aside is gone, and so is the root, but
an interrupt keeps the rest. -/
def cleaned (e : Engine) (down : Except Fault Unit) : Engine :=
  let kept := interrupted down
  { e with
    detached := [], root := none
    stack := if kept then e.stack else []
    output := if kept then e.output else .null
    rewound := kept && e.rewound }

/-- A teardown is reported, unless it is interrupted.  There is no root afterwards and nothing is put
aside. -/
theorem outcome_tearDown {r : Report} (hr : w.engine.report = some r) :
    ∃ l r', tearDown.outcome w = (escaping (cleared w).1,
      { w with
        forest := (cleared w).2, log := l
        engine := { w.engine.cleaned (cleared w).1 with report := some r' } })
      ∧ (interrupted (cleared w).1 = false → r' = clearedBy w.engine.diagnosing r (cleared w).1) := by
  obtain ⟨hs, down⟩ := outcome_clearing w
  rw [tearDown, outcome_bind, outcome_attempt, down]
  dsimp only
  rw [outcome_bind, outcome_attempt]
  generalize (cleared w).1 = ended
  cases ended with
  | ok u =>
      refine ⟨w.log, r, ?_, fun _ => rfl⟩
      rw [← hr]
      rfl
  | error f =>
      cases passes : f.passesThrough with
      | false =>
          obtain ⟨l, settled⟩ := outcome_settleTeardown
            (w := (w.withForest (cleared w).2).onEngine fun e => { e with detached := hs }) hr passes
          refine ⟨l, clearedBy w.engine.diagnosing r (.error f), ?_, fun _ => rfl⟩
          rw [settled, escaping, cleaned, interrupted, passes]
          rfl
      | true =>
          refine ⟨w.log, r, ?_, fun stays => ?_⟩
          · rw [settleTeardown, if_pos passes, escaping, if_pos passes, cleaned, interrupted, passes,
              ← hr]
            rfl
          · rw [interrupted, passes] at stays
            cases stays

/-! ## A parse -/

/-- The report that a parse hands out, with its counters if these are collected. -/
def counted (e : Engine) (r : Report) : Report :=
  if e.config.collectMetrics.truthy then { r with metrics := e.metrics } else r

theorem success_counted (e : Engine) (r : Report) : (e.counted r).success = r.success := by
  rw [counted]
  split
  · rfl
  · rfl

/-- What a parse returns or raises when the building and the teardown have ended so. -/
def concluded (e : Engine) (r : Report) (ended down : Except Fault Unit) : Except Fault Report :=
  let settled := settledBy e.diagnosing r ended
  match escaping down with
  | .error f => .error f
  | .ok _ => settled.1.map fun _ => e.counted (clearedBy e.diagnosing settled.2 down)

theorem concluded_of_not_interrupted {e : Engine} {r : Report} {ended down : Except Fault Unit}
    (stays : interrupted down = false) : concluded e r ended down
      = (settledBy e.diagnosing r ended).1.map fun _ =>
          e.counted (clearedBy e.diagnosing (settledBy e.diagnosing r ended).2 down) := by
  rw [concluded, escaping_of_not_interrupted stays]

/-- A parse that returns was not interrupted in its teardown. -/
theorem not_interrupted_of_concluded {e : Engine} {r report : Report} {ended down : Except Fault Unit}
    (h : concluded e r ended down = .ok report) : interrupted down = false := by
  cases down with
  | ok _ => rfl
  | error f =>
      by_contra passes
      rw [concluded, escaping, if_pos (by simpa [interrupted] using passes)] at h
      cases h

/-- An engine that no parse runs on after such a teardown, with what the last scan has left
behind. -/
def rested (e : Engine) (down : Except Fault Unit) : Engine :=
  { e.cleaned down with report := none, callId := e.correlation, parsing := false }

/-- A parse that is not refused ends as its building and its teardown have it. -/
theorem outcome_parse {g : Grammar σ} {rounds : Nat} {input : Input} {override : Option Text}
    {ended : Except Fault Unit} {r : Report} (idle : w.engine.parsing = false)
    (accepted : ∀ x, input ≠ .other x)
    (built : (build g rounds input).outcome ((enter override).outcome w).2 = (ended, w'))
    (hr : w'.engine.report = some r) :
    ∃ l, (parse g rounds input override).outcome w
      = (concluded w'.engine r ended (cleared w').1,
        { w' with
          forest := (cleared w').2, log := l, engine := w'.engine.rested (cleared w').1 }) := by
  obtain ⟨l₁, settled⟩ := outcome_settle hr ended
  obtain ⟨l₂, r', closed, noted⟩ := outcome_tearDown
    (w := noting w' (settledBy w'.engine.diagnosing r ended).2 l₁) rfl
  have same : cleared (noting w' (settledBy w'.engine.diagnosing r ended).2 l₁) = cleared w' := rfl
  rw [same] at closed noted
  refine ⟨l₂, ?_⟩
  rw [parse, outcome_engine]
  case x => exact accepted
  rw [idle]
  simp only [Bool.false_eq_true, if_false]
  rw [outcome_bind]
  change outcome _ ((enter override).outcome w).2 = _
  rw [outcome_bind, outcome_attempt, built]
  dsimp only
  rw [outcome_bind, outcome_attempt, settled]
  dsimp only
  rw [outcome_bind, outcome_attempt, closed]
  cases stays : interrupted (cleared w').1 with
  | true =>
      obtain ⟨f, -, escapes⟩ := exists_escaping stays
      rw [concluded, escapes]
      rfl
  | false =>
      rw [noted stays, concluded_of_not_interrupted stays, escaping_of_not_interrupted stays]
      cases (settledBy w'.engine.diagnosing r ended).1 with
      | error f => rfl
      | ok u =>
          dsimp only
          rw [outcome_engine, counted]
          change outcome (if w'.engine.config.collectMetrics.truthy = true then _ else _) _ = _
          dsimp only [Except.map]
          split
          · rfl
          · rfl

end Engine

end Needlework
