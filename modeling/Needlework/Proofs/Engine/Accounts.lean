import Needlework.Proofs.Engine.Parallel

/-!
# The account of an engine

The *account* of an engine is what neither edits nor pushes nor switches of the status touch: the
settings, the strictness, the text, the cursor, the counters of needles and repairs, and the
warnings that are reported so far.

One lemma for each step says what it does to the account.  Most operations of hooks leave it as
it is (`account_op`).  Closing what is open enters the books of a lenient engine only.  A
recovery and a rejected needle enter a repair with its warning, and a strict engine never comes
so far with a rejected needle.
-/

namespace Needlework

/-- A report that is reduced to its warnings. -/
def Report.cautions (r : Report) : Report :=
  { entries := Diagnostic.ofSeverity .warning r.entries }

theorem Report.cautions_of_add {r r' : Report} {severity : Severity} {message component : Text}
    {offset details : Value} (h : r.add severity message component offset details = .ok r')
    (mild : severity ≠ .warning) : r'.cautions = r.cautions := by
  obtain ⟨d, same, rfl⟩ := Report.exists_of_add h
  simp [Report.cautions, Diagnostic.ofSeverity, same, mild]

/-- The operations of hooks that leave strictness, cursor and text to the engine. -/
def Op.Placid {σ : Type} : Op σ → Prop
  | .assign (.strict _) => False
  | .assign (.cursor _) => False
  | .assign (.text _) => False
  | _ => True

namespace Engine

open Act

/-- An engine without what hooks change all the time. -/
def account (e : Engine) : Engine :=
  { e with
    stack := [], status := 0, needles := [], output := .null, root := none, detached := []
    metrics := { e.metrics with pushed := 0 }
    report := e.report.map Report.cautions }

variable {σ : Type} {w w' : World σ}

/-! ## Diagnostics -/

theorem account_diagnose {severity : Severity} (mild : severity ≠ .warning) (message : Text)
    (offset details : Value) (w : World σ) :
    ((diagnose severity message offset details).outcome w).2.engine.account = w.engine.account := by
  rw [diagnose, outcome_engine]
  cases hr : w.engine.report with
  | none => rfl
  | some r =>
      dsimp only
      split
      · cases added : r.add severity message Engine.component offset details with
        | error f => rfl
        | ok r' =>
            show { w.engine with report := some r' }.account = _
            rw [account, account, hr, Option.map_some, Option.map_some,
              Report.cautions_of_add added mild]
      · rfl

/-- A diagnostic concerns the report alone. -/
theorem engine_diagnose (severity : Severity) (message : Text) (offset details : Value)
    (w : World σ) : ∃ r, ((diagnose severity message offset details).outcome w).2.engine
      = { w.engine with report := r } := by
  rw [diagnose, outcome_engine]
  cases w.engine.report with
  | none => exact ⟨_, rfl⟩
  | some r =>
      dsimp only
      split
      · cases r.add severity message Engine.component offset details with
        | error f => exact ⟨_, rfl⟩
        | ok r' => exact ⟨_, rfl⟩
      · exact ⟨_, rfl⟩

/-! ## Operations -/

theorem engine_refuseParse (w : World σ) : (refuseParse.outcome w).2.engine = w.engine := by
  rw [refuseParse, outcome_log, outcome_engine]
  dsimp only
  split
  · generalize Report.add _ _ _ _ _ _ = added
    cases added <;> rfl
  · rfl

theorem account_closeOpen (w : World σ) :
    (closeOpen.outcome w).2.engine.account = w.engine.account
      ∨ w.engine.isStrict = false
        ∧ (closeOpen.outcome w).2.engine.account = (w.engine.closedBy w.engine.openCount).account := by
  rw [closeOpen, outcome_engine]
  dsimp only
  split
  · exact .inl rfl
  cases strict : w.engine.isStrict with
  | true => exact .inl rfl
  | false =>
      refine .inr ⟨rfl, ?_⟩
      simp only [Bool.false_eq_true, if_false]
      rw [outcome_modifyEngine, outcome_bind]
      generalize noted : World.onEngine _ _ = u
      have mild := account_diagnose (show Severity.info ≠ .warning by decide)
        (Text.cat ["Closed ", Text.ofInt w.engine.openCount, " construct(s) left open at end of input"])
        .null (.object [("open_nodes", .int w.engine.openCount)]) u
      generalize (diagnose .info _ _ _).outcome u = out at mild
      obtain ⟨r, v⟩ := out
      have closed : v.engine.account = (w.engine.closedBy w.engine.openCount).account := by
        rw [mild, ← noted]
        rfl
      cases r with
      | error f => exact closed
      | ok _ => exact closed

/-- Operations leave the account alone, but that a lenient engine closes what is open. -/
theorem account_op {o : Op σ} (plain : IsPlain o) (placid : o.Placid) (w : World σ) :
    ((Step.act (.op o)).outcome w).2.engine.account = w.engine.account
      ∨ w.engine.isStrict = false ∧ ∃ n : Int,
        ((Step.act (.op o)).outcome w).2.engine.account = (w.engine.closedBy n).account := by
  cases o with
  | setStatus n => exact plain.elim
  | recover => exact plain.elim
  | push n =>
      left
      show ((push n).outcome w).2.engine.account = _
      rcases push_cases n w with ⟨e, f, hout, -⟩ | ⟨top, rest, h, f, -, -, -, hout⟩
      · rw [hout]; rfl
      · rw [hout]; rfl
  | pop =>
      left
      show (pop.outcome w).2.engine.account = _
      rcases pop_cases w with ⟨e, hout⟩ | ⟨top, next, rest, -, hout⟩
      · rw [hout]
      · rw [hout]; rfl
  | appendText t offset =>
      left
      show ((appendText t offset).outcome w).2.engine.account = _
      rw [after_appendText]
      rfl
  | closeOpen => exact (account_closeOpen w).imp_right fun closed => ⟨closed.1, _, closed.2⟩
  | edit e =>
      left
      show ((tree e.run).outcome w).2.engine.account = _
      rw [after_tree]
      rfl
  | assign a =>
      left
      show ((assign a).outcome w).2.engine.account = _
      cases a with
      | strict v => exact placid.elim
      | cursor i => exact placid.elim
      | text t => exact placid.elim
      | newRoot => rfl
      | dropTop =>
          rw [assign, outcome_engine]
          split
          · rfl
          · rfl
      | _ => rfl
  | postfilter t =>
      left
      show ((applyFilters .post t).outcome w).2.engine.account = _
      rw [engine_applyFilters]
  | parse input override =>
      left
      show (refuseParse.outcome w).2.engine.account = _
      rw [engine_refuseParse]
  | _ => exact .inl rfl

/-! ## Recoveries -/

theorem account_withdraw (w : World σ) :
    (withdraw.outcome w).2.engine.account = w.engine.account := by
  obtain ⟨stack, aside, same⟩ := engine_withdraw w
  rw [same]
  rfl

/-- An engine that goes on behind an origin, with one more recovery. -/
def resumed (origin : Int) (e : Engine) : Engine :=
  { e.recovered with cursor := origin + 1, rewound := true }

/-- A recovery ends in vain, or it is entered, with a warning or without. -/
theorem engine_resume (top : Handle) (origin : Int) (w : World σ) :
    (∃ f, ((resume top origin).outcome w).1 = .error f
        ∧ ((resume top origin).outcome w).2.engine = w.engine)
      ∨ ∃ r, ((resume top origin).outcome w).2.engine = { w.engine.resumed origin with report := r } := by
  rw [resume, outcome_bind]
  have same := engine_appendPoint origin w
  generalize (appendPoint origin).outcome w = out at same
  obtain ⟨r, w₁⟩ := out
  cases r with
  | error f => exact .inl ⟨f, rfl, same⟩
  | ok _ =>
      right
      dsimp only at same ⊢
      rw [outcome_modifyEngine, outcome_get, outcome_log]
      refine Exists.imp (fun r reported => Eq.trans reported ?_) (engine_diagnose .warning _ _ _ _)
      rw [← same]
      rfl

/-! ## The scan -/

/-- A strict engine rejects a needle by failing. -/
theorem outcome_reject_of_strict (needle : Text) (position : Nat)
    (strict : w.engine.isStrict = true) : (reject needle position).outcome w
      = (.error (.strict (.rejected needle position w.engine.status)), w) := by
  rw [reject, outcome_engine, if_pos strict]
  rfl

/-! ## Handing out -/

/-- What a report hands out is not in the account. -/
theorem account_onReport (e : Engine) {change : Report → Report}
    (same : ∀ r, (change r).cautions = r.cautions) :
    { e with report := e.report.map change }.account = e.account := by
  have kept : (e.report.map change).map Report.cautions = e.report.map Report.cautions := by
    rw [Option.map_map]
    exact congrArg (e.report.map ·) (funext same)
  simp only [account, kept]

theorem account_handOut (w : World σ) : (handOut.outcome w).2.engine.account = w.engine.account := by
  rw [handOut, outcome_engine]
  split
  · exact account_onReport w.engine (show ∀ r : Report, Report.cautions { r with tree := w.engine.root } = r.cautions
      from fun _ => rfl)
  · rw [modifyReport, outcome_modifyEngine, outcome_bind]
    obtain ⟨f, destroyed, -⟩ := outcome_destroyTree (w.onEngine fun e =>
      { e with report := e.report.map fun r => { r with output := w.engine.output } })
    have same := account_onReport w.engine
      (show ∀ r : Report, Report.cautions { r with output := w.engine.output } = r.cautions
        from fun _ => rfl)
    generalize outcome destroyTree _ = out at destroyed
    obtain ⟨ended, v⟩ := out
    dsimp only at destroyed
    subst destroyed
    cases ended with
    | ok _ => exact same
    | error f => exact same

end Engine

end Needlework
