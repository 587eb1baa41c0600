import Needlework.Proofs.Engine.Accounts
import Needlework.Proofs.Engine.Comparison
import Needlework.Proofs.Engine.Conduct
import Needlework.Proofs.Engine.StrictMode

/-!
# Strict engines repair nothing by themselves

A strict engine fails where a lenient one would repair: at a rejected needle, at the end of the
text inside a construct, and at what is left open.  So the counters of downgrades and of forced
closings of a strict parse are zero.

A *recovery* can also be asked for by a hook.  This does not depend on the strictness, so a
strict parse can succeed with recoveries and warnings.  It has neither if its hooks ask for no
recovery.
-/

namespace Needlework

/-- An operation that leaves the strictness as it is. -/
def Op.KeepsStrict {σ : Type} : Op σ → Prop
  | .assign (.strict _) => False
  | _ => True

namespace Engine

open Act

variable {σ : Type} {w w' : World σ}

/-! ## Engines that have repaired nothing -/

/-- A strict engine that has repaired nothing, but for recoveries that hooks may ask for. -/
structure Unrepaired (asked : Prop) (e : Engine) : Prop where
  strict : e.isStrict = true
  downgrades : e.metrics.downgrades = 0
  forceClosed : e.metrics.forceClosed = 0
  recoveries : asked ∨ e.metrics.recoveries = 0
    ∧ ∀ r, e.report = some r → Diagnostic.ofSeverity .warning r.entries = []

variable {asked : Prop} {e e' : Engine}

/-- Nothing but the account matters. -/
theorem Unrepaired.of_account (unrepaired : Unrepaired asked e) (same : e'.account = e.account) :
    Unrepaired asked e' := by
  have strict : e'.strict = e.strict := (congrArg Engine.strict same :)
  have metrics := congrArg Engine.metrics same
  have report : e'.report.map Report.cautions = e.report.map Report.cautions :=
    congrArg Engine.report same
  refine ⟨?_, ?_, ?_, unrepaired.recoveries.imp_right fun none => ⟨?_, fun r' hr' => ?_⟩⟩
  · rw [isStrict, strict]
    exact unrepaired.strict
  · exact (congrArg Metrics.downgrades metrics :).trans unrepaired.downgrades
  · exact (congrArg Metrics.forceClosed metrics :).trans unrepaired.forceClosed
  · exact (congrArg Metrics.recoveries metrics :).trans none.1
  · rw [hr', Option.map_some] at report
    obtain ⟨r, hr, same⟩ := Option.map_eq_some_iff.mp report.symm
    rw [← none.2 r hr]
    exact congrArg Report.entries same.symm

/-- The operations that the hooks of a grammar ask for keep the strictness, and are no recoveries
unless hooks may ask for these. -/
def Modest (asked : Prop) (o : Op σ) : Prop := o.KeepsStrict ∧ (asked ∨ o ≠ .recover)

theorem Unrepaired.op {o : Op σ} (unrepaired : Unrepaired asked w.engine) (plain : IsPlain o)
    (keeps : o.KeepsStrict) : Unrepaired asked ((Step.act (.op o)).outcome w).2.engine := by
  by_cases placid : o.Placid
  · rcases account_op plain placid w with same | ⟨lenient, -⟩
    · exact unrepaired.of_account same
    · rw [unrepaired.strict] at lenient
      cases lenient
  · obtain ⟨strict, downgrades, forceClosed, recoveries⟩ := unrepaired
    cases o with
    | assign a =>
        cases a with
        | strict v => exact keeps.elim
        | cursor i => exact ⟨strict, downgrades, forceClosed, recoveries⟩
        | text t => exact ⟨strict, downgrades, forceClosed, recoveries⟩
        | _ => exact absurd trivial placid
    | _ => exact absurd trivial placid

/-- A strict engine that has repaired nothing stays so through every hook. -/
theorem lasts_unrepaired {g : Grammar σ} (uses : ∀ n, (g.setStatus n).Uses (Modest asked)) :
    Lasts g (Modest asked) fun w => Unrepaired asked w.engine where
  uses n _ := uses n
  resets _ := ⟨trivial, .inr nofun⟩
  plain _ _ plain modest unrepaired := unrepaired.op plain modest.1
  recovery modest n w switches unrepaired := by
    have granted : asked := modest.2.resolve_right (not_not_intro rfl)
    refine .bind (.step unrepaired (unrepaired.of_account (account_withdraw w))) fun taken w₁ first => ?_
    refine .bind (switches w₁ first) fun _ w₂ second => .step second ?_
    show Unrepaired asked ((resume taken.1 taken.2).outcome w₂).2.engine
    rcases engine_resume taken.1 taken.2 w₂ with ⟨f, -, same⟩ | ⟨r, resumed⟩
    · rw [same]
      exact second
    · rw [resumed]
      exact ⟨second.strict, second.downgrades, second.forceClosed, .inl granted⟩

/-! ## The scan -/

/-- Every step of the engine itself leaves a strict engine unrepaired. -/
theorem rounds_unrepaired {g : Grammar σ}
    (uses : ∀ call : HookCall, (call.hook g).Uses (Modest asked)) :
    Rounds g (fun w => Unrepaired asked w.engine) (fun _ w => Unrepaired asked w.engine)
      fun _ _ _ w => Unrepaired asked w.engine where
  head := id
  hand := id
  down := id
  hook call h := (lasts_unrepaired fun n => uses (.setStatus n)).callCourse (uses call) h
  handle status h :=
    (lasts_unrepaired fun n => uses (.setStatus n)).callCourse (uses (.handleStatus status _)) h
  begins h := ⟨h.strict, h.downgrades, h.forceClosed, h.recoveries⟩
  approach {_ _ position w} h _ _ := by
    refine .step h ?_
    show Unrepaired asked ((approach position).outcome w).2.engine
    rcases approach_cases position w with ⟨f, failed⟩ | ⟨-, moved⟩
    · rw [failed]
      exact h
    · rw [moved]
      exact ⟨h.strict, h.downgrades, h.forceClosed, h.recoveries⟩
  accept {_ needle _ w} h := by
    refine .step h ?_
    show Unrepaired asked ((accept needle).outcome w).2.engine
    rw [outcome_accept]
    dsimp only
    split
    · exact h
    · exact ⟨h.strict, h.downgrades, h.forceClosed, h.recoveries⟩
  reject {_ needle position w} h := by
    refine .step h ?_
    show Unrepaired asked ((reject needle position).outcome w).2.engine
    rw [outcome_reject_of_strict needle position h.strict]
    exact h
  recovery h lenient := by
    rw [h.strict] at lenient
    cases lenient
  rest {_ w} h := by
    refine .step h ?_
    show Unrepaired asked (appendRest.outcome w).2.engine
    rcases appendRest_cases w with ⟨same, -⟩ | ⟨f, failed⟩ | ⟨-, -, appended⟩
    · rw [same]
      exact h
    · rw [failed]
      exact h
    · rw [appended]
      exact ⟨h.strict, h.downgrades, h.forceClosed, h.recoveries⟩

/-! ## Whole parses -/

/-- A report of success is the report of the building, with the counters if they are collected. -/
theorem eq_counted_of_concluded {r report : Report} {ended down : Except Fault Unit}
    (concludes : concluded e r ended down = .ok report) (success : report.success = true) :
    report = e.counted r := by
  have well := eq_ok_of_concluded concludes success
  subst well
  rw [concluded_of_not_interrupted (not_interrupted_of_concluded concludes), settledBy] at concludes
  cases down with
  | ok _ =>
      cases concludes
      rfl
  | error f =>
      rw [clearedBy] at concludes
      split at concludes
      · cases concludes
        rw [success_counted, Report.success_blamed] at success
        cases success
      · cases concludes
        rfl

/-- Nothing writes counters into the report of a building. -/
theorem metrics_report_build (g : Grammar σ) (n : Nat) (input : Input)
    (none : ∀ r, w.engine.report = some r → r.metrics = {}) {r : Report}
    (hr : ((build g n input).outcome w).2.engine.report = some r) : r.metrics = {} := by
  have kept := Invariant.build_of_any (w := w) g
    (I := .steady (fun e => ∀ r, e.report = some r → r.metrics = {}) (fun _ => True)
      (fun _ _ => trivial) (fun _ _ _ _ _ _ _ => trivial) fun _ h => h)
    (fun _ => trivial) (fun _ _ h => h) n input (fun r' hr' => by
      obtain ⟨r, hr, rfl⟩ := Option.map_eq_some_iff.mp hr'
      exact none r hr)
  exact kept r.gist (congrArg (Option.map Report.gist) hr)

/-- A strict parse that builds well has repaired nothing by itself. -/
theorem unrepaired_of_build {g : Grammar σ} {n : Nat} {input : Input}
    (uses : ∀ call : HookCall, (call.hook g).Uses (Modest asked))
    (unrepaired : Unrepaired asked w.engine)
    (built : (build g n input).outcome w = (.ok (), w')) : Unrepaired asked w'.engine := by
  have stages := stages_of_build built
  generalize (buildCourse g n input).moments w = ms at stages
  cases stages with
  | @worked _ u v _ loaded worked handed =>
      obtain ⟨f, begins⟩ := begins_of_load loaded
      have first : Unrepaired asked u.engine := by
        refine ⟨?_, ?_, ?_, unrepaired.recoveries.imp_right fun none => ⟨?_, fun r hr => ?_⟩⟩
        · rw [isStrict, begins.strict]
          exact unrepaired.strict
        · rw [begins.metrics]
          exact unrepaired.downgrades
        · rw [begins.metrics]
          exact unrepaired.forceClosed
        · rw [begins.metrics]
          exact none.1
        · rw [begins.report] at hr
          exact none.2 r hr
      have second := ((rounds_unrepaired uses).workCourse n (s := 0) first).ok () v worked
      have kept := account_handOut v
      rw [handed] at kept
      exact second.of_account kept

/-- A strict parse that succeeds has kept no rejected needle and has closed nothing by force.  If
no hook asks for a recovery, it has repaired nothing at all and warns of nothing. -/
theorem strict_parse_repairs_nothing {g : Grammar σ} {rounds : Nat} {input : Input}
    {override : Option Text} {report : Report} (idle : w.engine.parsing = false)
    (strict : w.engine.isStrict = true)
    (keeps : ∀ call : HookCall, (call.hook g).Uses Op.KeepsStrict)
    (parsed : (parse g rounds input override).outcome w = (.ok report, w'))
    (success : report.success = true) :
    report.metrics.downgrades = 0 ∧ report.metrics.forceClosed = 0
      ∧ ((∀ call : HookCall, (call.hook g).Uses (· ≠ .recover)) →
        report.metrics.recoveries = 0 ∧ report.warnings = []) := by
  obtain ⟨⟨ended, w₁⟩, built⟩ : ∃ out, (build g rounds input).outcome ((enter override).outcome w).2
      = out := ⟨_, rfl⟩
  obtain ⟨-, r, l, ends, hr, -⟩ := exists_outcome_parse idle (accepted_of_parse idle parsed) built
  rw [ends] at parsed
  have concludes : concluded w₁.engine r ended (cleared w₁).1 = .ok report := congrArg Prod.fst parsed
  have well := eq_ok_of_concluded concludes success
  subst well
  have counted := eq_counted_of_concluded concludes success
  have unmeasured : r.metrics = {} := by
    refine metrics_report_build (w := ((enter override).outcome w).2) g rounds input ?_ (r := r) ?_
    · rintro _ ⟨⟩
      rfl
    · rw [built]
      exact hr
  have metrics : report.metrics = w₁.engine.metrics ∨ report.metrics = {} := by
    rw [counted, Engine.counted]
    split
    · exact .inl rfl
    · exact .inr unmeasured
  have unrepaired : ∀ asked, (∀ call : HookCall, (call.hook g).Uses (Modest asked)) →
      Unrepaired asked w₁.engine := fun asked uses => by
    refine unrepaired_of_build (w := ((enter override).outcome w).2) uses ?_ built
    refine ⟨strict, rfl, rfl, .inr ⟨rfl, ?_⟩⟩
    rintro _ ⟨⟩
    rfl
  have granted := unrepaired True fun call => (keeps call).mono fun o ho => ⟨ho, .inl trivial⟩
  have entries : report.entries = r.entries := by
    rw [counted, Engine.counted]
    split
    · rfl
    · rfl
  refine ⟨?_, ?_, fun none => ⟨?_, ?_⟩⟩
  · rcases metrics with same | same
    · rw [same]
      exact granted.downgrades
    · rw [same]
  · rcases metrics with same | same
    · rw [same]
      exact granted.forceClosed
    · rw [same]
  all_goals
    obtain ⟨recoveries, cautions⟩ := (unrepaired False fun call => ((keeps call).and (none call)).mono
      fun o ho => ⟨ho.1, .inr ho.2⟩).recoveries.resolve_left not_false
  · rcases metrics with same | same
    · rw [same]
      exact recoveries
    · rw [same]
  · rw [Report.warnings, Report.diagnostics, entries, Diagnostic.ofSeverity, List.filter_reverse]
    exact congrArg List.reverse (cautions r hr)

theorem keepsStrict_of_boldAsks {o : Op σ} (asks : BoldAsks o) : o.KeepsStrict := by
  cases o with
  | assign a =>
      cases a with
      | strict v => exact asks
      | _ => trivial
  | _ => trivial

/-- The bold text that is closed parses in strict mode, without repairs. -/
theorem strict_parse_repairs_nothing_closedBold : ∃ report w',
    (parse (Bold.treeGrammar Unit) 8 closedBold none).outcome strictStart = (.ok report, w')
      ∧ report.success = true ∧ report.metrics.needles = 2 ∧ report.metrics.recoveries = 0
      ∧ report.metrics.downgrades = 0 ∧ report.metrics.forceClosed = 0 ∧ report.warnings = [] := by
  have keeps : ∀ call : HookCall, (call.hook (Bold.treeGrammar Unit)).Uses fun o =>
      o.KeepsStrict ∧ o ≠ .recover := fun call =>
    (uses_treeGrammar call).mono fun o asks => ⟨keepsStrict_of_boldAsks asks, by rintro rfl; exact asks⟩
  obtain ⟨report, w', parsed, read⟩ : ∃ report w', (parse (Bold.treeGrammar Unit) 8 closedBold
      none).outcome strictStart = (.ok report, w') ∧ (report.success, report.metrics.needles) = (true, 2) :=
    exists_of_report (by decide +kernel)
  obtain ⟨success, needles⟩ := Prod.mk.inj read
  obtain ⟨downgrades, forceClosed, rest⟩ := strict_parse_repairs_nothing rfl (by decide)
    (fun call => (keeps call).mono fun _ h => h.1) parsed success
  obtain ⟨recoveries, warnings⟩ := rest fun call => (keeps call).mono fun _ h => h.2
  exact ⟨report, w', parsed, success, needles, recoveries, downgrades, forceClosed, warnings⟩

/-! ## A recovery that a hook asks for -/

/-- Open a bold node, and read it again as text. -/
def openInVain : Hook Unit Bool := do
  let h ← Hook.edit (.create (Bold.boldNode (some (← Hook.look).cursor)))
  let _ ← Hook.push (.node h)
  Hook.recover
  return true

/-- The grammar that does so at every opening mark. -/
def vainGrammar : Grammar Unit := { Bold.treeGrammar Unit with handleStatus := fun _ _ => openInVain }

/-- No hook writes the strictness, and the strict parse succeeds, with a recovery and a warning. -/
theorem strict_parse_recovers :
    (∀ call : HookCall, (call.hook vainGrammar).Uses Op.KeepsStrict)
      ∧ (strictStart.engine.isStrict = true)
      ∧ ∃ report w', (parse vainGrammar 4 (.text Bold.openMark) none).outcome strictStart
          = (.ok report, w') ∧ report.success = true ∧ report.metrics.recoveries = 1
        ∧ report.warnings.length = 1 := by
  refine ⟨fun call => ?_, by decide, ?_⟩
  · cases call with
    | handleStatus n needle =>
        exact Hook.uses_bind_ask trivial fun _ => Hook.uses_bind_ask trivial fun _ =>
          Hook.uses_bind_ask trivial fun _ => Hook.uses_bind_ask trivial fun _ => trivial
    | init => exact (uses_treeGrammar .init).mono fun _ => keepsStrict_of_boldAsks
    | setStatus n => exact (uses_treeGrammar (.setStatus n)).mono fun _ => keepsStrict_of_boldAsks
    | closeRemainingBlocks => exact Hook.uses_ask trivial
    | modifyTree => trivial
    | outputTree => trivial
  · obtain ⟨report, w', parsed, read⟩ : ∃ report w', (parse vainGrammar 4 (.text Bold.openMark)
        none).outcome strictStart = (.ok report, w')
        ∧ (report.success, report.metrics.recoveries, report.warnings.length) = (true, 1, 1) :=
      exists_of_report (by decide +kernel)
    obtain ⟨success, read⟩ := Prod.mk.inj read
    obtain ⟨recoveries, warnings⟩ := Prod.mk.inj read
    exact ⟨report, w', parsed, success, recoveries, warnings⟩

end Engine

end Needlework
