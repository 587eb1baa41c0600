import Needlework.Proofs.Engine.Books
import Needlework.Proofs.Engine.Lifecycle

/-!
# The counters of a report

The counters of a report agree with its diagnostics and with what happened in the parse
(`counters_of_report`).  Recoveries and downgrades are as many as the warnings, and the notes of
forced closings tell how many constructs were closed.  This is what the books have come to when the
building ends, and the rest of a parse adds errors only.

The other counters are told by the steps of the building.  Each call for a needle and each push that
returns is counted, and so is the length of the text when it is set.  A parse begins with new
counters, and its first step sets the text or ends the building.  So it is enough to know what every
later step counts (`Moment.tally_after`).
-/

namespace Needlework

namespace Engine

open Act

variable {σ α β : Type} {w w' : World σ}

/-! ## Loading -/

/-- Reading an input writes log records at most. -/
theorem outcome_readText (input : Input) (w : World σ) :
    ∃ l, ((Likeness.readText input).outcome w).2 = { w with log := l } := by
  rw [Likeness.readText, outcome_engine, outcome_bind]
  cases inputText w.engine.codecs w.engine.config input with
  | error f => exact ⟨w.log, rfl⟩
  | ok t =>
      change ∃ l, ((applyFilters .pre t).outcome w).2 = _
      rw [applyFilters, outcome_engine]
      dsimp only
      cases (w.engine.filters.apply (Pipeline.logger w.engine.correlation) .pre t).1 with
      | ok u => exact ⟨_, rfl⟩
      | error f => exact ⟨_, rfl⟩

/-- An engine with a text that is not scanned yet, under a new root. -/
def loaded (t : Text) (root : Handle) (e : Engine) : Engine :=
  { e with
    text := t, cursor := 0, stack := [root], status := 0, needles := [], output := .null
    root := some root, detached := []
    metrics := { e.metrics with characters := t.length } }

/-- Where there is neither a root nor anything put aside, a text that can be read is set, under a
new root. -/
theorem outcome_load_ok {input : Input} {t : Text} (root : w.engine.root = none)
    (aside : w.engine.detached = []) (read : (Likeness.readText input).outcome w = (.ok t, w')) :
    ∃ l, (load input).outcome w = (.ok (), { w with
      forest := (w.forest.add .root).2, engine := w.engine.loaded t w.forest.size, log := l }) := by
  obtain ⟨l, same⟩ := outcome_readText input w
  rw [read] at same
  dsimp only at same
  subst same
  rw [Likeness.outcome_load, outcome_bind, read]
  dsimp only
  rw [Likeness.setText, outcome_modifyEngine, outcome_bind, discardDetached, outcome_engine]
  simp only [World.engine_onEngine, aside]
  change ∃ l, outcome (destroyRoot >>= _) _ = _
  rw [outcome_bind, destroyRoot, outcome_engine]
  simp only [World.engine_onEngine, root]
  exact ⟨_, rfl⟩

/-- An input that cannot be read ends the building. -/
theorem outcome_load_error {input : Input} {f : Fault}
    (read : (Likeness.readText input).outcome w = (.error f, w')) : (load input).outcome w = (.error f, w') := by
  rw [Likeness.outcome_load, outcome_bind, read]

/-! ## Single steps -/

/-- The counters of the length of the text and of the nodes opened. -/
def tally (e : Engine) : Int × Int := (e.metrics.characters, e.metrics.pushed)

theorem tally_diagnose (severity : Severity) (message : Text) (offset details : Value) (w : World σ) :
    ((diagnose severity message offset details).outcome w).2.engine.tally = w.engine.tally := by
  rw [tally, metrics_diagnose, tally]

theorem tally_withdraw (w : World σ) : (withdraw.outcome w).2.engine.tally = w.engine.tally := by
  obtain ⟨stack, aside, same⟩ := engine_withdraw w
  rw [same]
  rfl

theorem tally_resume (top : Handle) (origin : Int) (w : World σ) :
    ((resume top origin).outcome w).2.engine.tally = w.engine.tally := by
  rcases engine_resume top origin w with ⟨f, -, same⟩ | ⟨r, moved⟩
  · rw [same]
  · rw [moved]; rfl

theorem tally_closeOpen (w : World σ) : (closeOpen.outcome w).2.engine.tally = w.engine.tally := by
  rw [closeOpen, outcome_engine]
  dsimp only
  split
  · rfl
  split
  · rfl
  rw [outcome_modifyEngine, outcome_bind]
  have same := tally_diagnose .info (Text.cat ["Closed ", Text.ofInt w.engine.openCount,
    " construct(s) left open at end of input"]) .null
    (.object [("open_nodes", .int w.engine.openCount)]) (w.onEngine fun e =>
      count (fun m => { m with forceClosed := m.forceClosed + w.engine.openCount })
        { e with stack := e.stack.getLast?.toList })
  generalize (diagnose .info _ _ _).outcome _ = out at same
  obtain ⟨ended, v⟩ := out
  cases ended with
  | ok _ => exact same
  | error f => exact same

theorem tally_reject (needle : Text) (position : Nat) (w : World σ) :
    ((reject needle position).outcome w).2.engine.tally = w.engine.tally := by
  cases strict : w.engine.isStrict with
  | true => rw [outcome_reject_of_strict needle position strict]
  | false =>
      rw [tally, metrics_reject needle position strict]
      rfl

theorem tally_handOut (w : World σ) : (handOut.outcome w).2.engine.tally = w.engine.tally := by
  obtain ⟨change, root, stack, -, handed⟩ := engine_handOut w
  rw [handed]
  rfl

/-- A push is counted if it returns, and not otherwise. -/
theorem tally_push (n : Arg) (w : World σ) :
    ((push n).outcome w).2.engine.tally = (w.engine.metrics.characters, w.engine.metrics.pushed
      + if ((push n).outcome w).1.isOk then 1 else 0) := by
  rcases push_cases n w with ⟨e, f, failed, -⟩ | ⟨top, rest, h, f, -, -, -, pushed⟩
  · rw [failed]
    exact Prod.ext rfl (Int.add_zero _).symm
  · rw [pushed]
    rfl

theorem tally_op {o : Op σ} (unpushed : ∀ n, o ≠ .push n) (w : World σ) :
    ((Step.act (.op o)).outcome w).2.engine.tally = w.engine.tally := by
  have written : IsPlain o → o ≠ .closeOpen →
      ((Step.act (.op o)).outcome w).2.engine.tally = w.engine.tally := fun plain open' => by
    obtain ⟨-, same⟩ := Prod.mk.inj (papers_op plain unpushed open' w)
    rw [tally, tally, (Prod.mk.inj same).1]
  cases o with
  | setStatus n => rfl
  | recover =>
      show ((recover fun _ => pure ()).outcome w).2.engine.tally = _
      rw [recover, outcome_bind]
      have taken := tally_withdraw w
      generalize withdraw.outcome w = out at taken
      obtain ⟨ended, v⟩ := out
      cases ended with
      | error f => exact taken
      | ok pair => exact (tally_resume pair.1 pair.2 v).trans taken
  | closeOpen => exact tally_closeOpen w
  | _ => exact written trivial nofun

/-- Whether a step is a push that returns. -/
def Moment.pushes (m : Moment σ) : Bool :=
  match m.step with
  | .op (.push _) => m.reply.isOk
  | _ => false

/-- The steps that come after the text is set. -/
def IsLater : Step σ → Prop
  | .load _ => False
  | _ => True

/-- Every step of the work keeps the length of the text, and counts a push that returns. -/
theorem Moment.tally_after (m : Moment σ) (later : IsLater m.step) :
    m.after.engine.tally = (m.before.engine.metrics.characters,
      m.before.engine.metrics.pushed + if m.pushes then 1 else 0) := by
  obtain ⟨s, w⟩ := m
  have same : ∀ {v : World σ}, v.engine.tally = w.engine.tally →
      v.engine.tally = (w.engine.metrics.characters, w.engine.metrics.pushed + 0) := fun same => by
    rw [same, Int.add_zero]
    rfl
  cases s with
  | load input => exact later.elim
  | op o =>
      by_cases pushing : ∃ n, o = .push n
      · obtain ⟨n, rfl⟩ := pushing
        exact tally_push n w
      · have unpushed := not_exists.mp pushing
        have kept := same (tally_op unpushed w)
        cases o with
        | push n => exact absurd rfl (unpushed n)
        | _ => exact kept
  | withdraw => exact same (tally_withdraw w)
  | resume top origin => exact same (tally_resume top origin w)
  | reject needle position => exact same (tally_reject needle position w)
  | approach position =>
      refine same (v := ((approach position).outcome w).2) ?_
      rcases approach_cases position w with ⟨f, failed⟩ | ⟨-, moved⟩
      · rw [failed]; rfl
      · rw [moved]; rfl
  | accept needle =>
      refine same (v := ((accept needle).outcome w).2) ?_
      rw [outcome_accept]
      dsimp only
      split
      · rfl
      · rfl
  | appendRest =>
      refine same (v := (appendRest.outcome w).2) ?_
      rcases appendRest_cases w with ⟨same, -⟩ | ⟨f, failed⟩ | ⟨-, -, appended⟩
      · rw [same]
      · rw [failed]; rfl
      · rw [appended]; rfl
  | reportOpen =>
      refine same (v := (reportOpen.outcome w).2) ?_
      rw [reportOpen, outcome_engine]
      split
      · rfl
      · rfl
  | handOut => exact same (tally_handOut w)
  | enter call => exact same rfl
  | beginRound => exact same rfl

theorem Runs.tally {ms : List (Moment σ)} (runs : Runs w ms w') (later : ∀ m ∈ ms, IsLater m.step) :
    w'.engine.tally
      = (w.engine.metrics.characters, w.engine.metrics.pushed + ms.countP Moment.pushes) := by
  induction runs with
  | nil => exact Prod.ext rfl (Int.add_zero _).symm
  | @cons m ms v rest ih =>
      obtain ⟨characters, pushed⟩ := Prod.mk.inj (m.tally_after (later m List.mem_cons_self))
      rw [ih fun m' hm' => later m' (List.mem_cons_of_mem m hm'), characters, pushed, List.countP_cons]
      refine Prod.ext rfl ?_
      split
      · push_cast
        omega
      · push_cast
        omega

/-! ## Buildings -/

/-- The course of a building after the text is set. -/
def restCourse (g : Grammar σ) (n : Nat) : Course σ Unit := do
  workCourse g n
  Course.take .handOut

theorem workSteps_isLater : WorkSteps (IsLater (σ := σ)) where
  enter _ := trivial
  op _ := trivial
  withdraw := trivial
  resume _ _ := trivial
  own s own := by
    cases s with
    | load input => exact own.elim
    | _ => trivial

theorem within_restCourse (g : Grammar σ) (n : Nat) : (restCourse g n).Within IsLater :=
  .bind (workSteps_isLater.workCourse g n) fun _ => .take (s := .handOut) trivial

/-- A building that starts from nothing reads its input in vain, or sets its text and goes on from
there. -/
inductive Opens (g : Grammar σ) (n : Nat) (input : Input) (w : World σ) : Prop where
  | unread {f : Fault} {l : List Record} :
      (Likeness.readText input).outcome w = (.error f, { w with log := l }) →
      (buildCourse g n input).outcome w = (.error f, { w with log := l }) →
      (buildCourse g n input).moments w = [⟨.load input, w⟩] → Opens g n input w
  | set {t : Text} {l : List Record} {v u : World σ} :
      (Likeness.readText input).outcome w = (.ok t, v) →
      u = { w with forest := (w.forest.add .root).2, engine := w.engine.loaded t w.forest.size, log := l } →
      (load input).outcome w = (.ok (), u) →
      (buildCourse g n input).outcome w = (restCourse g n).outcome u →
      (buildCourse g n input).moments w = ⟨.load input, w⟩ :: (restCourse g n).moments u →
      Opens g n input w

theorem opens_build (g : Grammar σ) (n : Nat) (input : Input) (root : w.engine.root = none)
    (aside : w.engine.detached = []) : Opens g n input w := by
  cases read : (Likeness.readText input).outcome w with
  | mk ended v =>
  cases ended with
  | error f =>
      have first : (Course.take (.load input)).outcome w = (.error f, v) :=
        (Course.outcome_take ..).trans (outcome_load_error read)
      obtain ⟨l, same⟩ := outcome_readText input w
      rw [read] at same
      dsimp only at same
      subst same
      refine .unread read ?_ ?_
      · rw [buildCourse, Course.outcome_andThen_error first]
      · rw [buildCourse, Course.moments_andThen, first, Course.moments_take]
        rfl
  | ok t =>
      obtain ⟨l, loads⟩ := outcome_load_ok root aside read
      have first := (Course.outcome_take (.load input) w).trans loads
      refine .set read rfl loads ?_ ?_
      · rw [buildCourse, Course.outcome_andThen_ok first, restCourse]
      · rw [buildCourse, Course.moments_andThen_ok first, Course.moments_take, restCourse]
        rfl

/-- A building counts its calls for needles, the pushes that return, and the length of its text if
there is one. -/
theorem counts_build (g : Grammar σ) (n : Nat) (input : Input) (root : w.engine.root = none)
    (aside : w.engine.detached = []) (fresh : w.engine.metrics = {}) :
    ((build g n input).outcome w).2.engine.metrics.needles = (buildCourse g n input).handlings w
      ∧ ((build g n input).outcome w).2.engine.metrics.pushed
        = ((buildCourse g n input).moments w).countP Moment.pushes
      ∧ ∀ t v, (Likeness.readText input).outcome w = (.ok t, v) →
        ((build g n input).outcome w).2.engine.metrics.characters = t.length := by
  rw [← follows_buildCourse]
  cases opens_build g n input root aside with
  | unread read ends steps =>
      rw [Course.handlings, Course.calls, ends, steps]
      refine ⟨congrArg Metrics.needles fresh, congrArg Metrics.pushed fresh, fun t v other => ?_⟩
      rw [read] at other
      cases other
  | @set t l v u read set loads ends steps =>
      have needles := needles_buildCourse (g := g) n loads
      rw [fresh] at needles
      have counted := (runs_moments (restCourse g n) u).tally (within_restCourse g n u)
      obtain ⟨characters, pushed⟩ := Prod.mk.inj counted
      refine ⟨needles.trans (Int.zero_add _), ?_, fun t' v' same => ?_⟩
      · rw [ends, steps, List.countP_cons_of_neg Bool.false_ne_true, pushed, set]
        exact (congrArg (· + _) (congrArg Metrics.pushed fresh)).trans (Int.zero_add _)
      · rw [read] at same
        cases same
        rw [ends, characters, set]
        rfl

/-- The books of a building are balanced, however it ends. -/
theorem balances_build (g : Grammar σ) (n : Nat) (input : Input) {ds : List Diagnostic}
    (root : w.engine.root = none) (aside : w.engine.detached = []) (forward : w.forest.Forward)
    (uses : ∀ call : HookCall, (call.hook g).Uses Op.Onward) (balances : Balances w.engine.books ds) :
    ∃ ds, Balances ((build g n input).outcome w).2.engine.books ds := by
  rw [← follows_buildCourse]
  cases opens_build g n input root aside with
  | unread read ends steps =>
      rw [ends]
      exact ⟨ds, balances⟩
  | @set t l v u read set loads ends steps =>
      have first : Balanced u := by
        rw [set]
        exact ⟨⟨Int.le_refl 0, (Forest.OriginsKept.add _).forward forward⟩, ds, balances⟩
      have worked := (rounds_balanced uses).workCourse n (s := 0) first
      have rest : (restCourse g n).Stays (fun w => ∃ ds, Balances w.engine.books ds) u
          fun _ w => ∃ ds, Balances w.engine.books ds := by
        refine .bind (worked.imp (fun _ h => h.2) fun _ _ h => h) fun _ w₁ balanced => ?_
        refine .step balanced.2 ?_
        show ∃ ds, Balances (handOut.outcome w₁).2.engine.books ds
        rw [books_handOut]
        exact balanced.2
      rw [ends]
      exact rest.last fun _ _ h => h

/-! ## Reports -/

/-- Blame adds an error, and nothing of another severity. -/
theorem ofSeverity_blamed {s : Severity} (mild : s ≠ .error) (on : Bool) (r : Report) (f : Fault) :
    Diagnostic.ofSeverity s (r.blamed on f).entries = Diagnostic.ofSeverity s r.entries := by
  cases on with
  | false => rfl
  | true => exact Diagnostic.ofSeverity_cons_of_ne (Ne.symm mild) _

/-- However a parse ends, its report has the diagnostics of its building, but for errors. -/
theorem ofSeverity_of_concluded {e : Engine} {r report : Report} {ended down : Except Fault Unit}
    {s : Severity} (mild : s ≠ .error) (h : concluded e r ended down = .ok report) :
    Diagnostic.ofSeverity s report.entries = Diagnostic.ofSeverity s r.entries := by
  have settled : Diagnostic.ofSeverity s (settledBy e.diagnosing r ended).2.entries
      = Diagnostic.ofSeverity s r.entries := by
    cases ended with
    | ok _ => rfl
    | error f =>
        rw [settledBy]
        split
        · rfl
        split
        · rfl
        · exact ofSeverity_blamed mild _ r _
  have cleared : ∀ r, Diagnostic.ofSeverity s (clearedBy e.diagnosing r down).entries
      = Diagnostic.ofSeverity s r.entries := fun r => by
    cases down with
    | ok _ => rfl
    | error f =>
        rw [clearedBy]
        split
        · exact ofSeverity_blamed mild _ r _
        · rfl
  rw [concluded_of_not_interrupted (not_interrupted_of_concluded h)] at h
  generalize (settledBy e.diagnosing r ended).1 = result at h
  cases result with
  | error f => cases h
  | ok _ =>
      cases h
      rw [counted]
      split
      · exact (cleared _).trans settled
      · exact (cleared _).trans settled

/-- The counters of a report agree with its diagnostics, with the hooks that were called and with
what they asked for, whether the parse has succeeded or not. -/
theorem counters_of_report {g : Grammar σ} {rounds : Nat} {input : Input} {override : Option Text}
    {report : Report} (idle : w.engine.Idle) (forward : w.forest.Forward)
    (on : w.engine.diagnosing = true) (collected : w.engine.config.collectMetrics.truthy = true)
    (uses : ∀ call : HookCall, (call.hook g).Uses Op.Onward)
    (parsed : (parse g rounds input override).outcome w = (.ok report, w')) :
    (report.warnings.length : Int) = report.metrics.recoveries + report.metrics.downgrades
      ∧ (∃ ns : List Int,
        (Diagnostic.ofSeverity .info report.diagnostics).map Diagnostic.details
            = ns.map Diagnostic.closing
          ∧ ns.sum = report.metrics.forceClosed
          ∧ report.metrics.repairs = report.warnings.length + ns.sum)
      ∧ report.metrics.needles = (hookCalls g rounds input override w).countP HookCall.isHandling
      ∧ report.metrics.pushed = ((buildCourse g rounds input).moments
          ((enter override).outcome w).2).countP Moment.pushes
      ∧ ∀ t v, (Likeness.readText input).outcome ((enter override).outcome w).2 = (.ok t, v) →
        report.metrics.characters = t.length := by
  obtain ⟨⟨ended, w₁⟩, built⟩ : ∃ out, (build g rounds input).outcome ((enter override).outcome w).2
      = out := ⟨_, rfl⟩
  obtain ⟨config, r, l, ends, hr, -⟩ :=
    exists_outcome_parse idle.parsing (accepted_of_parse idle.parsing parsed) built
  rw [ends] at parsed
  have concludes : concluded w₁.engine r ended (cleared w₁).1 = .ok report := congrArg Prod.fst parsed
  have metrics : report.metrics = w₁.engine.metrics := by
    rw [metrics_of_concluded concludes, config, if_pos collected]
  have counts := counts_build (w := ((enter override).outcome w).2) g rounds input
    idle.root idle.detached rfl
  have blank : Balances ((enter override).outcome w).2.engine.books [] :=
    ⟨on, rfl, rfl, [], rfl, rfl⟩
  obtain ⟨ds, balances⟩ := balances_build (w := ((enter override).outcome w).2) g rounds input idle.root
    idle.detached forward uses blank
  rw [built] at counts balances
  have entries : r.entries = ds := by
    have same := balances.entries
    change w₁.engine.report.map Report.entries = some ds at same
    rw [hr] at same
    exact Option.some.inj same
  have warnings : (report.warnings.length : Int)
      = report.metrics.recoveries + report.metrics.downgrades := by
    rw [Report.warnings, Report.diagnostics, Diagnostic.ofSeverity, List.filter_reverse,
      List.length_reverse]
    refine (congrArg (fun ds : List Diagnostic => (ds.length : Int))
      (ofSeverity_of_concluded (s := .warning) (by decide) concludes)).trans ?_
    rw [entries, metrics]
    exact balances.warnings
  refine ⟨warnings, ?_, ?_⟩
  · obtain ⟨ns, notes, sum⟩ := balances.notes
    have forced : ns.reverse.sum = report.metrics.forceClosed := by
      rw [List.sum_reverse, sum, metrics]
      rfl
    refine ⟨ns.reverse, ?_, forced, ?_⟩
    · rw [Report.diagnostics, Diagnostic.ofSeverity, List.filter_reverse, List.map_reverse,
        List.map_reverse]
      refine congrArg List.reverse (Eq.trans (congrArg (List.map Diagnostic.details)
        (ofSeverity_of_concluded (s := .info) (by decide) concludes)) ?_)
      rw [entries]
      exact notes
    · rw [Metrics.repairs, forced, warnings]
  · rw [metrics]
    exact counts

theorem onward_of_boldAsks {o : Op σ} (asks : BoldAsks o) : o.Onward := by
  cases o with
  | assign a =>
      cases a with
      | cursor i => exact asks
      | _ => trivial
  | tamper t => exact asks.elim
  | _ => trivial

/-- The bold text that is open is read again as text, with a warning. -/
theorem counters_of_report_openBold : ∃ report w',
    (parse (Bold.treeGrammar Unit) 8 (.text Bold.openMark) none).outcome { memory := () }
        = (.ok report, w')
      ∧ report.warnings.length = report.metrics.recoveries + report.metrics.downgrades
      ∧ report.metrics.recoveries = 1 := by
  obtain ⟨report, w', parsed, recoveries⟩ : ∃ report w', (parse (Bold.treeGrammar Unit) 8
      (.text Bold.openMark) none).outcome { memory := () } = (.ok report, w')
      ∧ report.metrics.recoveries = 1 := exists_of_report (by decide +kernel)
  have uses : ∀ call : HookCall, (call.hook (Bold.treeGrammar Unit)).Uses Op.Onward := fun call =>
    (uses_treeGrammar call).mono fun _ => onward_of_boldAsks
  have forward : ({ memory := () } : World Unit).forest.Forward := fun h o origin => by
    rw [Forest.node_of_size_le (Nat.zero_le h)] at origin
    cases origin
  obtain ⟨warnings, -⟩ := counters_of_report ⟨rfl, rfl, rfl⟩ forward rfl rfl uses parsed
  exact ⟨report, w', parsed, warnings, recoveries⟩

end Engine

end Needlework
