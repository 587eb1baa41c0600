import Needlework.Proofs.Engine.Needles
import Needlework.Proofs.Engine.Onward
import Needlework.Proofs.Engine.Repairs

/-!
# The books of a parse

A parse counts its repairs, and it tells of each in a diagnostic.  The two are written at
different points, and a repair may fail in between.  Still they agree at every step of a parse,
whatever its hooks ask for and however it ends: there is one warning for each recovery and each
downgrade, and the notes of forced closings tell how many there were (`Balances`).

A warning tells of an offset, and an offset before the text is refused.  This is why hooks must
leave the cursor to the engine, and put no origin before the text (`Onward`).

The rounds of the scan and the hooks that they call keep the books balanced (`rounds_balanced`).
-/

namespace Needlework

/-- A report with one more diagnostic. -/
def Report.noted (r : Report) (severity : Severity) (message : Text) (offset details : Value) :
    Report :=
  { r with entries :=
      ⟨severity, message, Engine.component, offset, details, r.correlation⟩ :: r.entries }

/-- What a note of forced closings tells. -/
def Diagnostic.closing (n : Int) : Value := .object [("open_nodes", .int n)]

theorem Diagnostic.ofSeverity_cons_of_eq {s : Severity} {d : Diagnostic} (same : d.severity = s)
    (ds : List Diagnostic) : ofSeverity s (d :: ds) = d :: ofSeverity s ds :=
  List.filter_cons_of_pos (decide_eq_true same)

theorem Diagnostic.ofSeverity_cons_of_ne {s : Severity} {d : Diagnostic} (other : d.severity ≠ s)
    (ds : List Diagnostic) : ofSeverity s (d :: ds) = ofSeverity s ds :=
  List.filter_cons_of_neg (by simpa using other)

theorem Diagnostic.checkOffset_of_nonneg {i : Int} (nonneg : 0 ≤ i) :
    Diagnostic.checkOffset (.int i) = .ok () := by
  have inside : Value.ltInt? (.int i) 0 = some false := by
    rw [Value.ltInt?, decide_eq_false (Int.not_lt.mpr nonneg)]
  rw [checkOffset, inside]
  rfl

namespace Engine

open Act

variable {σ : Type} {w w' : World σ}

/-- With diagnostics on, a diagnostic with a wording and a place in the text is reported. -/
theorem outcome_diagnose_noted {r : Report} (hr : w.engine.report = some r)
    (on : w.engine.diagnosing = true) (severity : Severity) {message : Text}
    (worded : message.isEmpty = false) {offset : Value}
    (inside : Diagnostic.checkOffset offset = .ok ()) (details : Value) :
    (diagnose severity message offset details).outcome w
      = (.ok (), w.onEngine fun e =>
          { e with report := some (r.noted severity message offset details) }) := by
  have named : component.isEmpty = false := isEmpty_ofString (by decide)
  have added : r.add severity message component offset details
      = .ok (r.noted severity message offset details) := by
    rw [Report.add, Diagnostic.check, worded, named, inside]
    rfl
  rw [diagnose, outcome_engine, hr]
  dsimp only
  rw [if_pos (show w.engine.config.enableDiagnostics.truthy = true from on), added]
  rfl

/-! ## Books -/

/-- The books of an engine: its settings, its counters of repairs, and the diagnostics. -/
structure Books where
  config : Config
  recoveries : Int
  downgrades : Int
  forceClosed : Int
  entries : Option (List Diagnostic)

/-- The books of an engine. -/
def books (e : Engine) : Books where
  config := e.config
  recoveries := e.metrics.recoveries
  downgrades := e.metrics.downgrades
  forceClosed := e.metrics.forceClosed
  entries := e.report.map Report.entries

/-- What an engine writes down: its settings, its counters and its report. -/
def papers (e : Engine) : Config × Metrics × Option Report := (e.config, e.metrics, e.report)

theorem books_of_papers {e e' : Engine} (same : e'.papers = e.papers) : e'.books = e.books := by
  obtain ⟨config, same⟩ := Prod.mk.inj same
  obtain ⟨metrics, report⟩ := Prod.mk.inj same
  rw [books, books, config, metrics, report]

/-- With diagnostics on, there is one warning for each recovery and each downgrade, and the notes
of forced closings tell how many there were. -/
structure Balances (b : Books) (ds : List Diagnostic) : Prop where
  on : b.config.enableDiagnostics.truthy = true
  entries : b.entries = some ds
  warnings : ((Diagnostic.ofSeverity .warning ds).length : Int) = b.recoveries + b.downgrades
  notes : ∃ ns : List Int,
    (Diagnostic.ofSeverity .info ds).map Diagnostic.details = ns.map Diagnostic.closing
      ∧ ns.sum = b.forceClosed

/-- The books of a world are balanced. -/
def Balanced (w : World σ) : Prop := Onward w ∧ ∃ ds, Balances w.engine.books ds

namespace Balances

variable {b b' : Books} {ds : List Diagnostic} {d : Diagnostic}

/-- A warning balances one more repair. -/
theorem warned (balances : Balances b ds) (config : b'.config = b.config)
    (entries : b'.entries = some (d :: ds)) (warning : d.severity = .warning)
    (repaired : b'.recoveries + b'.downgrades = b.recoveries + b.downgrades + 1)
    (closed : b'.forceClosed = b.forceClosed) : Balances b' (d :: ds) where
  on := by
    rw [config]
    exact balances.on
  entries := entries
  warnings := by
    have before := balances.warnings
    rw [Diagnostic.ofSeverity_cons_of_eq warning, List.length_cons]
    omega
  notes := by
    rw [Diagnostic.ofSeverity_cons_of_ne (by rw [warning]; decide), closed]
    exact balances.notes

/-- A note balances the constructs that are closed. -/
theorem closed (balances : Balances b ds) {n : Int} (config : b'.config = b.config)
    (entries : b'.entries = some (d :: ds)) (note : d.severity = .info)
    (details : d.details = Diagnostic.closing n) (recoveries : b'.recoveries = b.recoveries)
    (downgrades : b'.downgrades = b.downgrades) (closed : b'.forceClosed = b.forceClosed + n) :
    Balances b' (d :: ds) where
  on := by
    rw [config]
    exact balances.on
  entries := entries
  warnings := by
    rw [Diagnostic.ofSeverity_cons_of_ne (by rw [note]; decide), recoveries, downgrades]
    exact balances.warnings
  notes := by
    obtain ⟨ns, same, sum⟩ := balances.notes
    refine ⟨n :: ns, ?_, ?_⟩
    · rw [Diagnostic.ofSeverity_cons_of_eq note, List.map_cons, List.map_cons, same, details]
    · rw [List.sum_cons, sum, closed]
      omega

end Balances

/-! ## Steps -/

/-- Only a push and the forced closing touch the settings, the counters or the report. -/
theorem papers_op {o : Op σ} (plain : IsPlain o) (unpushed : ∀ n, o ≠ .push n)
    (other : o ≠ .closeOpen) (w : World σ) :
    ((Step.act (.op o)).outcome w).2.engine.papers = w.engine.papers := by
  cases o with
  | setStatus n => exact plain.elim
  | recover => exact plain.elim
  | closeOpen => exact absurd rfl other
  | push n => exact absurd rfl (unpushed n)
  | pop =>
      show (pop.outcome w).2.engine.papers = _
      rcases pop_cases w with ⟨e, hout⟩ | ⟨top, next, rest, -, hout⟩
      · rw [hout]
      · rw [hout]; rfl
  | appendText t offset =>
      show ((appendText t offset).outcome w).2.engine.papers = _
      rw [after_appendText]
      rfl
  | edit e =>
      show ((tree e.run).outcome w).2.engine.papers = _
      rw [after_tree]
      rfl
  | assign a =>
      show ((assign a).outcome w).2.engine.papers = _
      cases a with
      | dropTop =>
          rw [assign, outcome_engine]
          split
          · rfl
          · rfl
      | _ => rfl
  | postfilter t =>
      show ((applyFilters .post t).outcome w).2.engine.papers = _
      rw [engine_applyFilters]
  | parse input override =>
      show (refuseParse.outcome w).2.engine.papers = _
      rw [engine_refuseParse]
  | _ => rfl

/-- No operation but the forced closing writes into the books. -/
theorem books_op {o : Op σ} (plain : IsPlain o) (other : o ≠ .closeOpen) (w : World σ) :
    ((Step.act (.op o)).outcome w).2.engine.books = w.engine.books := by
  by_cases unpushed : ∀ n, o ≠ .push n
  · exact books_of_papers (papers_op plain unpushed other w)
  · obtain ⟨n, rfl⟩ := not_forall_not.mp unpushed
    show ((push n).outcome w).2.engine.books = _
    rcases push_cases n w with ⟨e, f, hout, -⟩ | ⟨top, rest, h, f, -, -, -, hout⟩
    · rw [hout]; rfl
    · rw [hout]; rfl

/-- Constructs that are closed by force are counted and noted. -/
theorem balanced_closeOpen (balanced : Balanced w) : Balanced (closeOpen.outcome w).2 := by
  obtain ⟨onward, ds, balances⟩ := balanced
  refine ⟨onward.op (o := .closeOpen) trivial trivial, ?_⟩
  rw [closeOpen, outcome_engine]
  dsimp only
  split
  · exact ⟨ds, balances⟩
  split
  · exact ⟨ds, balances⟩
  obtain ⟨r, hr, rfl⟩ := Option.map_eq_some_iff.mp balances.entries
  rw [outcome_modifyEngine, outcome_bind]
  have worded := isEmpty_cat (isEmpty_ofString (show "Closed " ≠ "" by decide))
    [Text.ofInt w.engine.openCount, " construct(s) left open at end of input"]
  generalize closed : w.onEngine _ = v
  have reported : v.engine.report = some r := by rw [← closed]; exact hr
  have on : v.engine.diagnosing = true := by rw [← closed]; exact balances.on
  rw [outcome_diagnose_noted reported on .info worded rfl, ← closed]
  exact ⟨_, balances.closed (n := w.engine.openCount) rfl rfl rfl rfl rfl rfl rfl⟩

theorem Balanced.op {o : Op σ} (balanced : Balanced w) (plain : IsPlain o) (onward : o.Onward) :
    Balanced ((Step.act (.op o)).outcome w).2 := by
  by_cases closing : o = .closeOpen
  · subst closing
    exact balanced_closeOpen balanced
  · obtain ⟨here, ds, balances⟩ := balanced
    refine ⟨here.op plain onward, ds, ?_⟩
    rw [books_op plain closing]
    exact balances

theorem Balanced.withdraw (balanced : Balanced w) : Balanced (withdraw.outcome w).2 := by
  obtain ⟨onward, ds, balances⟩ := balanced
  refine ⟨onward.withdraw, ds, ?_⟩
  obtain ⟨stack, aside, same⟩ := engine_withdraw w
  rw [same]
  exact balances

/-- A recovery that is counted is warned of. -/
theorem Balanced.resume (balanced : Balanced w) {origin : Int} (nonneg : 0 ≤ origin) (top : Handle) :
    Balanced ((resume top origin).outcome w).2 := by
  obtain ⟨onward, ds, balances⟩ := balanced
  refine ⟨onward.resume nonneg top, ?_⟩
  rw [Engine.resume, outcome_bind]
  have same := engine_appendPoint origin w
  generalize (appendPoint origin).outcome w = out at same
  obtain ⟨ended, w₁⟩ := out
  dsimp only at same
  rw [← same] at balances
  cases ended with
  | error f => exact ⟨ds, balances⟩
  | ok _ =>
      obtain ⟨r, hr, rfl⟩ := Option.map_eq_some_iff.mp balances.entries
      dsimp only
      rw [outcome_modifyEngine, outcome_get, outcome_log]
      generalize counted : World.mk _ _ _ _ = u
      have reported : u.engine.report = some r := by
        rw [← counted]
        exact hr
      rw [outcome_diagnose_noted reported (by rw [← counted]; exact balances.on) .warning
        (isEmpty_ofString (by decide)) (Diagnostic.checkOffset_of_nonneg nonneg), ← counted]
      refine ⟨_, balances.warned rfl rfl rfl ?_ rfl⟩
      show w₁.engine.metrics.recoveries + 1 + w₁.engine.metrics.downgrades
        = w₁.engine.metrics.recoveries + w₁.engine.metrics.downgrades + 1
      omega

/-- A needle that is kept as text is counted and warned of, and then something may still fail. -/
theorem Balanced.reject (balanced : Balanced w) (needle : Text) (position : Nat) :
    Balanced ((reject needle position).outcome w).2 := by
  obtain ⟨onward, ds, balances⟩ := balanced
  refine ⟨onward.reject needle position, ?_⟩
  rw [Engine.reject, outcome_engine]
  split
  · exact ⟨ds, balances⟩
  obtain ⟨r, hr, rfl⟩ := Option.map_eq_some_iff.mp balances.entries
  rw [downgrade, outcome_engine, outcome_log, outcome_modifyEngine, outcome_bind]
  generalize counted : World.onEngine _ _ = v
  have reported : v.engine.report = some r := by
    rw [← counted]
    exact hr
  rw [outcome_diagnose_noted reported (by rw [← counted]; exact balances.on) .warning
    (isEmpty_cat (isEmpty_ofString (by decide)) _) (Diagnostic.checkOffset_of_nonneg onward.cursor)]
  dsimp only
  generalize warned : World.onEngine v _ = u
  have after : ∃ ds, Balances u.engine.books ds := by
    rw [← warned, ← counted]
    refine ⟨_, balances.warned rfl rfl rfl ?_ rfl⟩
    show w.engine.metrics.recoveries + (w.engine.metrics.downgrades + 1)
      = w.engine.metrics.recoveries + w.engine.metrics.downgrades + 1
    omega
  cases w.engine.text.at? w.engine.cursor with
  | none => exact after
  | some c =>
      obtain ⟨ended, appended⟩ := exists_outcome_appendText [c] none u
      dsimp only
      rw [outcome_bind, appended]
      cases ended with
      | error f => exact after
      | ok _ => exact after

/-- Handing out fills in the report, but for its diagnostics, and closes the root. -/
theorem engine_handOut (w : World σ) : ∃ (change : Report → Report) (root : Option Handle)
    (stack : List Handle), (∀ r, (change r).entries = r.entries)
      ∧ (handOut.outcome w).2.engine
        = { w.engine with report := w.engine.report.map change, root := root, stack := stack } := by
  rw [handOut, outcome_engine]
  split
  · exact ⟨fun r => { r with tree := w.engine.root }, none, [], fun _ => rfl, rfl⟩
  · refine ⟨fun r => { r with output := w.engine.output }, ?_⟩
    rw [modifyReport, outcome_modifyEngine, outcome_bind]
    generalize noted : World.onEngine w _ = u
    obtain ⟨f, destroyed, -⟩ := outcome_destroyTree u
    generalize destroyTree.outcome u = out at destroyed
    obtain ⟨ended, v⟩ := out
    dsimp only at destroyed
    subst destroyed noted
    cases ended with
    | ok _ => exact ⟨none, [], fun _ => rfl, rfl⟩
    | error f => exact ⟨w.engine.root, w.engine.stack, fun _ => rfl, rfl⟩

theorem books_handOut (w : World σ) : (handOut.outcome w).2.engine.books = w.engine.books := by
  obtain ⟨change, root, stack, same, handed⟩ := engine_handOut w
  have entries : (w.engine.report.map change).map Report.entries = w.engine.report.map Report.entries := by
    rw [Option.map_map]
    exact congrArg (w.engine.report.map ·) (funext same)
  rw [handed]
  exact congrArg (fun ds => { w.engine.books with entries := ds }) entries

/-! ## Runs -/

/-- The books stay balanced through every hook. -/
theorem lasts_balanced {g : Grammar σ} (uses : ∀ n, (g.setStatus n).Uses Op.Onward) :
    Lasts g Op.Onward Balanced where
  uses n _ := uses n
  resets _ := trivial
  plain _ _ plain onward balanced := balanced.op plain onward
  recovery _ n w switches balanced := by
    refine .bind (.ending (.step balanced balanced.withdraw) fun _ _ hout =>
      (Course.outcome_take ..).symm.trans hout) fun taken w₁ withdrawn => ?_
    obtain ⟨first, withdrawn⟩ := withdrawn
    have nonneg : 0 ≤ taken.2 := balanced.1.nonneg_of_withdraw withdrawn
    exact .bind (switches w₁ first) fun _ w₂ second => .step second (second.resume nonneg taken.1)

/-- The books stay balanced through every step of the engine. -/
theorem rounds_balanced {g : Grammar σ} (uses : ∀ call : HookCall, (call.hook g).Uses Op.Onward) :
    Rounds g Balanced (fun _ => Balanced) fun _ _ _ => Balanced where
  head := id
  hand := id
  down := id
  hook call h := (lasts_balanced fun n => uses (.setStatus n)).callCourse (uses call) h
  handle status h :=
    (lasts_balanced fun n => uses (.setStatus n)).callCourse (uses (.handleStatus status _)) h
  begins h := ⟨h.1.begun, h.2⟩
  approach {_ _ position w} h _ _ := by
    refine .step h ⟨h.1.approach position, ?_⟩
    show ∃ ds, Balances ((approach position).outcome w).2.engine.books ds
    rcases approach_cases position w with ⟨f, failed⟩ | ⟨-, moved⟩
    · rw [failed]
      exact h.2
    · rw [moved]
      exact h.2
  accept {_ needle _ w} h := by
    refine .step h ⟨h.1.accept needle, ?_⟩
    show ∃ ds, Balances ((accept needle).outcome w).2.engine.books ds
    rw [outcome_accept]
    dsimp only
    split
    · exact h.2
    · exact h.2
  reject {_ needle position w} h := .step h (h.reject needle position)
  recovery {_ w} h _ :=
    (lasts_balanced fun n => uses (.setStatus n)).recovery trivial nestingLimit w
      (fun v => (lasts_balanced fun n => uses (.setStatus n)).switchCourse nestingLimit 0 v trivial) h
  rest {_ w} h := by
    refine .step h ⟨h.1.appendRest, ?_⟩
    show ∃ ds, Balances (appendRest.outcome w).2.engine.books ds
    rcases appendRest_cases w with ⟨same, -⟩ | ⟨f, failed⟩ | ⟨-, -, appended⟩
    · rw [same]
      exact h.2
    · rw [failed]
      exact h.2
    · rw [appended]
      exact h.2

end Engine

end Needlework
