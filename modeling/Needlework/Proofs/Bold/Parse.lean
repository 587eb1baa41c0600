import Needlework.Proofs.Bold.Scan
import Needlework.Proofs.Engine.Counters
import Needlework.Proofs.Engine.Release
import Needlework.Proofs.Engine.Returning
import Needlework.Proofs.Engine.StrictMode

/-!
# Parses of bold markup

Without filters a parse of bold markup makes of a text what the description of the text makes of it
(`parse_renders_reference`).  The scan builds a tree that renders to this HTML.  What is left to show is
that the rest of the parse does not get in its way.

* The parse begins its scan under a new root, with the whole text before it.
* When the scan is done, nothing is open.  So there is nothing to close, and the output is what the
  tree renders to.
* The tree is destroyed when the output is handed out, and what was put aside is discarded.  Neither
  fails.
-/

namespace Needlework.Bold

open Engine Act

variable {σ : Type} {w w' : World σ} {c : Config} {strict : Bool} {r : Handle} {k n : Nat}
  {html : Text} {f : Forest}

/-! ## Before the scan -/

/-- Without filters a text is left as it is. -/
theorem outcome_applyFilters_of_none (filters : w.engine.filters = {}) (kind : FilterKind) (t : Text) :
    (applyFilters kind t).outcome w = (.ok t, w) := by
  rw [applyFilters, outcome_engine, filters]
  cases kind with
  | pre => rfl
  | post => rfl

/-- A scan begins under a new root, outside of bold text and with nothing before it. -/
theorem exists_begun (idle : w.engine.Idle) (wf : w.forest.WellFormed) (filters : w.engine.filters = {})
    (t : Text) (override : Option Text) : ∃ u v r,
    (load (.text t)).outcome ((enter override).outcome w).2 = (.ok (), u)
      ∧ (require (grammar σ) .init (grammar σ).init).outcome u = (.ok (), v)
      ∧ Scene w.engine.config w.engine.isStrict r 0 v ∧ Outside r [] t [] v := by
  have read : (Likeness.readText (.text t)).outcome ((enter override).outcome w).2
      = (.ok t, ((enter override).outcome w).2) := by
    rw [Likeness.readText, outcome_engine]
    exact outcome_applyFilters_of_none (w := ((enter override).outcome w).2) filters .pre t
  obtain ⟨l, loads⟩ := outcome_load_ok (w := ((enter override).outcome w).2) idle.root idle.detached read
  have switches : ∀ u : World σ, (require (grammar σ) .init (grammar σ).init).outcome u
      = (.ok (), u.onEngine (switched inText openMark)) := fun u => by
    have called : (callHook (grammar σ) (grammar σ).init).outcome u
        = (.ok true, u.onEngine (switched inText openMark)) :=
      outcome_run_ask (o := .setStatus inText) _ (outcome_switch_inText u)
    rw [require, outcome_bind, called]
    rfl
  have node : (w.forest.add .root).2.node w.forest.size = Blueprint.root.build w.forest.nextId := by
    rw [Forest.node_add, if_pos rfl]
  refine ⟨_, _, w.forest.size, loads, switches _, ?_, rfl, rfl, rfl, rfl, rfl, ?_⟩
  · refine ⟨⟨wf.add .root, ?_, ?_, ?_, fun d hd => absurd hd List.not_mem_nil⟩, rfl, rfl, filters, rfl,
      rfl, _, rfl, fun _ => rfl⟩
    · show w.forest.size < (w.forest.add .root).2.size
      rw [Forest.size_add]
      exact Nat.lt_succ_self _
    · show ((w.forest.add .root).2.node w.forest.size).kind = rootKind
      rw [node]
      rfl
    · show ((w.forest.add .root).2.node w.forest.size).teardown? = none
      rw [node]
      rfl
  · show Renders (w.forest.add .root).2 2 ((w.forest.add .root).2.children w.forest.size) []
    rw [Forest.children, node]
    exact .nil

/-! ## After the scan -/

/-- When the scan is done, nothing is open, and the output is what the tree renders to. -/
theorem outcome_worked (scene : Scene c strict r k w) (done : Done r html w) :
    outcome (do
        finish (grammar σ)
        require (grammar σ) .modifyTree (grammar σ).modifyTree
        require (grammar σ) .outputTree (grammar σ).outputTree) w
      = (.ok (), w.onEngine fun e => { e with output := .text html }) := by
  have closed : (callHook (grammar σ) (grammar σ).closeRemainingBlocks).outcome w = (.ok true, w) := by
    have none : ¬ 0 < w.engine.openCount := by
      rw [openCount, done.stack]
      exact Int.lt_irrefl 0
    exact outcome_run_last (o := .closeOpen) (outcome_closeOpen_of_none none)
  have rendered : render w.forest r = html :=
    flatMap_renderNode done.rendered (Nat.succ_le_succ (Nat.one_le_of_lt scene.ground.known))
  have output : (callHook (grammar σ) (grammar σ).outputTree).outcome w
      = (.ok true, w.onEngine fun e => { e with output := .text html }) := by
    refine (outcome_run_ask (w := w) (o := .look) _ rfl).trans ?_
    dsimp only [view]
    rw [scene.root]
    dsimp only
    rw [rendered]
    refine (outcome_run_ask (o := .postfilter html) _
      (outcome_applyFilters_of_none scene.filters .post html)).trans ?_
    exact outcome_run_ask (o := .assign (.output (.text html))) _ rfl
  have finished : (finish (grammar σ)).outcome w = (.ok (), w) := by
    rw [finish, outcome_bind, closed]
    rfl
  have modified : (require (grammar σ) .modifyTree (grammar σ).modifyTree).outcome w = (.ok (), w) := rfl
  rw [outcome_bind, finished]
  dsimp only
  rw [outcome_bind, modified]
  dsimp only
  rw [require, outcome_bind, output]
  rfl

/-! ## Taking down -/

/-- When there is no root, and nothing but spare nodes was put aside, the teardown does not fail. -/
theorem cleared_of_spare (root : w.engine.root = none) (wf : w.forest.WellFormed)
    (spare : ∀ d ∈ w.engine.detached, Spare w.forest d) : (cleared w).1 = .ok () := by
  have spare' : ∀ d ∈ w.engine.detached.reverse, Spare w.forest d := fun d hd =>
    spare d (List.mem_reverse.1 hd)
  obtain ⟨f, discarded⟩ := exists_discardAll_of_spare wf spare'
  rw [cleared, clearing, root, EStateM.run_bind, discarded]
  rfl

/-- When nothing below the root fails to be torn down, the teardown of a scan does not fail. -/
theorem Scene.cleared (scene : Scene c strict r k w)
    (firm : ∀ x, w.forest.Over r x → (w.forest.node x).teardown? = none) :
    (cleared w).1 = .ok () := by
  have ground := scene.ground
  have wf := ground.wellFormed
  have spare : ∀ d ∈ w.engine.detached.reverse, Spare w.forest d := fun d hd =>
    (ground.spare d (List.mem_reverse.1 hd)).2
  obtain ⟨g, discarded⟩ := exists_discardAll_of_spare wf spare
  obtain ⟨f, clears, -⟩ := exists_clearing_of_root wf scene.root ground.known
    (wf.rootFree r ground.kind) (fun aside => (ground.spare r aside).1 rfl) firm discarded
  rw [Engine.cleared, clears]

/-- A building that has rendered its text: the tree is gone, and nothing stands in the way of the
teardown. -/
structure Rendered (c : Config) (k : Nat) (html : Text) (w : World σ) : Prop where
  clean : (cleared w).1 = .ok ()
  recoveries : w.engine.metrics.recoveries = k
  reported : ∃ rep, w.engine.report = some rep ∧ rep.output = .text html
    ∧ (c.enableDiagnostics.truthy = true →
      (Diagnostic.ofSeverity .warning rep.entries).length = k)

/-- The output is handed out, and the tree goes. -/
theorem exists_handOut (scene : Scene c strict r k w) (done : Done r html w) : ∃ w',
    handOut.outcome (w.onEngine fun e => { e with output := .text html }) = (.ok (), w')
      ∧ Rendered c k html w' := by
  have ground := scene.ground
  have wf := ground.wellFormed
  have top : w.forest.parent r = none := wf.rootFree r ground.kind
  have firm : ∀ x, w.forest.Over r x → (w.forest.node x).teardown? = none := by
    intro x below
    rcases Relation.ReflTransGen.cases_tail below with rfl | ⟨d, above, parent⟩
    · exact ground.firm
    · exact done.rendered.sturdy wf d ((wf.linked r d).1 parent) x above
  obtain ⟨f, destroyed, -, others⟩ := wf.exists_destroy top ground.known firm
  have kept := Forest.steady_destroy r w.forest
  have wg := wf.after_destroy r
  rw [Forest.after_of_ok destroyed] at kept wg
  have handed := outcome_handOut_of_output (f := f)
    (w := w.onEngine fun e => { e with output := .text html }) rfl scene.root destroyed
  refine ⟨_, handed, cleared_of_spare rfl wg fun d hd => ?_, scene.recoveries, ?_⟩
  · obtain ⟨ne, spare⟩ := ground.spare d hd
    exact spare.of_node_eq kept.size
      (others d fun below => ne (below.eq_of_parent_none spare.parent).symm)
  · obtain ⟨rep, reported, warnings⟩ := scene.warned
    refine ⟨{ rep with output := .text html }, ?_, rfl, warnings⟩
    show w.engine.report.map _ = _
    rw [reported]
    rfl

/-! ## Reports -/

section Report

variable {g : Grammar σ} {input : Input} {override : Option Text}

/-- A building that has rendered its text is reported as a success. -/
theorem exists_report_of_rendered (idle : w.engine.parsing = false) (accepted : ∀ x, input ≠ .other x)
    (built : (build g n input).outcome ((enter override).outcome w).2 = (.ok (), w'))
    (rendered : Rendered w.engine.config k html w') :
    ∃ report v, (parse g n input override).outcome w = (.ok report, v)
      ∧ report.success = true ∧ report.error = none ∧ report.tree = none ∧ report.output = .text html
      ∧ (w.engine.config.collectMetrics.truthy = true → report.metrics.recoveries = k)
      ∧ (w.engine.diagnosing = true → report.warnings.length = k) := by
  obtain ⟨clean, recoveries, rep, reported, output, warnings⟩ := rendered
  obtain ⟨config, rep', l, ends, reported', success, error, entries, product⟩ :=
    exists_outcome_parse idle accepted built
  rw [reported] at reported'
  cases reported'
  have concludes : concluded w'.engine rep (.ok ()) (cleared w').1 = .ok (w'.engine.counted rep) := by
    rw [clean]
    rfl
  have succeeds := (shape_of_concluded success error (product rfl) entries concludes).resolve_right
    fun ⟨f, down, _⟩ => by rw [clean] at down; cases down
  have text : (w'.engine.counted rep).output = .text html := by
    rw [counted]
    split
    · exact output
    · exact output
  have tree : (w'.engine.counted rep).tree = none := by
    rcases succeeds.2 with (⟨-, other⟩ | ⟨-, other⟩) | ⟨-, tree, -⟩
    · exact absurd (fun null => by rw [text] at null; cases null) other
    · exact not_not.1 other
    · exact tree
  rw [concludes] at ends
  refine ⟨_, _, ends, succeeds.1.success, succeeds.1.error, tree, text, fun collected => ?_,
    fun on => ?_⟩
  · rw [metrics_of_concluded concludes, config, if_pos collected]
    exact recoveries
  · rw [Report.warnings, Report.diagnostics, Diagnostic.ofSeverity, List.filter_reverse,
      List.length_reverse]
    exact (congrArg List.length (ofSeverity_of_concluded (s := .warning) (by decide) concludes)).trans
      (warnings on)

/-- A building that fails by a fault of the library is reported as a failure, if its teardown is not
interrupted. -/
theorem exists_report_of_own {fault : Fault} (own : fault.IsOwn) (idle : w.engine.parsing = false)
    (accepted : ∀ x, input ≠ .other x)
    (built : (build g n input).outcome ((enter override).outcome w).2 = (.error fault, w'))
    (stays : interrupted (cleared w').1 = false) :
    ∃ report v, (parse g n input override).outcome w = (.ok report, v)
      ∧ report.Fails w'.engine.diagnosing (ruling fault) := by
  obtain ⟨-, rep, l, ends, -, -, -, entries, -⟩ := exists_outcome_parse idle accepted built
  have settled : (settledBy w'.engine.diagnosing rep (.error fault)).1 = .ok () :=
    settledBy_eq_ok fun f hf => by
      cases hf
      exact own.reportable _
  obtain ⟨report, concludes⟩ : ∃ report,
      concluded w'.engine rep (.error fault) (cleared w').1 = .ok report := by
    rw [concluded_of_not_interrupted stays, settled]
    exact ⟨_, rfl⟩
  rw [concludes] at ends
  exact ⟨report, _, ends, fails_of_concluded entries concludes⟩

end Report

/-! ## Whole parses -/

/-- A configuration that allows a number of recoveries. -/
def Allows (c : Config) (n : Nat) : Prop :=
  ∀ k < n, (c.maxRecoveries.leInt? (k : Nat)).getD false = false

/-- A parse of bold markup renders a text as it is described.  What is never closed is told by the
recoveries and the warnings, and it fails a parse in strict mode. -/
theorem parse_renders_reference (idle : w.engine.Idle) (wf : w.forest.WellFormed)
    (filters : w.engine.filters = {}) (t : Text) (override : Option Text) (enough : rounds t ≤ n)
    (allowed : w.engine.isStrict = false → Allows w.engine.config (unclosed t)) :
    ∃ report w', (parse (grammar σ) n (.text t) override).outcome w = (.ok report, w')
      ∧ (w.engine.isStrict = false ∨ unclosed t = 0 →
        report.success = true ∧ report.error = none ∧ report.tree = none
          ∧ report.output = .text (reference t)
          ∧ (w.engine.config.collectMetrics.truthy = true → report.metrics.recoveries = unclosed t)
          ∧ (w.engine.diagnosing = true → report.warnings.length = unclosed t))
      ∧ (w.engine.isStrict = true → 0 < unclosed t →
        report.success = false ∧ (∃ cause, report.error = some (.strict cause))
          ∧ report.tree = none ∧ report.output = .null) := by
  obtain ⟨u, v, r, loads, begins, scene, outside⟩ := exists_begun (σ := σ) idle wf filters t override
  have scans := scanned (n := n) (by rw [rounds] at enough; omega) scene outside
    fun lenient j _ low => allowed lenient j (by omega)
  rw [Nat.zero_add, List.nil_append] at scans
  have accepted : ∀ x, Input.text t ≠ .other x := fun x same => by cases same
  cases ended : (scan (grammar σ) n).outcome v with
  | mk out v' =>
  rw [ended] at scans
  cases scans with
  | done whole scene done =>
      have worked : (work (grammar σ) n).outcome u
          = (.ok (), v'.onEngine fun e => { e with output := .text (reference t) }) := by
        rw [work, outcome_bind, begins]
        dsimp only
        rw [outcome_bind, ended]
        exact outcome_worked scene done
      obtain ⟨w₁, handed, rendered⟩ := exists_handOut scene done
      have built := (outcome_build_of_ok loads worked).trans handed
      obtain ⟨report, w', parsed, well⟩ :=
        exists_report_of_rendered idle.parsing accepted built rendered
      exact ⟨report, w', parsed, fun _ => well, fun mode left =>
        absurd (whole mode) (Nat.ne_of_gt left)⟩
  | @failed _ cause _ mode left scene firm =>
      have worked : (work (grammar σ) n).outcome u = (.error (.strict cause), v') := by
        rw [work, outcome_bind, begins]
        dsimp only
        rw [outcome_bind, ended]
      have own : (Fault.strict cause).IsOwn := trivial
      obtain ⟨report, w', parsed, fails⟩ := exists_report_of_own own idle.parsing accepted
        (outcome_build_of_error loads worked) (by rw [scene.cleared firm]; rfl)
      refine ⟨report, w', parsed, fun well => ?_, fun _ _ =>
        ⟨fails.success, ⟨cause, fails.error⟩, fails.tree, fails.output⟩⟩
      rcases well with lenient | whole
      · rw [mode] at lenient
        cases lenient
      · exact absurd whole (Nat.ne_of_gt left)

/-- A text with a mark that is closed and one that is not. -/
def mixed : Text := openMark ++ [0x78] ++ closeMark ++ [0x26] ++ openMark

theorem parse_renders_reference_mixed :
    (∃ report w', (parse (grammar Unit) (rounds mixed) (.text mixed) none).outcome { memory := () }
        = (.ok report, w') ∧ report.success = true
      ∧ report.output
        = .text (strongStart ++ [0x78] ++ strongEnd ++ Text.ofChars ['&', 'a', 'm', 'p', ';'] ++ openMark)
      ∧ report.metrics.recoveries = 1 ∧ report.warnings.length = 1)
    ∧ ∃ report w', (parse (grammar Unit) (rounds mixed) (.text mixed) none).outcome strictStart
        = (.ok report, w') ∧ report.success = false ∧ report.output = .null := by
  have closed : firstBold? mixed = some ([], [0x78], 0x26 :: openMark) := by decide
  have dangling : firstBold? (0x26 :: openMark) = none := by decide
  have html : reference mixed
      = strongStart ++ [0x78] ++ strongEnd ++ Text.ofChars ['&', 'a', 'm', 'p', ';'] ++ openMark := by
    rw [reference_of_some closed, reference_of_none dangling]
    decide
  have left : unclosed mixed = 1 := by
    rw [unclosed, remainder_of_some closed, remainder_of_none dangling]
    decide
  constructor
  · obtain ⟨report, w', parsed, well, -⟩ := parse_renders_reference (w := { memory := () })
      (atRest_make {} none).idle (.of_size_eq_zero rfl) rfl mixed none (Nat.le_refl _)
      fun _ _ _ => rfl
    obtain ⟨success, -, -, output, recoveries, warnings⟩ := well (.inl rfl)
    rw [html] at output
    rw [left] at recoveries warnings
    exact ⟨report, w', parsed, success, output, recoveries rfl, warnings rfl⟩
  · obtain ⟨report, w', parsed, -, ill⟩ := parse_renders_reference (w := strictStart)
      (atRest_make .strictMode none).idle (.of_size_eq_zero rfl) rfl mixed none (Nat.le_refl _)
      fun lenient => by cases lenient
    obtain ⟨success, -, -, output⟩ := ill rfl (by rw [left]; exact Nat.one_pos)
    exact ⟨report, w', parsed, success, output⟩

end Needlework.Bold
