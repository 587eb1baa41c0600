import Needlework.Proofs.Engine.Preservation
import Needlework.Proofs.Engine.Steps

/-!
# The verdict of a parse

While the grammar works, the report of a parse gets diagnostics and nothing else
(`sameVerdict_work`).  What the parse hands out is settled afterwards, and whether it
succeeds.

A parse that reports success has come to the end of its building, has found nothing to
complain about while it cleaned up, and hands out what the building has put in the report
(`exists_of_success`).
-/

namespace Needlework

namespace Engine

open Act

variable {σ α β : Type} {w w' : World σ}

/-- The reports of two worlds differ in their diagnostics at most. -/
def SameVerdict (w w' : World σ) : Prop :=
  w'.engine.report.map Report.verdict = w.engine.report.map Report.verdict

theorem sameVerdict_op (o : Op σ) (w : World σ) : IsPlain o →
    SameVerdict w ((Step.act (.op o)).outcome w).2 := by
  intro plain
  cases o with
  | look => rfl
  | strictness => rfl
  | memory => rfl
  | remember s => rfl
  | setStatus n => exact plain.elim
  | push n =>
      show SameVerdict w ((push n).outcome w).2
      rcases push_cases n w with ⟨e, f, hout, -⟩ | ⟨top, rest, h, f, -, -, -, hout⟩
      · rw [hout]; rfl
      · rw [hout]; rfl
  | pop =>
      show SameVerdict w (pop.outcome w).2
      rcases pop_cases w with ⟨e, hout⟩ | ⟨top, next, rest, -, hout⟩
      · rw [hout]; rfl
      · rw [hout]; rfl
  | appendText t offset =>
      show SameVerdict w ((appendText t offset).outcome w).2
      rw [after_appendText]
      rfl
  | recover => exact plain.elim
  | closeOpen =>
      show SameVerdict w (closeOpen.outcome w).2
      rcases closeOpen_cases w with ⟨b, hout⟩ | hu
      · rw [hout]; rfl
      · exact hu.verdict
  | edit e =>
      show SameVerdict w ((tree e.run).outcome w).2
      rw [after_tree]
      rfl
  | tamper t => rfl
  | assign a =>
      cases a with
      | dropTop =>
          show SameVerdict w ((assign .dropTop).outcome w).2
          rw [assign, outcome_engine]
          split
          · rfl
          · rfl
      | _ => rfl
  | postfilter t => exact (unmoved_applyFilters .post t w).verdict
  | parse input override => exact (unmoved_refuseParse w).verdict

theorem sameVerdict_withdraw (w : World σ) : SameVerdict w (withdraw.outcome w).2 := by
  obtain ⟨stack, aside, same⟩ := engine_withdraw w
  rw [SameVerdict, same]

theorem sameVerdict_resume (top : Handle) (origin : Int) (w : World σ) :
    SameVerdict w ((resume top origin).outcome w).2 := by
  rcases resume_cases top origin w with ⟨e, f, hout, -⟩ | ⟨c, inner, rest, f, -, -, -, hu⟩
  · rw [hout]; rfl
  · exact hu.verdict

theorem sameVerdict_own (s : Step σ) (w : World σ) (own : IsOwn s) :
    SameVerdict w (s.act.outcome w).2 := by
  cases s with
  | beginRound => rfl
  | approach position =>
      show SameVerdict w ((approach position).outcome w).2
      rcases approach_cases position w with ⟨e, hout⟩ | ⟨-, hout⟩
      · rw [hout]; rfl
      · rw [hout]; rfl
  | accept needle =>
      show SameVerdict w ((accept needle).outcome w).2
      rw [outcome_accept]
      dsimp only
      split
      · rfl
      · rfl
  | reject needle position =>
      show SameVerdict w ((reject needle position).outcome w).2
      rcases reject_cases needle position w
        with ⟨e, w', hout, f, hu, -⟩ | ⟨c, inner, rest, f, w', -, -, -, hout, hu⟩
      · rw [hout]; exact hu.verdict
      · rw [hout]; exact hu.verdict
  | appendRest =>
      show SameVerdict w (appendRest.outcome w).2
      rcases appendRest_cases w with ⟨hout, -⟩ | ⟨e, hout⟩ | ⟨-, -, hout⟩
      · rw [hout]; rfl
      · rw [hout]; rfl
      · rw [hout]; rfl
  | reportOpen =>
      show SameVerdict w (reportOpen.outcome w).2
      rw [reportOpen, outcome_engine]
      split
      · rfl
      · rfl
  | _ => exact own.elim

theorem verdictLaws : WorkLaws (fun _ : Moment σ => True) SameVerdict where
  refl _ := rfl
  trans _ _ _ h₁ h₂ := h₂.trans h₁
  plain o w plain _ := sameVerdict_op o w plain
  recovery _ hs :=
    .bind (fun _ _ _ h₁ h₂ => h₂.trans h₁) (.take fun w _ => sameVerdict_withdraw w) fun taken =>
      .bind (fun _ _ _ h₁ h₂ => h₂.trans h₁) (hs 0) fun _ =>
      .take fun w _ => sameVerdict_resume taken.1 taken.2 w
  own s w own _ := sameVerdict_own s w own

/-- While the grammar works, nothing is settled. -/
theorem sameVerdict_work (g : Grammar σ) (rounds : Nat) (w : World σ) :
    SameVerdict w ((work g rounds).outcome w).2 := by
  rw [← follows_workCourse]
  exact verdictLaws.keeps_workCourse g rounds w fun _ _ => trivial

/-! ## Before and after the work -/

theorem sameVerdict_bind {x : Act σ α} {k : α → Act σ β} (hx : ∀ w, SameVerdict w (x.outcome w).2)
    (hk : ∀ a w, SameVerdict w ((k a).outcome w).2) : ∀ w, SameVerdict w ((x >>= k).outcome w).2 := by
  intro w
  have first := hx w
  rw [outcome_bind]
  generalize x.outcome w = out at first ⊢
  obtain ⟨r, v⟩ := out
  cases r with
  | ok a => exact (hk a v).trans first
  | error f => exact first

theorem sameVerdict_tree (x : TreeM α) (w : World σ) : SameVerdict w ((tree x).outcome w).2 := by
  rw [after_tree]
  rfl

theorem sameVerdict_discardDetached (w : World σ) :
    SameVerdict w (discardDetached.outcome w).2 := by
  rw [discardDetached, outcome_engine]
  refine sameVerdict_bind (sameVerdict_tree _) (fun _ _ => ?_) w
  rfl

theorem sameVerdict_destroyRoot (w : World σ) : SameVerdict w (destroyRoot.outcome w).2 := by
  rw [destroyRoot, outcome_engine]
  cases w.engine.root with
  | none => rfl
  | some r => exact sameVerdict_tree (Forest.destroy r) w

theorem sameVerdict_destroyTree (w : World σ) : SameVerdict w (destroyTree.outcome w).2 := by
  obtain ⟨f, destroyed, -⟩ := outcome_destroyTree w
  rw [destroyed]
  rfl

theorem sameVerdict_load (input : Input) (w : World σ) : SameVerdict w ((load input).outcome w).2 := by
  refine sameVerdict_bind (x := engine) (fun _ => rfl) (fun e => ?_) w
  refine sameVerdict_bind (fun w => ?_) fun t => ?_
  · cases inputText e.codecs e.config input with
    | ok t => rfl
    | error f => rfl
  refine sameVerdict_bind (fun w => (unmoved_applyFilters .pre t w).verdict) fun text => ?_
  refine sameVerdict_bind (fun _ => rfl) fun _ => ?_
  refine sameVerdict_bind sameVerdict_discardDetached fun _ => ?_
  refine sameVerdict_bind sameVerdict_destroyRoot fun _ => ?_
  exact fun _ => rfl

/-! ## Parses that succeed -/

/-- Whether a report is being written that does not tell of a success. -/
def Failing (w : World σ) : Prop := ∃ rep, w.engine.report = some rep ∧ rep.success = false

theorem Failing.of_verdict {rep : Report} (h : w.engine.report.map Report.verdict = some rep)
    (success : rep.success = false) : Failing w := by
  obtain ⟨rep', hr, rfl⟩ := Option.map_eq_some_iff.mp h
  exact ⟨rep', hr, success⟩

theorem SameVerdict.failing (h : SameVerdict w w') (failing : Failing w) : Failing w' := by
  obtain ⟨rep, hr, success⟩ := failing
  have verdict : w'.engine.report.map Report.verdict = some rep.verdict := by
    rw [h, hr]
    rfl
  exact .of_verdict verdict success

/-- A failure is reported. -/
theorem failing_fail (f : Fault) (reporting : w.engine.report.isSome) :
    Failing ((fail f).outcome w).2 := by
  obtain ⟨rep, hr⟩ := Option.isSome_iff_exists.mp reporting
  rw [fail, outcome_engine, outcome_log, modifyReport, outcome_modifyEngine]
  exact SameVerdict.failing (unmoved_diagnose ..).verdict ⟨_, congrArg (Option.map _) hr, rfl⟩

theorem failing_settle {f : Fault} (reporting : w.engine.report.isSome) {u : Unit}
    (h : (settle (.error f)).outcome w = (.ok u, w')) : Failing w' := by
  have ended : ((settle (.error f)).outcome w).2 = w' := by rw [h]
  rw [← ended]
  rw [settle] at h ⊢
  by_cases passes : f.passesThrough = true
  · rw [if_pos passes] at h
    cases h
  rw [if_neg passes]
  by_cases parse : f.isParseFault = true
  · rw [if_pos parse]
    exact failing_fail f reporting
  · rw [if_neg parse]
    exact failing_fail (.unexpected f) reporting

theorem isSome_report_of_sameVerdict (h : SameVerdict w w') (reporting : w.engine.report.isSome) :
    w'.engine.report.isSome := by
  have verdict := congrArg Option.isSome h
  rw [Option.isSome_map, Option.isSome_map, reporting] at verdict
  exact verdict

theorem failing_settleTeardown {f : Fault} (stays : f.passesThrough = false)
    (reporting : w.engine.report.isSome) :
    Failing ((settleTeardown (.error f)).outcome w).2 := by
  obtain ⟨rep, hr⟩ := Option.isSome_iff_exists.mp reporting
  rw [settleTeardown, stays, if_neg Bool.false_ne_true, outcome_bind]
  show Failing (outcome (engine >>= fun e : Engine =>
    if (e.report.map Report.success).getD false then fail (.teardownFailed f) else pure ())
      ((logFailure "Tree teardown failed" f).outcome w).2).2
  rw [outcome_engine]
  change Failing (outcome (if (w.engine.report.map Report.success).getD false then _ else _) _).2
  rw [hr]
  cases success : rep.success with
  | true =>
      simp only [Option.map_some, Option.getD_some, success, if_true]
      exact failing_fail _ reporting
  | false =>
      simp only [Option.map_some, Option.getD_some, success, Bool.false_eq_true, if_false]
      exact ⟨rep, hr, success⟩

/-- The cleaning up complains, or it takes down what was put aside, and the tree if there
is still one. -/
theorem tearDown_cases {u : Unit} (reporting : w.engine.report.isSome)
    (h : tearDown.outcome w = (.ok u, w')) :
    Failing w' ∨ SameVerdict w w' ∧ w'.engine.text = w.engine.text
      ∧ (w.engine.root = none → w'.forest = w.forest.after (discardAll w.engine.detached.reverse)) := by
  rw [tearDown] at h
  obtain ⟨ended, w₁, hended, h⟩ := exists_of_bind_ok h
  obtain ⟨settled, w₂, hsettled, h⟩ := exists_of_bind_ok h
  rw [outcome_modifyEngine] at h
  obtain ⟨u', w₃, hok, h⟩ := exists_of_bind_ok h
  have down := outcome_of_attempt hended
  have settles := outcome_of_attempt hsettled
  cases settled with
  | error e => cases hok
  | ok _ =>
  cases hok
  cases h
  have taken : SameVerdict w w₁ := by
    have same := sameVerdict_bind sameVerdict_discardDetached (fun _ : Unit => sameVerdict_destroyRoot) w
    rw [down] at same
    exact same
  cases ended with
  | ok _ =>
      obtain ⟨_, v, hdiscard, hdestroy⟩ := exists_of_bind_ok down
      have discarded := outcome_discardDetached hdiscard
      obtain ⟨f, destroyed, -⟩ := outcome_destroyRoot v
      rw [hdestroy] at destroyed
      dsimp only at destroyed
      cases settles
      refine .inr ⟨taken, ?_, fun empty => ?_⟩
      · show w₁.engine.text = _
        rw [destroyed, discarded]
        rfl
      · have empty' : v.engine.root = none := by
          rw [discarded]
          exact empty
        rw [destroyRoot, outcome_engine, empty'] at hdestroy
        cases hdestroy
        show w₁.forest = _
        rw [discarded]
        rfl
  | error f =>
      have stays : f.passesThrough = false := by
        by_contra passes
        rw [settleTeardown, if_pos (Bool.not_eq_false _ ▸ passes)] at settles
        cases settles
      have failing := failing_settleTeardown stays (isSome_report_of_sameVerdict taken reporting)
      rw [settles] at failing
      obtain ⟨rep, hr, success⟩ := failing
      exact .inl ⟨rep, hr, success⟩

/-- A building that ends well puts the tree in the report, unless there is an output. -/
theorem handOut_cases {u : Unit} (h : handOut.outcome w = (.ok u, w')) :
    w'.engine.root = none
      ∧ (w' = (w.onEngine fun e => { e with
            report := e.report.map fun r => { r with tree := e.root }, root := none, stack := [] })
        ∨ w'.engine.report.map Report.tree = w.engine.report.map Report.tree) := by
  rw [handOut, outcome_engine] at h
  by_cases hnull : w.engine.output.isNull = true
  · rw [if_pos hnull] at h
    cases h
    exact ⟨rfl, .inl rfl⟩
  · rw [if_neg hnull, modifyReport, outcome_modifyEngine] at h
    obtain ⟨_, v, destroyed, h⟩ := exists_of_bind_ok h
    obtain ⟨f, taken, -⟩ := outcome_destroyTree (w.onEngine fun e =>
      { e with report := e.report.map fun r => { r with output := w.engine.output } })
    rw [destroyed] at taken
    cases h
    refine ⟨rfl, .inr ?_⟩
    dsimp only at taken
    rw [taken]
    simp [World.withForest, World.onEngine, Function.comp_def]

theorem isSome_report_handOut (reporting : w.engine.report.isSome) :
    (handOut.outcome w).2.engine.report.isSome := by
  rw [handOut, outcome_engine]
  by_cases hnull : w.engine.output.isNull = true
  · rw [if_pos hnull, modifyReport, outcome_modifyEngine]
    show (w.engine.report.map _).isSome = true
    rw [Option.isSome_map]
    exact reporting
  · rw [if_neg hnull, modifyReport, outcome_modifyEngine]
    refine isSome_report_of_sameVerdict (w := w.onEngine fun e =>
      { e with report := e.report.map fun r => { r with output := w.engine.output } }) ?_ ?_
    · refine sameVerdict_bind sameVerdict_destroyTree (fun _ _ => ?_) _
      rfl
    · show (w.engine.report.map _).isSome = true
      rw [Option.isSome_map]
      exact reporting

/-- However a building ends, the report is still being written. -/
theorem isSome_report_build (g : Grammar σ) (rounds : Nat) (input : Input)
    (reporting : w.engine.report.isSome) :
    ((build g rounds input).outcome w).2.engine.report.isSome := by
  have loaded := isSome_report_of_sameVerdict (sameVerdict_load input w) reporting
  rw [build, outcome_bind]
  generalize (load input).outcome w = out at loaded ⊢
  obtain ⟨r, w₁⟩ := out
  cases r with
  | error f => exact loaded
  | ok _ =>
      have worked := isSome_report_of_sameVerdict (sameVerdict_work g rounds w₁) loaded
      dsimp only
      rw [outcome_bind]
      generalize (work g rounds).outcome w₁ = out at worked ⊢
      obtain ⟨r, w₂⟩ := out
      cases r with
      | error f => exact worked
      | ok _ => exact isSome_report_handOut worked

theorem success_refuseParse {report : Report} (h : refuseParse.outcome w = (.ok report, w')) :
    report.success = false := by
  rw [refuseParse, outcome_log, outcome_engine] at h
  dsimp only at h
  split at h
  · generalize added : Report.add _ _ _ _ _ _ = r at h
    cases r with
    | ok rep =>
        cases h
        have verdict := congrArg Report.success (Report.verdict_of_add added)
        exact verdict
    | error f => cases h
  · cases h
    rfl

/-- A parse that is not refused builds, settles its report, cleans up and hands out the
report. -/
theorem exists_of_parse {g : Grammar σ} {rounds : Nat} {input : Input} {override : Option Text}
    {report : Report} (h : (parse g rounds input override).outcome w = (.ok report, w'))
    (success : report.success = true) :
    ∃ ended w₁ w₂ w₃, (build g rounds input).outcome ((enter override).outcome w).2 = (ended, w₁)
      ∧ (settle ended).outcome w₁ = (.ok (), w₂) ∧ tearDown.outcome w₂ = (.ok (), w₃)
      ∧ report.success = (w₃.engine.report.getD {}).success
      ∧ report.tree = (w₃.engine.report.getD {}).tree ∧ w' = (leave.outcome w₃).2 := by
  have accepted : ∀ x, input = .other x → False := by
    rintro x rfl
    rw [parse, outcome_engine] at h
    split at h
    · rw [success_refuseParse h] at success
      cases success
    · cases h
  rw [parse, outcome_engine] at h
  case x => exact accepted
  split at h
  · rw [success_refuseParse h] at success
    cases success
  rw [outcome_bind] at h
  change outcome _ ((enter override).outcome w).2 = _ at h
  obtain ⟨ended, w₁, built, h⟩ := exists_of_bind_ok h
  obtain ⟨settled, w₂, settles, h⟩ := exists_of_bind_ok h
  obtain ⟨closed, w₃, closes, h⟩ := exists_of_bind_ok h
  rw [outcome_engine] at h
  obtain ⟨_, w₄, left, h⟩ := exists_of_bind_ok h
  obtain ⟨_, w₅, closedOk, h⟩ := exists_of_bind_ok h
  obtain ⟨_, w₆, settledOk, h⟩ := exists_of_bind_ok h
  cases left
  cases closed with
  | error f => cases closedOk
  | ok _ =>
  cases closedOk
  cases settled with
  | error f => cases settledOk
  | ok _ =>
  cases settledOk
  refine ⟨ended, w₁, w₂, w₃, outcome_of_attempt built, outcome_of_attempt settles,
    outcome_of_attempt closes, ?_⟩
  split at h
  · cases h
    exact ⟨rfl, rfl, rfl⟩
  · cases h
    exact ⟨rfl, rfl, rfl⟩

/-- A parse that reports success has built its tree or output, and has taken down what was
put aside. -/
theorem exists_of_success {g : Grammar σ} {rounds : Nat} {input : Input} {override : Option Text}
    {report : Report} (h : (parse g rounds input override).outcome w = (.ok report, w'))
    (success : report.success = true) :
    ∃ v, (build g rounds input).outcome ((enter override).outcome w).2 = (.ok (), v)
      ∧ v.engine.report.map Report.tree = some report.tree
      ∧ w'.forest = v.forest.after (discardAll v.engine.detached.reverse)
      ∧ w'.engine.text = v.engine.text := by
  obtain ⟨ended, w₁, w₂, w₃, built, settles, closes, hsuccess, htree, rfl⟩ := exists_of_parse h success
  have succeeding : ¬ Failing w₃ := by
    rintro ⟨rep, hr, failed⟩
    rw [hr, success, Option.getD_some, failed] at hsuccess
    cases hsuccess
  have reporting : w₁.engine.report.isSome := by
    have written := isSome_report_build g rounds input (w := ((enter override).outcome w).2) rfl
    rw [built] at written
    exact written
  cases ended with
  | error f =>
      have failing := failing_settle reporting settles
      obtain ⟨rep, hr, -⟩ := id failing
      rcases tearDown_cases (by rw [hr]; rfl) closes with failed | ⟨same, -⟩
      · exact absurd failed succeeding
      · exact absurd (same.failing failing) succeeding
  | ok _ =>
      have logged : w₂.engine = w₁.engine ∧ w₂.forest = w₁.forest := by
        cases settles
        exact ⟨rfl, rfl⟩
      obtain ⟨hengine, hlogged⟩ := logged
      have empty : w₁.engine.root = none := by
        obtain ⟨_, v₁, -, rest⟩ := exists_of_bind_ok built
        obtain ⟨_, v₂, -, handed⟩ := exists_of_bind_ok rest
        exact (handOut_cases handed).1
      rw [← hengine] at reporting empty
      rcases tearDown_cases reporting closes with failed | ⟨same, htext, hforest⟩
      · exact absurd failed succeeding
      obtain ⟨rep, hr⟩ := Option.isSome_iff_exists.mp (isSome_report_of_sameVerdict same reporting)
      have trees := congrArg (Option.map Report.tree) same
      rw [Option.map_map, Option.map_map, hengine] at trees
      refine ⟨w₁, built, ?_, (hforest empty).trans ?_, htext.trans ?_⟩
      · rw [htree]
        refine Eq.trans trees.symm ?_
        rw [hr]
        rfl
      · rw [hlogged, hengine]
      · rw [hengine]

end Engine

end Needlework
