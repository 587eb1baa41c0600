import Needlework.Proofs.Engine.Reports

/-!
# Two parses side by side

When two buildings have kept step, the two parses conclude in the same way: with the same
report or the same fault, and with forests that are alike.  What is not handed out is taken
down in both, and the two reports are settled by the same things.

When the buildings have come apart, a parse that succeeds tells of it: its own building has
ended well.
-/

namespace Needlework

namespace Engine

open Act

variable {σ : Type} {w v w' v' : World σ}

/-- An engine on which a parse begins. -/
def entered (override : Option Text) (e : Engine) : Engine :=
  let id := e.effectiveId override
  { e with parsing := true, callId := id, report := some { correlation := id }, metrics := {} }

/-- The hooks that a parse calls, in order. -/
def hookCalls (g : Grammar σ) (rounds : Nat) (input : Input) (override : Option Text)
    (w : World σ) : List HookCall :=
  (buildCourse g rounds input).calls ((enter override).outcome w).2

namespace Likeness

variable {L : Likeness σ}

namespace Ready

theorem alike_clearing (r : L.Ready w v) :
    Forest.Alike L.forest L.fault (fun _ => True) w.engine.clearing := by
  refine .bind (alike_discardAll fun h hh => r.inScope.detached h (List.mem_reverse.mp hh))
    fun _ _ => ?_
  cases root : w.engine.root with
  | none => exact .pure trivial
  | some h => exact L.twins.alike_destroy (r.inScope.root h root)

theorem cleared (r : L.Ready w v) :
    (cleared v).1 = (cleared w).1 ∧ L.forest (cleared w).2 (cleared v).2
      ∧ ∀ f, (cleared w).1 = .error f → L.fault f := by
  have same : v.engine.clearing = w.engine.clearing := (congrArg Engine.clearing r.kin :)
  have ends := r.alike_clearing _ _ r.forest
  rw [Engine.cleared, Engine.cleared, same]
  generalize w.engine.clearing.run w.forest = out, w.engine.clearing.run v.forest = out' at ends
  cases ends with
  | ok _ hf =>
      refine ⟨rfl, hf, fun f same => ?_⟩
      cases same
  | error he hf =>
      refine ⟨rfl, hf, fun f same => ?_⟩
      cases same
      exact he

theorem concluded (r : L.Ready w v) (rep : Report) (ended down : Except Fault Unit) :
    concluded v.engine rep ended down = concluded w.engine rep ended down :=
  (congrArg (fun e : Engine => Engine.concluded e rep ended down) r.kin :)

end Ready

/-- Parses whose buildings have kept step conclude in the same way. -/
theorem exists_outcome_parses {g : Grammar σ} {rounds : Nat} {input : Input} {override : Option Text}
    {P : Fault → Prop} (idle : w.engine.parsing = false) (idle' : v.engine.parsing = false)
    (accepted : ∀ x, input ≠ .other x)
    (agree : Agree L.Ready P Both ((build g rounds input).outcome ((enter override).outcome w).2)
      ((build g rounds input).outcome ((enter override).outcome v).2)) :
    ∃ ended rep w' v' l l', L.Ready w' v' ∧ w'.engine.report = some rep
      ∧ (parse g rounds input override).outcome w
        = (concluded w'.engine rep ended (cleared w').1,
          { w' with
            forest := (cleared w').2, log := l, engine := w'.engine.rested (cleared w').1 })
      ∧ (parse g rounds input override).outcome v
        = (concluded w'.engine rep ended (cleared w').1,
          { v' with
            forest := (cleared v').2, log := l', engine := v'.engine.rested (cleared w').1 }) := by
  obtain ⟨ended, w', v', hw, hv, ready⟩ : ∃ ended w' v',
      (build g rounds input).outcome ((enter override).outcome w).2 = (ended, w')
      ∧ (build g rounds input).outcome ((enter override).outcome v).2 = (ended, v')
      ∧ L.Ready w' v' := by
    rcases agree.cases with ⟨_, _, w', v', hw, hv, -, ready⟩ | ⟨f, w', v', hw, hv, -, ready⟩
    · exact ⟨_, w', v', hw, hv, ready⟩
    · exact ⟨_, w', v', hw, hv, ready⟩
  obtain ⟨-, rep, l, parsed, hrep, -⟩ := exists_outcome_parse idle accepted hw
  have hrep' : v'.engine.report = some rep := (congrArg Engine.report ready.kin :).trans hrep
  obtain ⟨l', parsed'⟩ := outcome_parse idle' accepted hv hrep'
  rw [ready.concluded, ready.cleared.1] at parsed'
  exact ⟨ended, rep, w', v', l, l', ready, hrep, parsed, parsed'⟩

end Likeness

/-! ## What a report tells of its building -/

variable {e : Engine} {r report : Report} {ended down : Except Fault Unit}

/-- A parse succeeds only if its building has ended well. -/
theorem eq_ok_of_concluded (h : concluded e r ended down = .ok report)
    (success : report.success = true) : ended = .ok () := by
  rw [concluded_of_not_interrupted (not_interrupted_of_concluded h)] at h
  cases ended with
  | ok _ => rfl
  | error f =>
      rw [settledBy] at h
      split at h
      · cases h
      split at h
      · cases h
      dsimp only at h
      rw [clearedBy_blamed] at h
      cases h
      rw [success_counted, Report.success_blamed] at success
      cases success

/-- The counters of a report are those of the engine, if they are collected. -/
theorem metrics_of_concluded (h : concluded e r ended down = .ok report) :
    report.metrics = if e.config.collectMetrics.truthy then e.metrics else r.metrics := by
  rw [concluded_of_not_interrupted (not_interrupted_of_concluded h)] at h
  generalize (settledBy e.diagnosing r ended).1 = settled at h
  cases settled with
  | error f => cases h
  | ok _ =>
      cases h
      rw [counted]
      split
      · rfl
      · rw [metrics_clearedBy, metrics_settledBy]

/-- The tree of a report is the tree that the building handed out. -/
theorem tree_of_concluded {h : Handle} (concludes : concluded e r ended down = .ok report)
    (tree : report.tree = some h) : r.tree = some h := by
  rw [concluded_of_not_interrupted (not_interrupted_of_concluded concludes)] at concludes
  generalize (settledBy e.diagnosing r ended).1 = settled at concludes
  cases settled with
  | error f => cases concludes
  | ok _ =>
      cases concludes
      rw [counted] at tree
      split at tree
      · exact tree_settledBy (tree_clearedBy tree)
      · exact tree_settledBy (tree_clearedBy tree)

/-- A parse that succeeds has built well, and its counters are those of the building. -/
theorem exists_build_of_success {g : Grammar σ} {rounds : Nat} {input : Input}
    {override : Option Text} (idle : w.engine.parsing = false)
    (parsed : (parse g rounds input override).outcome w = (.ok report, w'))
    (success : report.success = true) :
    ∃ w₁, (build g rounds input).outcome ((enter override).outcome w).2 = (.ok (), w₁)
      ∧ (w.engine.config.collectMetrics.truthy = true → report.metrics = w₁.engine.metrics) := by
  obtain ⟨⟨ended, w₁⟩, built⟩ : ∃ out, (build g rounds input).outcome ((enter override).outcome w).2
      = out := ⟨_, rfl⟩
  obtain ⟨config, r, l, ends, -⟩ := exists_outcome_parse idle (accepted_of_parse idle parsed) built
  rw [ends] at parsed
  have concludes : concluded w₁.engine r ended (cleared w₁).1 = .ok report :=
    congrArg Prod.fst parsed
  have well := eq_ok_of_concluded concludes success
  subst well
  refine ⟨w₁, built, fun collected => ?_⟩
  rw [metrics_of_concluded concludes, config, if_pos collected]

end Engine

end Needlework
