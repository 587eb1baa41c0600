import Needlework.Proofs.Engine.Counters
import Needlework.Proofs.Engine.Returning
import Needlework.Proofs.Engine.Watching

/-!
# Diagnostics, counters and names are observers

How a parse is watched makes no difference to what it does.  Two engines that are the same but for
whether they record diagnostics and hand out counters, and for their name, call the same hooks, and
return or raise the same, but for what is recorded.  In particular the limit on recoveries holds
without counters too, since the engine counts for itself.

Hooks must not look at what is recorded.  All that they can see of it is in the report of a parse
that is refused (`Hook.Incurious`).  And there are two ways in which a diagnostic can fail, since
it must have a wording and must not lie before the text.  So hooks and filters raise no parse fault
without a wording (`Fault.Worded`), and hooks stay in the text (`Op.Onward`).
-/

namespace Needlework

/-- A fault that can be told of, since it has a wording or is no parse fault. -/
def Fault.Worded (f : Fault) : Prop := f.isParseFault = true → f.message.isEmpty = false

/-- A hook that goes on in one way after replies that differ in what is recorded. -/
def Hook.Incurious {σ α : Type} : Hook σ α → Prop
  | .done _ => True
  | .raise _ => True
  | .call o next => (∀ a b, Engine.Op.SameReply o a b → next (.ok a) = next (.ok b))
      ∧ ∀ r, (next r).Incurious

namespace Engine

open Act

variable {σ α β α' β' : Type} {w v : World σ}

/-! ## Courses side by side -/

/-- Peers of which the first is onward. -/
def Paired (w v : World σ) : Prop := Peers w v ∧ Onward w

/-- Two courses end in the same way, leave related worlds, and call the same hooks. -/
structure Abreast (R : World σ → World σ → Prop) (Q : α → β → Prop) (p : Course σ α)
    (q : Course σ β) (w v : World σ) : Prop where
  agree : Agree R (fun _ => True) Q (p.outcome w) (q.outcome v)
  calls : q.calls v = p.calls w

namespace Abreast

variable {R : World σ → World σ → Prop} {Q : α → β → Prop} {Q' : α' → β' → Prop}

theorem done {a : α} {b : β} (hq : Q a b) (related : R w v) : Abreast R Q (.done a) (.done b) w v :=
  ⟨.ok hq related, rfl⟩

theorem raise (f : Fault) (related : R w v) : Abreast R Q (.raise f) (.raise f) w v :=
  ⟨.error trivial related, rfl⟩

theorem step (s : Step σ) {Q : s.Reply → s.Reply → Prop}
    (ends : Agree R (fun _ => True) Q (s.act.outcome w) (s.act.outcome v)) :
    Abreast R Q (.take s) (.take s) w v where
  agree := by
    rw [Course.outcome_take, Course.outcome_take]
    exact ends
  calls := by rw [Course.calls_take, Course.calls_take]

theorem of_ok {p : Course σ α} {q : Course σ β} {k : α → Course σ α'} {l : β → Course σ β'} {a : α}
    {b : β} {w' v' : World σ} (ha : p.outcome w = (.ok a, w')) (hb : q.outcome v = (.ok b, v'))
    (calls : q.calls v = p.calls w) (rest : Abreast R Q' (k a) (l b) w' v') :
    Abreast R Q' (p >>= k) (q >>= l) w v where
  agree := by
    rw [Course.outcome_andThen_ok ha, Course.outcome_andThen_ok hb]
    exact rest.agree
  calls := by
    rw [Course.calls_andThen, Course.calls_andThen, ha, hb, calls]
    exact congrArg _ rest.calls

theorem of_error {p : Course σ α} {q : Course σ β} {k : α → Course σ α'} {l : β → Course σ β'}
    {f : Fault} {w' v' : World σ} (ha : p.outcome w = (.error f, w'))
    (hb : q.outcome v = (.error f, v')) (calls : q.calls v = p.calls w) (related : R w' v') :
    Abreast R Q' (p >>= k) (q >>= l) w v where
  agree := by
    rw [Course.outcome_andThen_error ha, Course.outcome_andThen_error hb]
    exact .error trivial related
  calls := by
    rw [Course.calls_andThen, Course.calls_andThen, ha, hb, calls]

theorem bind {p : Course σ α} {q : Course σ β} {k : α → Course σ α'} {l : β → Course σ β'}
    (hp : Abreast R Q p q w v) (hk : ∀ a b w v, Q a b → R w v → Abreast R Q' (k a) (l b) w v) :
    Abreast R Q' (p >>= k) (q >>= l) w v := by
  rcases hp.agree.cases with ⟨a, b, w', v', ha, hb, hq, related⟩ | ⟨f, w', v', ha, hb, -, related⟩
  · exact .of_ok ha hb hp.calls (hk a b w' v' hq related)
  · exact .of_error ha hb hp.calls related

theorem attempt {p : Course σ α} {q : Course σ β} (hp : Abreast R Q p q w v) :
    Abreast R (Answers (fun _ => True) Q) p.attempt q.attempt w v where
  agree := by
    rw [Course.outcome_attempt, Course.outcome_attempt]
    exact .ok hp.agree.answers hp.agree.worlds
  calls := by rw [Course.calls_attempt, Course.calls_attempt, hp.calls]

/-- What is known of the outcome of the first course may be added to what the results share. -/
theorem ending {p : Course σ α} {q : Course σ β} {H : α → Prop} (hp : Abreast R Q p q w v)
    (known : ∀ a w', p.outcome w = (.ok a, w') → H a) :
    Abreast R (fun a b => Q a b ∧ H a) p q w v := by
  refine ⟨?_, hp.calls⟩
  rcases hp.agree.cases with ⟨a, b, w', v', ha, hb, hq, related⟩ | ⟨f, w', v', ha, hb, -, related⟩
  · rw [ha, hb]
    exact .ok ⟨hq, known a w' ha⟩ related
  · rw [ha, hb]
    exact .error trivial related

end Abreast

/-- A step that ends in the same way in peers keeps pairs abreast, if it stays onward. -/
theorem Abreast.take (s : Step σ) {Q : s.Reply → s.Reply → Prop} (ends : Likewise Q s.act w v)
    (onward : Onward (s.act.outcome w).2) : Abreast Paired Q (.take s) (.take s) w v :=
  .step s ⟨ends.answers, ends.worlds, onward⟩

/-! ## Hooks -/

/-- Switching the status keeps pairs abreast. -/
def Abreasts (switch : Int → Course σ Unit) : Prop :=
  ∀ n w v, Paired w v → Abreast Paired Eq (switch n) (switch n) w v

theorem abreast_recoverCourse {switch : Int → Course σ Unit} (hs : Abreasts switch)
    (pair : Paired w v) : Abreast Paired Eq (recoverCourse switch) (recoverCourse switch) w v := by
  have withdrawn : Abreast Paired Eq (Course.take .withdraw) (Course.take .withdraw) w v :=
    .take .withdraw (likewise_withdraw pair.1) pair.2.withdraw
  refine .bind (withdrawn.ending (H := fun taken => 0 ≤ taken.2) fun taken w' hout =>
    pair.2.nonneg_of_withdraw ((Course.outcome_take ..).symm.trans hout)) fun taken taken' w v same pair => ?_
  obtain ⟨rfl, nonneg⟩ := same
  refine .bind (hs 0 w v pair) fun _ _ w v _ pair => ?_
  exact .take (.resume _ _) (likewise_resume taken.1 nonneg pair.1) (pair.2.resume nonneg taken.1)

theorem abreast_opCourse {switch : Int → Course σ Unit} (hs : Abreasts switch) {o : Op σ}
    (onward : o.Onward) (pair : Paired w v) :
    Abreast Paired (Op.SameReply o) (opCourse switch o) (opCourse switch o) w v := by
  cases o with
  | setStatus n => exact hs n w v pair
  | recover => exact abreast_recoverCourse hs pair
  | _ => exact .take (.op _) (likewise_op trivial pair.1) (pair.2.op trivial onward)

theorem abreast_hookCourse {switch : Int → Course σ Unit} (hs : Abreasts switch) {h : Hook σ α}
    (uses : h.Uses Op.Onward) (incurious : h.Incurious) (pair : Paired w v) :
    Abreast Paired Eq (hookCourse switch h) (hookCourse switch h) w v := by
  induction h generalizing w v with
  | done a => exact .done rfl pair
  | raise f => exact .raise f pair
  | call o next ih =>
      refine .bind (abreast_opCourse hs uses.1 pair).attempt fun r r' w v hr pair => ?_
      have same : next r = next r' := by
        cases hr with
        | ok alike => exact incurious.1 _ _ alike
        | error => rfl
      rw [← same]
      exact ih r (uses.2 r) (incurious.2 r) pair

section Grammar

variable {g : Grammar σ} (uses : ∀ call : HookCall, (call.hook g).Uses Op.Onward)
  (incurious : ∀ call : HookCall, (call.hook g).Incurious)

include uses incurious

theorem abreasts_switchCourse : ∀ n, Abreasts (switchCourse g n)
  | 0 => fun _ _ _ pair => .raise _ pair
  | n + 1 => by
      intro status w v pair
      refine .bind (.take (.enter _) (.ok rfl pair.1) pair.2) fun _ _ w v _ pair => ?_
      refine .bind (abreast_hookCourse (abreasts_switchCourse n) (uses (.setStatus status))
        (incurious (.setStatus status)) pair) fun b b' w v same pair => ?_
      subst same
      cases b with
      | true => exact .done rfl pair
      | false => exact .raise _ pair

theorem abreast_callCourse (call : HookCall) (pair : Paired w v) :
    Abreast Paired Eq (callCourse g call) (callCourse g call) w v := by
  refine .bind (.take (.enter call) (.ok rfl pair.1) pair.2) fun _ _ w v _ pair => ?_
  exact abreast_hookCourse (abreasts_switchCourse uses incurious nestingLimit) (uses call)
    (incurious call) pair

/-! ## Rounds -/

theorem abreast_needleCourse (needle : Text) (position : Nat) (pair : Paired w v) :
    Abreast Paired Eq (needleCourse g needle position) (needleCourse g needle position) w v := by
  refine .bind (.take (.approach position) (likewise_approach position pair.1)
    (pair.2.approach position)) fun status status' w v same pair => ?_
  subst same
  refine .bind (abreast_callCourse uses incurious _ pair) fun accepted accepted' w v same pair => ?_
  subst same
  cases accepted with
  | true => exact .take (.accept needle) (likewise_accept needle pair.1) (pair.2.accept needle)
  | false =>
      exact .take (.reject needle position) (likewise_reject pair.2 needle position pair.1)
        (pair.2.reject needle position)

theorem abreast_roundCourse (pair : Paired w v) :
    Abreast Paired Eq (roundCourse g) (roundCourse g) w v := by
  refine .bind (.take .beginRound (likewise_beginRound pair.1) pair.2.begun) fun e e' w v same pair => ?_
  obtain ⟨c, r, -, rfl⟩ := same
  have strict : Engine.isStrict { e with config := c, report := r } = Engine.isStrict e := rfl
  have opened : Engine.openCount { e with config := c, report := r } = Engine.openCount e := rfl
  rw [strict, opened]
  dsimp only
  split
  next needle position _ =>
    exact .bind (abreast_needleCourse uses incurious needle position pair) fun _ _ _ _ _ pair =>
      .done rfl pair
  next =>
    split
    · exact .done rfl pair
    · split
      · exact .raise _ pair
      · have recovery := abreast_recoverCourse (abreasts_switchCourse uses incurious nestingLimit)
          pair
        exact .bind recovery fun _ _ _ _ _ pair => .done rfl pair

theorem abreast_scanCourse (n : Nat) (pair : Paired w v) :
    Abreast Paired Eq (scanCourse g n) (scanCourse g n) w v := by
  induction n generalizing w v with
  | zero => exact .raise _ pair
  | succ n ih =>
    refine .bind (abreast_roundCourse uses incurious pair) fun again again' w v same pair => ?_
    subst same
    cases again with
    | true => exact ih pair
    | false => exact .take .appendRest (likewise_appendRest pair.1) pair.2.appendRest

/-! ## Whole parses -/

theorem abreast_requireCourse (name : HookName) (call : HookCall) (pair : Paired w v) :
    Abreast Paired Eq (requireCourse g name call) (requireCourse g name call) w v := by
  refine .bind (abreast_callCourse uses incurious call pair) fun accepted accepted' w v same pair => ?_
  subst same
  cases accepted with
  | true => exact .done rfl pair
  | false => exact .raise _ pair

theorem abreast_finishCourse (pair : Paired w v) :
    Abreast Paired Eq (finishCourse g) (finishCourse g) w v := by
  refine .bind (abreast_callCourse uses incurious _ pair) fun closed closed' w v same pair => ?_
  subst same
  cases closed with
  | true => exact .done rfl pair
  | false =>
      refine .take .reportOpen (likewise_reportOpen pair.1) ?_
      show Onward (reportOpen.outcome w).2
      rw [reportOpen, outcome_engine]
      split
      · exact pair.2
      · exact pair.2

theorem abreast_workCourse (n : Nat) (pair : Paired w v) :
    Abreast Paired Eq (workCourse g n) (workCourse g n) w v :=
  .bind (abreast_requireCourse uses incurious .init .init pair) fun _ _ _ _ _ pair =>
    .bind (abreast_scanCourse uses incurious n pair) fun _ _ _ _ _ pair =>
    .bind (abreast_finishCourse uses incurious pair) fun _ _ _ _ _ pair =>
    .bind (abreast_requireCourse uses incurious .modifyTree .modifyTree pair) fun _ _ _ _ _ pair =>
    abreast_requireCourse uses incurious .outputTree .outputTree pair

end Grammar

/-- Buildings go the same way in peers, however they are watched. -/
theorem abreast_buildCourse {g : Grammar σ} (uses : ∀ call : HookCall, (call.hook g).Uses Op.Onward)
    (incurious : ∀ call : HookCall, (call.hook g).Incurious) (forward : w.forest.Forward) (n : Nat)
    (input : Input) (peers : Peers w v) :
    Abreast Peers Eq (buildCourse g n input) (buildCourse g n input) w v := by
  have loads : Abreast Peers Eq (Course.take (.load input)) (Course.take (.load input)) w v :=
    .step (.load input) (likewise_load input peers)
  rcases loads.agree.cases with ⟨_, _, w', v', hw, hv, -, peers⟩ | ⟨f, w', v', hw, hv, -, peers⟩
  · obtain ⟨f, begins⟩ := begins_of_load ((Course.outcome_take ..).symm.trans hw)
    have work := abreast_workCourse uses incurious n ⟨peers, begins.onward forward⟩
    have worked : Abreast Peers Eq (workCourse g n) (workCourse g n) w' v' :=
      ⟨⟨work.agree.answers, work.agree.worlds.1⟩, work.calls⟩
    exact .of_ok hw hv loads.calls (worked.bind fun _ _ _ _ _ peers =>
      .step .handOut (likewise_handOut peers))
  · exact .of_error hw hv loads.calls peers

/-! ## How parses conclude -/

section Reports

variable {e e' : Engine} {r r' : Report} {ended down : Except Fault Unit}

theorem bare_counted (e : Engine) (r : Report) : (e.counted r).bare = r.bare := by
  rw [counted]
  split
  · rfl
  · rfl

/-- Blame puts the same in two reports, but for the diagnostic. -/
theorem bare_blamed (same : r'.bare = r.bare) (on on' : Bool) (f : Fault) :
    (r'.blamed on' f).bare = (r.blamed on f).bare := by
  have bare : ∀ (on : Bool) (r : Report), (r.blamed on f).bare = (r.bare.failed f) := fun on r => by
    cases on <;> rfl
  rw [bare, bare, same]

theorem bare_clearedBy (same : r'.bare = r.bare) (on on' : Bool) :
    (clearedBy on' r' down).bare = (clearedBy on r down).bare := by
  cases down with
  | ok _ => exact same
  | error f =>
      have success : r'.success = r.success := (congrArg Report.success same :)
      rw [clearedBy, clearedBy, success]
      split
      · exact bare_blamed same on on' _
      · exact same

/-- However two parses are watched, they conclude in the same way. -/
theorem answers_concluded (same : r'.bare = r.bare) (worded : ∀ f, ended = .error f → f.Worded) :
    Answers (fun _ => True) (fun r r' : Report => r'.bare = r.bare) (concluded e r ended down)
      (concluded e' r' ended down) := by
  have counted : ∀ {r r' : Report}, r'.bare = r.bare →
      (e'.counted (clearedBy e'.diagnosing r' down)).bare
        = (e.counted (clearedBy e.diagnosing r down)).bare := fun same => by
    rw [bare_counted, bare_counted]
    exact bare_clearedBy same _ _
  cases stays : interrupted down with
  | true =>
      obtain ⟨f, -, escapes⟩ := exists_escaping stays
      rw [concluded, concluded, escapes]
      exact .error trivial
  | false =>
  rw [concluded_of_not_interrupted stays, concluded_of_not_interrupted stays]
  cases ended with
  | ok _ => exact .ok (counted same)
  | error f =>
      by_cases passes : f.passesThrough = true
      · rw [settledBy, settledBy, if_pos passes, if_pos passes]
        exact .error trivial
      · have reportable (on : Bool) : f.Reportable on :=
          ⟨Bool.eq_false_iff.mpr passes, fun _ => worded f rfl⟩
        rw [settledBy, settledBy, if_neg passes, if_neg passes, isEmpty_message_ruling (reportable _),
          isEmpty_message_ruling (reportable _)]
        exact .ok (counted (bare_blamed same _ _ _))

end Reports

namespace Peers

variable (peers : Peers w v)

include peers

theorem enter (override : Option Text) :
    Peers ((Engine.enter override).outcome w).2 ((Engine.enter override).outcome v).2 := by
  obtain ⟨c, r, l, hc, -⟩ := peers
  exact .intro (w := w.onEngine (entered override)) c (some { correlation := w.engine.effectiveId override })
    l hc rfl

theorem cleared : cleared v = cleared w := by
  have clearing : v.engine.clearing = w.engine.clearing := (congrArg Engine.clearing peers.engine :)
  rw [Engine.cleared, Engine.cleared, clearing, peers.forest]

theorem rested (down : Except Fault Unit) :
    Peers (w.onEngine fun e => e.rested down) (v.onEngine fun e => e.rested down) := by
  obtain ⟨c, r, l, hc, -⟩ := peers
  exact .intro (w := w.onEngine fun e => e.rested down) c none l hc rfl

end Peers

/-- A parse that comes while another one runs is refused. -/
theorem outcome_parse_reentrant (g : Grammar σ) (rounds : Nat) (input : Input) (override : Option Text)
    (busy : w.engine.parsing = true) :
    (parse g rounds input override).outcome w = refuseParse.outcome w := by
  cases input with
  | other x =>
      rw [parse, outcome_engine, busy]
      rfl
  | _ =>
      rw [parse, outcome_engine, busy]
      · rfl
      · intro x same
        cases same

/-- How a parse is watched makes no difference to the hooks that it calls, to how it ends, and to
what it leaves behind. -/
theorem parses_of_peers_agree {g : Grammar σ} {rounds : Nat} {input : Input} {override : Option Text}
    (peers : Peers w v) (forward : w.forest.Forward)
    (uses : ∀ call : HookCall, (call.hook g).Uses Op.Onward)
    (incurious : ∀ call : HookCall, (call.hook g).Incurious)
    (raises : ∀ call : HookCall, (call.hook g).Raises Fault.Worded)
    (creates : ∀ call : HookCall, (call.hook g).Uses (Op.Raises Fault.Worded))
    (teardowns : w.forest.Raises Fault.Worded)
    (filters : ∀ k, ∀ c ∈ w.engine.filters.get k, ∀ t f, c.run t = .error f → f.Worded) :
    hookCalls g rounds input override v = hookCalls g rounds input override w
      ∧ Agree Peers (fun _ => True) (fun r r' => r'.bare = r.bare)
        ((parse g rounds input override).outcome w) ((parse g rounds input override).outcome v) := by
  have built := abreast_buildCourse uses incurious (w := ((enter override).outcome w).2) forward rounds
    input (peers.enter override)
  refine ⟨built.calls, ?_⟩
  have parsing : v.engine.parsing = w.engine.parsing := (congrArg Engine.parsing peers.engine :)
  cases idle : w.engine.parsing with
  | true =>
      rw [outcome_parse_reentrant _ _ _ _ idle, outcome_parse_reentrant _ _ _ _ (parsing.trans idle)]
      exact likewise_refuseParse peers
  | false =>
    rw [idle] at parsing
    by_cases accepted : ∀ x, input ≠ .other x
    · have agree := built.agree
      rw [follows_buildCourse, follows_buildCourse] at agree
      obtain ⟨ended, w₁, v₁, hw, hv, peers₁⟩ : ∃ ended w₁ v₁,
          (build g rounds input).outcome ((enter override).outcome w).2 = (ended, w₁)
          ∧ (build g rounds input).outcome ((enter override).outcome v).2 = (ended, v₁)
          ∧ Peers w₁ v₁ := by
        rcases agree.cases with ⟨_, _, w₁, v₁, hw, hv, -, peers⟩ | ⟨f, w₁, v₁, hw, hv, -, peers⟩
        · exact ⟨_, w₁, v₁, hw, hv, peers⟩
        · exact ⟨_, w₁, v₁, hw, hv, peers⟩
      have worded : ∀ f, ended = .error f → f.Worded := fun f hf => by
        subst hf
        rcases (build_raises (w := ((enter override).outcome w).2) (fun _ own => own.worded) raises
          creates teardowns filters _ _ hw).1 f rfl with worded | rfl
        · exact worded
        · nofun
      obtain ⟨-, r, l, parsed, hr, -⟩ := exists_outcome_parse idle accepted hw
      obtain ⟨-, r', l', parsed', hr', -⟩ := exists_outcome_parse parsing accepted hv
      have same : r'.bare = r.bare := by
        have report := peers₁.report
        rw [hr, hr'] at report
        exact Option.some.inj report
      rw [parsed, parsed', peers₁.cleared]
      exact ⟨answers_concluded same worded, ((peers₁.rested _).withForest _).withLog l l'⟩
    · obtain ⟨x, rfl⟩ := not_forall_not.mp accepted
      rw [outcome_parse_other g rounds x override idle, outcome_parse_other g rounds x override parsing]
      exact .error trivial peers

/-- A hook that starts no parse sees nothing of what is recorded. -/
theorem incurious_of_uses : ∀ {h : Hook σ α}, h.Uses (fun o => ∀ i c, o ≠ .parse i c) → h.Incurious
  | .done _, _ => trivial
  | .raise _, _ => trivial
  | .call o next, uses => by
      refine ⟨fun a b same => ?_, fun r => incurious_of_uses (uses.2 r)⟩
      cases o with
      | parse i c => exact absurd rfl (uses.1 i c)
      | _ => exact congrArg (fun r => next (.ok r)) same

/-- The hooks of the grammar of bold text raise nothing of their own. -/
theorem raises_treeGrammar {P : Fault → Prop} (call : HookCall) :
    (call.hook (Bold.treeGrammar σ)).Raises P := by
  cases call with
  | init => exact Hook.raises_bind_ask _ fun _ => trivial
  | setStatus n =>
      show Hook.Raises _ (Bold.setStatus n)
      rw [Bold.setStatus]
      split
      · exact Hook.raises_bind_ask _ fun _ => Hook.raises_bind_ask _ fun _ => trivial
      split
      · exact Hook.raises_bind_ask _ fun _ => Hook.raises_bind_ask _ fun _ => trivial
      · trivial
  | handleStatus n needle =>
      show Hook.Raises _ (Bold.handleStatus needle)
      rw [Bold.handleStatus]
      split
      · exact Hook.raises_bind_ask _ fun _ => Hook.raises_bind_ask _ fun _ =>
          Hook.raises_bind_ask _ fun _ => Hook.raises_bind_ask _ fun _ => trivial
      · exact Hook.raises_bind_ask _ fun _ => Hook.raises_bind_ask _ fun _ => trivial
  | closeRemainingBlocks => exact Hook.raises_ask _
  | modifyTree => trivial
  | outputTree => trivial

theorem raises_of_boldAsks {P : Fault → Prop} {o : Op σ} (asks : BoldAsks o) : o.Raises P := by
  cases o with
  | edit e =>
      cases e with
      | create b =>
          intro f torn
          rw [show b.form.teardown? = none from asks] at torn
          cases torn
      | _ => trivial
  | _ => trivial

/-- An engine that recovers from nothing, watched or not. -/
def unforgiving (watched : Bool) : World Unit :=
  { engine := { config := { enableDiagnostics := .bool watched, collectMetrics := .bool watched
                            maxRecoveries := .int 0, name := .bool watched } }
    memory := () }

theorem parses_of_peers_agree_openBold : ∃ report report' w' v',
    (parse (Bold.treeGrammar Unit) 8 (.text Bold.openMark) none).outcome (unforgiving true)
        = (.ok report, w')
      ∧ (parse (Bold.treeGrammar Unit) 8 (.text Bold.openMark) none).outcome (unforgiving false)
        = (.ok report', v')
      ∧ report.success = false ∧ report'.bare = report.bare := by
  obtain ⟨report, w', parsed, failed⟩ : ∃ report w', (parse (Bold.treeGrammar Unit) 8
      (.text Bold.openMark) none).outcome (unforgiving true) = (.ok report, w')
      ∧ report.success = false := exists_of_report (by decide +kernel)
  obtain ⟨-, agree⟩ := @parses_of_peers_agree Unit (unforgiving true) (unforgiving false)
    (Bold.treeGrammar Unit) 8 (.text Bold.openMark) none (.intro _ none [] rfl rfl)
    (fun h o origin => by
      rw [Forest.node_of_size_le (Nat.zero_le h)] at origin
      cases origin)
    (fun call => (uses_treeGrammar call).mono fun _ => onward_of_boldAsks)
    (fun call => incurious_of_uses ((uses_treeGrammar call).mono fun o asks i c same => by
      rw [same] at asks
      exact asks))
    raises_treeGrammar (fun call => (uses_treeGrammar call).mono fun _ => raises_of_boldAsks)
    (fun h f torn => by cases torn) fun k c hc => by cases k <;> cases hc
  rcases agree.cases with ⟨_, report', _, v', hw, hv, same, -⟩ | ⟨f, _, _, hw, -, -⟩
  · rw [parsed] at hw
    cases hw
    exact ⟨report, report', w', v', parsed, hv, failed, same⟩
  · rw [parsed] at hw
    cases hw

end Engine

end Needlework
