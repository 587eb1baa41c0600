import Needlework.Proofs.Engine.Building
import Needlework.Proofs.Engine.Books

/-!
# Worlds that are watched differently

Three settings say how a parse is watched: whether it records diagnostics, whether it hands out its
counters, and under what name its records are written.  Two worlds that are the same but for these
settings, the log, and what is recorded in the report are *peers*.

Every step takes peers to peers and ends in the same way in both, since no step looks at what is
recorded.  A diagnostic that cannot be recorded would be an exception, as it fails where none is
recorded.  Its offset must not lie before the text, and this is so in an onward world.

The reply to a step is the same too.  But a refused parse replies with a report, which may have a
diagnostic in it, and a round begins with a look at the whole engine.
-/

namespace Needlework

/-- A configuration without what says how a parse is watched. -/
def Config.unwatched (c : Config) : Config :=
  { c with enableDiagnostics := .null, collectMetrics := .null, name := .null }

/-- A report without what is recorded in it. -/
def Report.bare (r : Report) : Report := { r with entries := [], metrics := {} }

namespace Engine

open Act

variable {σ α : Type}

/-- Two worlds that are the same but for how they are watched, and for what was recorded. -/
inductive Peers (w : World σ) : World σ → Prop where
  | intro (c : Config) (r : Option Report) (l : List Record) :
      c.unwatched = w.engine.config.unwatched →
      r.map Report.bare = w.engine.report.map Report.bare →
      Peers w { w with engine := { w.engine with config := c, report := r }, log := l }

/-- A change of the engine that passes over the configuration and the report. -/
def Passes (change : Engine → Engine) : Prop :=
  ∀ (e : Engine) (c : Config) (r : Option Report),
    change { e with config := c, report := r } = { change e with config := c, report := r }

/-- Two actions end in the same way in peers, and leave peers. -/
abbrev Likewise (Q : α → α → Prop) (x : Act σ α) (w v : World σ) : Prop :=
  Agree Peers (fun _ => True) Q (x.outcome w) (x.outcome v)

variable {w v : World σ}

namespace Peers

theorem refl (w : World σ) : Peers w w := .intro _ _ _ rfl rfl

theorem onEngine (peers : Peers w v) (change : Engine → Engine) (passes : Passes change) :
    Peers (w.onEngine change) (v.onEngine change) := by
  obtain ⟨c, r, l, hc, hr⟩ := peers
  have same := passes w.engine w.engine.config w.engine.report
  have config : (change w.engine).config = w.engine.config := (congrArg Engine.config same :)
  have report : (change w.engine).report = w.engine.report := (congrArg Engine.report same :)
  have moved : ({ w with engine := { w.engine with config := c, report := r }, log := l } :
      World σ).onEngine change = { w.onEngine change with
        engine := { (w.onEngine change).engine with config := c, report := r }, log := l } :=
    congrArg (fun e => ({ w with engine := e, log := l } : World σ)) (passes w.engine c r)
  rw [moved]
  exact .intro c r l (hc.trans (congrArg _ config.symm)) (hr.trans (congrArg _ report.symm))

theorem symm (peers : Peers w v) : Peers v w := by
  obtain ⟨c, r, l, hc, hr⟩ := peers
  exact .intro (w := { w with engine := { w.engine with config := c, report := r }, log := l })
    w.engine.config w.engine.report w.log hc.symm hr.symm

theorem trans {u : World σ} (first : Peers w v) (second : Peers v u) : Peers w u := by
  obtain ⟨c, r, l, hc, hr⟩ := first
  obtain ⟨c', r', l', hc', hr'⟩ := second
  exact .intro c' r' l' (hc'.trans hc) (hr'.trans hr)

theorem withForest (peers : Peers w v) (f : Forest) : Peers (w.withForest f) (v.withForest f) := by
  obtain ⟨c, r, l, hc, hr⟩ := peers
  exact .intro (w := w.withForest f) c r l hc hr

theorem withLog (peers : Peers w v) (l l' : List Record) :
    Peers { w with log := l } { v with log := l' } := by
  obtain ⟨c, r, -, hc, hr⟩ := peers
  exact .intro (w := { w with log := l }) c r l' hc hr

section

variable (peers : Peers w v)

include peers

theorem forest : v.forest = w.forest := by
  obtain ⟨c, r, l, -, -⟩ := peers
  rfl

theorem memory : v.memory = w.memory := by
  obtain ⟨c, r, l, -, -⟩ := peers
  rfl

theorem engine : v.engine
    = { w.engine with config := v.engine.config, report := v.engine.report } := by
  obtain ⟨c, r, l, -, -⟩ := peers
  rfl

theorem config : v.engine.config.unwatched = w.engine.config.unwatched := by
  obtain ⟨c, r, l, hc, -⟩ := peers
  exact hc

theorem report : v.engine.report.map Report.bare = w.engine.report.map Report.bare := by
  obtain ⟨c, r, l, -, hr⟩ := peers
  exact hr

theorem text : v.engine.text = w.engine.text := (congrArg Engine.text peers.engine :)

theorem cursor : v.engine.cursor = w.engine.cursor := (congrArg Engine.cursor peers.engine :)

theorem stack : v.engine.stack = w.engine.stack := (congrArg Engine.stack peers.engine :)

theorem status : v.engine.status = w.engine.status := (congrArg Engine.status peers.engine :)

theorem root : v.engine.root = w.engine.root := (congrArg Engine.root peers.engine :)

theorem output : v.engine.output = w.engine.output := (congrArg Engine.output peers.engine :)

theorem detached : v.engine.detached = w.engine.detached := (congrArg Engine.detached peers.engine :)

theorem rewound : v.engine.rewound = w.engine.rewound := (congrArg Engine.rewound peers.engine :)

theorem filters : v.engine.filters = w.engine.filters := (congrArg Engine.filters peers.engine :)

theorem correlation : v.engine.correlation = w.engine.correlation :=
  (congrArg Engine.correlation peers.engine :)

theorem isStrict : v.engine.isStrict = w.engine.isStrict := (congrArg Engine.isStrict peers.engine :)

theorem openCount : v.engine.openCount = w.engine.openCount := (congrArg Engine.openCount peers.engine :)

theorem maxRecoveries : v.engine.config.maxRecoveries = w.engine.config.maxRecoveries :=
  (congrArg Config.maxRecoveries peers.config :)

theorem limitReached : v.engine.limitReached = w.engine.limitReached := by
  rw [Engine.limitReached, Engine.limitReached, peers.maxRecoveries,
    show v.engine.metrics = w.engine.metrics from (congrArg Engine.metrics peers.engine :)]

theorem inputText (input : Input) :
    inputText v.engine.codecs v.engine.config input
      = Engine.inputText w.engine.codecs w.engine.config input := by
  have codecs : v.engine.codecs = w.engine.codecs := (congrArg Engine.codecs peers.engine :)
  have same := congrArg (fun c : Config => Engine.inputText w.engine.codecs c input) peers.config
  rw [codecs]
  cases input with
  | _ => exact same

end

end Peers

/-! ## Actions -/

theorem likewise_tree (x : TreeM α) (peers : Peers w v) : Likewise Eq (tree x) w v := by
  obtain ⟨c, r, l, hc, hr⟩ := peers
  rw [Likewise, outcome_tree, outcome_tree]
  dsimp only
  cases x.run w.forest with
  | ok a f => exact .ok rfl (Peers.withForest (.intro c r l hc hr) f)
  | error e f => exact .error trivial (Peers.withForest (.intro c r l hc hr) f)

/-- A diagnostic with a wording and a place in the text is recorded or not, and nothing fails. -/
theorem exists_diagnose (severity : Severity) {message : Text} (worded : message.isEmpty = false)
    {offset : Value} (inside : Diagnostic.checkOffset offset = .ok ()) (details : Value)
    (w : World σ) : ∃ w', (diagnose severity message offset details).outcome w = (.ok (), w')
      ∧ Peers w w' := by
  cases hr : w.engine.report with
  | none =>
      rw [diagnose, outcome_engine, hr]
      exact ⟨w, rfl, .refl w⟩
  | some r =>
      by_cases on : w.engine.diagnosing = true
      · refine ⟨_, outcome_diagnose_noted hr on severity worded inside details, ?_⟩
        refine .intro (w := w) w.engine.config _ w.log rfl ?_
        rw [hr]
        rfl
      · rw [diagnose, outcome_engine, hr]
        dsimp only
        rw [if_neg (show ¬ w.engine.config.enableDiagnostics.truthy = true from on)]
        exact ⟨w, rfl, .refl w⟩

theorem likewise_diagnose (severity : Severity) {message : Text} (worded : message.isEmpty = false)
    {offset : Value} (inside : Diagnostic.checkOffset offset = .ok ()) (details : Value)
    (peers : Peers w v) : Likewise Eq (diagnose severity message offset details) w v := by
  obtain ⟨w', hw, left⟩ := exists_diagnose severity worded inside details w
  obtain ⟨v', hv, right⟩ := exists_diagnose severity worded inside details v
  rw [Likewise, hw, hv]
  exact .ok rfl (left.symm.trans (peers.trans right))

theorem likewise_appendText (t : Text) (offset : Option Int) (peers : Peers w v) :
    Likewise Eq (appendText t offset) w v := by
  rw [Likewise, appendText]
  split
  · exact .ok rfl peers
  rw [outcome_engine, outcome_engine, peers.stack, peers.cursor]
  cases w.engine.stack with
  | nil => exact .error trivial peers
  | cons top rest => exact likewise_tree _ peers

theorem likewise_push (n : Arg) (peers : Peers w v) : Likewise Eq (push n) w v := by
  rw [Likewise, push, outcome_engine, outcome_engine, peers.stack]
  cases w.engine.stack with
  | nil => exact .error trivial peers
  | cons top rest =>
      refine (likewise_tree _ peers).bind fun a b w v same peers => ?_
      subst same
      exact .ok rfl (peers.onEngine (fun e =>
        count (fun m => { m with pushed := m.pushed + 1 }) { e with stack := a :: e.stack })
        fun _ _ _ => rfl)

theorem likewise_pop (peers : Peers w v) : Likewise Eq pop w v := by
  rw [Likewise, pop, outcome_engine, outcome_engine, peers.stack]
  cases w.engine.stack with
  | nil => exact .error trivial peers
  | cons top rest =>
      cases rest with
      | nil => exact .error trivial peers
      | cons next rest =>
          exact .ok rfl (peers.onEngine (fun e => { e with stack := next :: rest })
            fun _ _ _ => rfl)

theorem likewise_originOf (top : Handle) (peers : Peers w v) : Likewise Eq (originOf top) w v := by
  rw [Likewise, originOf, outcome_get, outcome_get, peers.forest]
  dsimp only
  cases (w.forest.node top).origin with
  | none => exact .error trivial peers
  | some o =>
      dsimp only
      rw [outcome_engine, outcome_engine, peers.text]
      split
      · exact .error trivial peers
      · exact .ok rfl peers

theorem likewise_putAside (top p : Handle) (peers : Peers w v) :
    Likewise Eq (putAside top p) w v :=
  (likewise_tree _ peers).bind fun _ _ _ _ _ peers => .ok rfl (peers.onEngine (fun e =>
    { e with detached := top :: e.detached, stack := e.stack.tail }) fun _ _ _ => rfl)

theorem likewise_withdraw (peers : Peers w v) : Likewise Eq withdraw w v := by
  rw [Likewise, withdraw, outcome_engine, outcome_engine, peers.stack, peers.limitReached,
    peers.maxRecoveries]
  cases w.engine.stack with
  | nil => exact .error trivial peers
  | cons top rest =>
    cases rest with
    | nil => exact .error trivial peers
    | cons next rest =>
      dsimp only
      split
      · exact .error trivial peers
      rw [outcome_get, outcome_get, peers.forest]
      cases w.forest.parent top with
      | none => exact .error trivial peers
      | some p =>
          refine (likewise_putAside top p peers).bind fun _ _ w v _ peers => ?_
          refine (likewise_originOf top peers).bind fun o o' w v same peers => ?_
          subst same
          exact .ok rfl peers

theorem likewise_appendPoint (offset : Int) (peers : Peers w v) :
    Likewise Eq (appendPoint offset) w v := by
  rw [Likewise, appendPoint, outcome_engine, outcome_engine, peers.text]
  cases w.engine.text.at? offset with
  | none => exact .error trivial peers
  | some c => exact likewise_appendText [c] (some offset) peers

theorem likewise_log (level : Level) (message : Text) (extra extra' : Fields) {k l : Act σ α}
    {Q : α → α → Prop} (peers : Peers w v)
    (rest : ∀ w v, Peers w v → Agree Peers (fun _ => True) Q (k.outcome w) (l.outcome v)) :
    Agree Peers (fun _ => True) Q ((log level message extra >>= fun _ => k).outcome w)
      ((log level message extra' >>= fun _ => l).outcome v) := by
  rw [outcome_log, outcome_log]
  exact rest _ _ (peers.withLog _ _)

/-- A recovery tells of where it goes on, which lies in the text. -/
theorem likewise_resume (top : Handle) {origin : Int} (nonneg : 0 ≤ origin) (peers : Peers w v) :
    Likewise Eq (resume top origin) w v := by
  rw [Likewise, resume]
  refine (likewise_appendPoint origin peers).bind fun _ _ w v _ peers => ?_
  rw [outcome_modifyEngine, outcome_modifyEngine, outcome_get, outcome_get, World.forest_onEngine,
    World.forest_onEngine, peers.forest]
  have moved := peers.onEngine (fun e =>
    count (fun m => { m with recoveries := m.recoveries + 1 })
      { e with cursor := origin + 1, rewound := true }) fun _ _ _ => rfl
  exact likewise_log _ _ _ _ moved fun _ _ => likewise_diagnose _ (isEmpty_ofString (by decide))
    (Diagnostic.checkOffset_of_nonneg nonneg) _

theorem likewise_closeOpen (peers : Peers w v) : Likewise Eq closeOpen w v := by
  rw [Likewise, closeOpen, outcome_engine, outcome_engine, peers.openCount, peers.isStrict]
  dsimp only
  split
  · exact .ok rfl peers
  split
  · exact .ok rfl peers
  rw [outcome_modifyEngine, outcome_modifyEngine]
  have closed := peers.onEngine (fun e =>
    count (fun m => { m with forceClosed := m.forceClosed + w.engine.openCount })
      { e with stack := e.stack.getLast?.toList }) fun _ _ _ => rfl
  exact (likewise_diagnose .info (isEmpty_cat (isEmpty_ofString (by decide)) _) rfl _ closed).bind
    fun _ _ _ _ _ peers => .ok rfl peers

theorem likewise_applyFilters (k : FilterKind) (t : Text) (peers : Peers w v) :
    Likewise Eq (applyFilters k t) w v := by
  rw [Likewise, applyFilters, outcome_engine, outcome_engine, peers.filters, peers.correlation]
  dsimp only
  cases (w.engine.filters.apply (Pipeline.logger w.engine.correlation) k t).1 with
  | ok u => exact .ok rfl (peers.withLog _ _)
  | error f => exact .error trivial (peers.withLog _ _)

theorem likewise_assign (a : Assignment) (peers : Peers w v) : Likewise Eq (assign a) w v := by
  cases a with
  | newRoot =>
      rw [assign]
      refine (likewise_tree _ peers).bind fun h h' w v same peers => ?_
      subst same
      exact .ok rfl (peers.onEngine (fun e => { e with root := some h, stack := [h] })
        fun _ _ _ => rfl)
  | dropTop =>
      rw [Likewise, assign, outcome_engine, outcome_engine, peers.stack]
      split
      · exact .error trivial peers
      · exact .ok rfl (peers.onEngine (fun e => { e with stack := e.stack.tail })
          fun _ _ _ => rfl)
  | strict x =>
      exact .ok rfl (peers.onEngine (fun e => { e with strict := x }) fun _ _ _ => rfl)
  | output x =>
      exact .ok rfl (peers.onEngine (fun e => { e with output := x }) fun _ _ _ => rfl)
  | cursor x =>
      exact .ok rfl (peers.onEngine (fun e => { e with cursor := x }) fun _ _ _ => rfl)
  | status x =>
      exact .ok rfl (peers.onEngine (fun e => { e with status := x }) fun _ _ _ => rfl)
  | needles x =>
      exact .ok rfl (peers.onEngine (fun e => { e with needles := x }) fun _ _ _ => rfl)
  | text x =>
      exact .ok rfl (peers.onEngine (fun e => { e with text := x }) fun _ _ _ => rfl)
  | root x =>
      exact .ok rfl (peers.onEngine (fun e => { e with root := x }) fun _ _ _ => rfl)
  | stack x =>
      exact .ok rfl (peers.onEngine (fun e => { e with stack := x }) fun _ _ _ => rfl)

/-- The report of a refused parse, without its diagnostic. -/
def refusal (correlation : Option Text) : Report :=
  { success := false, error := some .reentrant, correlation := correlation }

/-- A refused parse is reported, with a diagnostic or without. -/
theorem exists_refuseParse (w : World σ) : ∃ r l, r.bare = refusal w.engine.correlation
    ∧ refuseParse.outcome w = (.ok r, { w with log := l }) := by
  rw [refuseParse, outcome_log, outcome_engine]
  dsimp only
  split
  · exact ⟨_, _, rfl, rfl⟩
  · exact ⟨_, _, rfl, rfl⟩

theorem likewise_refuseParse (peers : Peers w v) :
    Likewise (fun r r' => r'.bare = r.bare) refuseParse w v := by
  obtain ⟨r, l, bare, hw⟩ := exists_refuseParse w
  obtain ⟨r', l', bare', hv⟩ := exists_refuseParse v
  rw [Likewise, hw, hv]
  exact .ok (by rw [bare', bare, peers.correlation]) (peers.withLog _ _)

/-! ## Operations of hooks -/

/-- The replies to an operation are the same, but for what is recorded. -/
def Op.SameReply : (o : Op σ) → o.Reply → o.Reply → Prop
  | .parse _ _, r, r' => Report.bare r' = Report.bare r
  | _, a, b => a = b

theorem likewise_op {o : Op σ} (plain : IsPlain o) (peers : Peers w v) :
    Likewise (Op.SameReply o) (Step.act (.op o)) w v := by
  cases o with
  | setStatus n => exact plain.elim
  | recover => exact plain.elim
  | look =>
      obtain ⟨c, r, l, hc, hr⟩ := peers
      exact .ok rfl (.intro c r l hc hr)
  | strictness =>
      obtain ⟨c, r, l, hc, hr⟩ := peers
      exact .ok rfl (.intro c r l hc hr)
  | memory =>
      obtain ⟨c, r, l, hc, hr⟩ := peers
      exact .ok rfl (.intro c r l hc hr)
  | remember s =>
      obtain ⟨c, r, l, hc, hr⟩ := peers
      exact .ok rfl (.intro (w := { w with memory := s }) c r l hc hr)
  | push n => exact likewise_push n peers
  | pop => exact likewise_pop peers
  | appendText t offset => exact likewise_appendText t offset peers
  | closeOpen => exact likewise_closeOpen peers
  | edit e => exact likewise_tree e.run peers
  | tamper t =>
      obtain ⟨c, r, l, hc, hr⟩ := peers
      exact .ok rfl (.intro (w := w.withForest (t.apply w.forest)) c r l hc hr)
  | assign a => exact likewise_assign a peers
  | postfilter t => exact likewise_applyFilters .post t peers
  | parse input override => exact likewise_refuseParse peers

/-! ## Steps of the engine -/

theorem likewise_beginRound (peers : Peers w v) : Likewise (fun e e' => ∃ c r,
    c.unwatched = e.config.unwatched ∧ e' = { e with config := c, report := r }) beginRound w v := by
  have begun := peers.onEngine (fun e => { e with rewound := false }) fun _ _ _ => rfl
  obtain ⟨c, r, l, hc, -⟩ := peers
  exact .ok ⟨c, r, hc, rfl⟩ begun

theorem likewise_approach (position : Nat) (peers : Peers w v) :
    Likewise Eq (approach position) w v := by
  rw [Likewise, approach, outcome_engine, outcome_engine, peers.text, peers.cursor, peers.status]
  exact (likewise_appendText _ none peers).bind fun _ _ _ _ _ peers =>
    .ok rfl (peers.onEngine (fun e => count (fun m => { m with needles := m.needles + 1 })
      { e with cursor := position }) fun _ _ _ => rfl)

theorem likewise_accept (needle : Text) (peers : Peers w v) : Likewise Eq (accept needle) w v := by
  rw [Likewise, accept, outcome_engine, outcome_engine, peers.rewound]
  split
  · exact .ok rfl (peers.onEngine (fun e => { e with cursor := e.cursor + needle.length })
      fun _ _ _ => rfl)
  · exact .ok rfl peers

/-- A rejected needle is told of where the scan stands, which lies in the text. -/
theorem likewise_reject (onward : Onward w) (needle : Text) (position : Nat) (peers : Peers w v) :
    Likewise Eq (reject needle position) w v := by
  rw [Likewise, reject, outcome_engine, outcome_engine, peers.isStrict, peers.status]
  split
  · exact .error trivial peers
  rw [downgrade, outcome_engine, outcome_engine, peers.text, peers.cursor]
  refine likewise_log _ _ _ _ peers fun w₁ v₁ peers => ?_
  rw [outcome_modifyEngine, outcome_modifyEngine]
  have counted := peers.onEngine (count fun m => { m with downgrades := m.downgrades + 1 })
    fun _ _ _ => rfl
  refine (likewise_diagnose .warning (isEmpty_cat (isEmpty_ofString (by decide)) _)
    (Diagnostic.checkOffset_of_nonneg onward.cursor) _ counted).bind fun _ _ w₂ v₂ _ peers => ?_
  cases w.engine.text.at? w.engine.cursor with
  | none => exact .error trivial peers
  | some c =>
      exact (likewise_appendText [c] none peers).bind fun _ _ _ _ _ peers =>
        .ok rfl (peers.onEngine (fun e => { e with cursor := e.cursor + 1 })
          fun _ _ _ => rfl)

theorem likewise_appendRest (peers : Peers w v) : Likewise Eq appendRest w v := by
  rw [Likewise, appendRest, outcome_engine, outcome_engine, peers.text, peers.cursor]
  split
  · exact (likewise_appendText _ none peers).bind fun _ _ _ _ _ peers =>
      .ok rfl (peers.onEngine (fun e => { e with cursor := e.text.length })
        fun _ _ _ => rfl)
  · exact .ok rfl peers

theorem likewise_reportOpen (peers : Peers w v) : Likewise Eq reportOpen w v := by
  rw [Likewise, reportOpen, outcome_engine, outcome_engine, peers.isStrict, peers.openCount]
  split
  · exact .error trivial peers
  · exact .error trivial peers

/-! ## The beginning and the end of a building -/

theorem likewise_discardDetached (peers : Peers w v) : Likewise Eq discardDetached w v := by
  rw [Likewise, discardDetached, outcome_engine, outcome_engine, peers.detached]
  exact (likewise_tree _ peers).bind fun _ _ _ _ _ peers =>
    .ok rfl (peers.onEngine (fun e => { e with detached := [] }) fun _ _ _ => rfl)

theorem likewise_destroyRoot (peers : Peers w v) : Likewise Eq destroyRoot w v := by
  rw [Likewise, destroyRoot, outcome_engine, outcome_engine, peers.root]
  cases w.engine.root with
  | none => exact .ok rfl peers
  | some r => exact likewise_tree _ peers

theorem likewise_destroyTree (peers : Peers w v) : Likewise Eq destroyTree w v := by
  rw [Likewise, destroyTree, outcome_engine, outcome_engine, peers.root]
  cases w.engine.root with
  | none => exact .error trivial peers
  | some r => exact likewise_tree _ peers

theorem likewise_load (input : Input) (peers : Peers w v) : Likewise Eq (load input) w v := by
  rw [Likewise, load, outcome_engine, outcome_engine, peers.inputText]
  cases inputText w.engine.codecs w.engine.config input with
  | error f => exact .error trivial peers
  | ok t =>
      refine (likewise_applyFilters .pre t peers).bind fun text text' w v same peers => ?_
      subst same
      rw [outcome_modifyEngine, outcome_modifyEngine]
      have set := peers.onEngine (fun e => { e with
        text := text, cursor := 0, stack := [], status := 0, needles := [], output := .null })
        fun _ _ _ => rfl
      refine (likewise_discardDetached set).bind fun _ _ w v _ peers => ?_
      refine (likewise_destroyRoot peers).bind fun _ _ w v _ peers => ?_
      refine (likewise_assign .newRoot peers).bind fun _ _ w v _ peers => ?_
      rw [outcome_modifyEngine, outcome_modifyEngine, outcome_engine, outcome_engine]
      have counted := peers.onEngine
        (count fun m => { m with characters := text.length }) fun _ _ _ => rfl
      exact .ok rfl (counted.withLog _ _)

/-- What is handed out is written into both reports. -/
theorem Peers.onReport (peers : Peers w v) (change : Report → Report)
    (same : ∀ r r' : Report, r'.bare = r.bare → (change r').bare = (change r).bare) :
    Peers (w.onEngine fun e => { e with report := e.report.map change })
      (v.onEngine fun e => { e with report := e.report.map change }) := by
  obtain ⟨c, r, l, hc, hr⟩ := peers
  refine .intro (w := w.onEngine fun e => { e with report := e.report.map change }) c (r.map change) l
    hc ?_
  rw [World.engine_onEngine]
  cases r with
  | none =>
      have none := Option.map_eq_none_iff.mp hr.symm
      rw [none]
  | some r =>
      obtain ⟨r', hr', bare⟩ := Option.map_eq_some_iff.mp hr.symm
      rw [hr']
      exact congrArg some (same r' r bare.symm)

theorem likewise_handOut (peers : Peers w v) : Likewise Eq handOut w v := by
  rw [Likewise, handOut, outcome_engine, outcome_engine, peers.output, peers.root]
  split
  · rw [modifyReport, outcome_modifyEngine, outcome_modifyEngine]
    have handed := peers.onReport (fun r => { r with tree := w.engine.root }) fun r r' same =>
      congrArg (fun r : Report => { r with tree := w.engine.root }) same
    exact .ok rfl (handed.onEngine (fun e => { e with root := none, stack := [] })
      fun _ _ _ => rfl)
  · rw [modifyReport, outcome_modifyEngine, outcome_modifyEngine]
    have handed := peers.onReport (fun r => { r with output := w.engine.output })
      fun r r' same => congrArg (fun r : Report => { r with output := w.engine.output }) same
    exact (likewise_destroyTree handed).bind fun _ _ _ _ _ peers =>
      .ok rfl (peers.onEngine (fun e => { e with root := none, stack := [] })
        fun _ _ _ => rfl)

end Engine

end Needlework
