import Needlework.Proofs.Engine.Course
import Needlework.Proofs.Forest.Origins

/-!
# What the steps do

One lemma for each step says what it does to the world.  Log records, diagnostics and
counters are of no consequence for the scan, so the lemmas speak of the rest
(`Unmoved`).

*Faults.*  A step that fails may have changed the forest before.  The lemmas list
the failures together with the world that they leave, as far as it matters: the
engine is as it was, but for a recovery that has put its node aside and does not
know where it began (`withdraw_cases`).
-/

namespace Needlework

variable {σ α β : Type} {w w' : World σ}

/-- A report without its diagnostics. -/
def Report.verdict (r : Report) : Report := { r with entries := [] }

/-- An entry passes its check as it is. -/
theorem Diagnostic.eq_of_check {d d' : Diagnostic} (h : d.check = .ok d') : d' = d := by
  rw [Diagnostic.check] at h
  split at h
  · cases h
  split at h
  · cases h
  · generalize Diagnostic.checkOffset _ = offset at h
    cases offset with
    | ok u => cases h; rfl
    | error f => cases h

/-- A diagnostic is all that is added to a report. -/
theorem Report.exists_of_add {r r' : Report} {severity : Severity} {message component : Text}
    {offset details : Value} (h : r.add severity message component offset details = .ok r') :
    ∃ d : Diagnostic, d.severity = severity ∧ r' = { r with entries := d :: r.entries } := by
  rw [Report.add] at h
  generalize checked : Diagnostic.check _ = result at h
  cases result with
  | error f => cases h
  | ok d =>
      cases h
      exact ⟨d, by rw [Diagnostic.eq_of_check checked], rfl⟩

theorem Report.verdict_of_add {r r' : Report} {severity : Severity} {message component : Text}
    {offset details : Value} (h : r.add severity message component offset details = .ok r') :
    r'.verdict = r.verdict := by
  obtain ⟨d, -, rfl⟩ := Report.exists_of_add h
  rfl

/-- Two worlds agree on everything but the memory, the log, the diagnostics and the
counters. -/
structure Unmoved (w w' : World σ) : Prop where
  forest : w'.forest = w.forest
  engine : w'.engine
    = { w.engine with report := w'.engine.report, metrics := w'.engine.metrics }
  verdict : w'.engine.report.map Report.verdict = w.engine.report.map Report.verdict

namespace Unmoved

theorem refl (w : World σ) : Unmoved w w := ⟨rfl, rfl, rfl⟩

theorem trans {w'' : World σ} (h₁ : Unmoved w w') (h₂ : Unmoved w' w'') : Unmoved w w'' := by
  refine ⟨h₂.forest.trans h₁.forest, ?_, h₂.verdict.trans h₁.verdict⟩
  rw [h₂.engine, h₁.engine]

theorem text (h : Unmoved w w') : w'.engine.text = w.engine.text := by rw [h.engine]

theorem cursor (h : Unmoved w w') : w'.engine.cursor = w.engine.cursor := by rw [h.engine]

theorem stack (h : Unmoved w w') : w'.engine.stack = w.engine.stack := by rw [h.engine]

theorem rewound (h : Unmoved w w') : w'.engine.rewound = w.engine.rewound := by rw [h.engine]

theorem detached (h : Unmoved w w') : w'.engine.detached = w.engine.detached := by rw [h.engine]

theorem root (h : Unmoved w w') : w'.engine.root = w.engine.root := by rw [h.engine]

end Unmoved

namespace World

/-- A world with another engine. -/
def onEngine (w : World σ) (change : Engine → Engine) : World σ :=
  { w with engine := change w.engine }

/-- A world with another forest. -/
def withForest (w : World σ) (f : Forest) : World σ := { w with forest := f }

@[simp] theorem engine_onEngine (w : World σ) (change : Engine → Engine) :
    (w.onEngine change).engine = change w.engine := rfl

@[simp] theorem forest_onEngine (w : World σ) (change : Engine → Engine) :
    (w.onEngine change).forest = w.forest := rfl

@[simp] theorem engine_withForest (w : World σ) (f : Forest) :
    (w.withForest f).engine = w.engine := rfl

@[simp] theorem forest_withForest (w : World σ) (f : Forest) : (w.withForest f).forest = f := rfl

end World

namespace Act

theorem outcome_engine (k : Engine → Act σ α) (w : World σ) :
    outcome (engine >>= k) w = (k w.engine).outcome w := rfl

theorem outcome_get (k : World σ → Act σ α) (w : World σ) :
    outcome (get >>= k) w = (k w).outcome w := rfl

theorem outcome_modifyEngine (change : Engine → Engine) (k : Unit → Act σ α) (w : World σ) :
    outcome (modifyEngine change >>= k) w = (k ()).outcome (w.onEngine change) := rfl

theorem outcome_log (level : Level) (message : Text) (extra : Fields) (k : Unit → Act σ α)
    (w : World σ) : outcome (log level message extra >>= k) w
      = (k ()).outcome { w with log := w.engine.logger.record level message extra :: w.log } := rfl

theorem outcome_tree (x : TreeM α) (w : World σ) :
    (tree x).outcome w
      = match x.run w.forest with
        | .ok a f => (.ok a, w.withForest f)
        | .error e f => (.error e, w.withForest f) := by
  simp only [outcome, tree, EStateM.run]
  cases x w.forest <;> rfl

/-- An action on the forest changes nothing else. -/
theorem after_tree (x : TreeM α) (w : World σ) :
    ((tree x).outcome w).2 = w.withForest (w.forest.after x) := by
  rw [outcome_tree, Forest.after]
  cases x.run w.forest <;> rfl

/-- Two actions in a row have succeeded if both of them have. -/
theorem exists_of_bind_ok {x : Act σ α} {k : α → Act σ β} {b : β}
    (h : (x >>= k).outcome w = (.ok b, w')) :
    ∃ a w₁, x.outcome w = (.ok a, w₁) ∧ (k a).outcome w₁ = (.ok b, w') := by
  rw [outcome_bind] at h
  generalize x.outcome w = out at h ⊢
  obtain ⟨r, w₁⟩ := out
  cases r with
  | ok a => exact ⟨a, w₁, rfl, h⟩
  | error f => cases h

/-- What the first action leaves alone stays alone if the rest leaves it alone. -/
theorem unmoved_bind {x : Act σ α} {k : α → Act σ β} (hx : Unmoved w (x.outcome w).2)
    (hk : ∀ a w', Unmoved w' ((k a).outcome w').2) : Unmoved w ((x >>= k).outcome w).2 := by
  rw [outcome_bind]
  generalize x.outcome w = out at hx ⊢
  obtain ⟨r, w'⟩ := out
  cases r with
  | ok a => exact hx.trans (hk a w')
  | error f => exact hx

/-- A diagnostic changes the report at most. -/
theorem unmoved_diagnose (severity : Severity) (message : Text) (offset details : Value)
    (w : World σ) : Unmoved w ((diagnose severity message offset details).outcome w).2 := by
  rw [diagnose, outcome_engine]
  cases hr : w.engine.report with
  | none => exact .refl w
  | some r =>
      dsimp only
      split
      · cases added : r.add severity message Engine.component offset details with
        | ok r' =>
            refine ⟨rfl, rfl, ?_⟩
            show some r'.verdict = w.engine.report.map Report.verdict
            rw [hr, Report.verdict_of_add added]
            rfl
        | error f => exact .refl w
      · exact .refl w

end Act

namespace Engine

open Act

/-! ## Filters and refused parses -/

theorem unmoved_applyFilters (k : FilterKind) (t : Text) (w : World σ) :
    Unmoved w ((applyFilters k t).outcome w).2 := by
  rw [applyFilters, outcome_engine]
  dsimp only
  cases (w.engine.filters.apply (Pipeline.logger w.engine.correlation) k t).1 with
  | ok r => exact ⟨rfl, rfl, rfl⟩
  | error e => exact ⟨rfl, rfl, rfl⟩

theorem engine_applyFilters (k : FilterKind) (t : Text) (w : World σ) :
    ((applyFilters k t).outcome w).2.engine = w.engine := by
  rw [applyFilters, outcome_engine]
  dsimp only
  cases (w.engine.filters.apply (Pipeline.logger w.engine.correlation) k t).1 <;> rfl

theorem unmoved_refuseParse (w : World σ) : Unmoved w (refuseParse.outcome w).2 := by
  rw [refuseParse, outcome_log, outcome_engine]
  dsimp only
  split
  · generalize Report.add _ _ _ _ _ _ = added
    cases added with
    | ok r => exact ⟨rfl, rfl, rfl⟩
    | error e => exact ⟨rfl, rfl, rfl⟩
  · exact ⟨rfl, rfl, rfl⟩

/-! ## Text -/

/-- Text goes to the innermost open node. -/
theorem outcome_appendText {top : Handle} {rest : List Handle} (hs : w.engine.stack = top :: rest)
    (t : Text) (offset : Option Int) :
    (appendText t offset).outcome w
      = (tree (Forest.appendToLastText top t (some (offset.getD w.engine.cursor)))).outcome w := by
  by_cases ht : t = []
  · subst ht
    rfl
  · have hempty : t.isEmpty = false := by simpa using ht
    simp only [appendText, hempty, Bool.false_eq_true, if_false, outcome_engine, hs]

/-- Where nothing is open, there is nothing for a text to go to. -/
theorem outcome_appendText_of_nil (hs : w.engine.stack = []) {c : CodePoint} {t : Text}
    {offset : Option Int} :
    (appendText (c :: t) offset).outcome w = (.error (.stack .nothingForText), w) := by
  rw [appendText]
  simp only [List.isEmpty_cons, Bool.false_eq_true, if_false, outcome_engine, hs]
  rfl

/-- The forest after text was appended to the innermost open node. -/
def textForest (w : World σ) (t : Text) (offset : Option Int) : Forest :=
  match w.engine.stack with
  | [] => w.forest
  | top :: _ => w.forest.after (Forest.appendToLastText top t (some (offset.getD w.engine.cursor)))

theorem after_appendText (t : Text) (offset : Option Int) (w : World σ) :
    ((appendText t offset).outcome w).2 = w.withForest (textForest w t offset) := by
  rw [textForest]
  cases hs : w.engine.stack with
  | nil =>
      cases t with
      | nil => rfl
      | cons c t => rw [outcome_appendText_of_nil hs]; rfl
  | cons top rest => rw [outcome_appendText hs, after_tree]

theorem exists_outcome_appendText (t : Text) (offset : Option Int) (w : World σ) :
    ∃ ended, (appendText t offset).outcome w = (ended, w.withForest (textForest w t offset)) :=
  ⟨_, Prod.ext rfl (after_appendText t offset w)⟩

/-! ## Opening and closing -/

/-- A push attaches the node to the innermost open node and opens it, or leaves the
engine alone. -/
theorem push_cases (n : Arg) (w : World σ) :
    (∃ e f, (push n).outcome w = (.error e, w.withForest f)
        ∧ (f = w.forest ∨ ∃ top rest h, w.engine.stack = top :: rest ∧ n = .node h
            ∧ (Forest.append top h).run w.forest = .error e f))
      ∨ ∃ top rest h f, w.engine.stack = top :: rest ∧ n = .node h
        ∧ (Forest.append top h).run w.forest = .ok () f
        ∧ (push n).outcome w = (.ok h, (w.withForest f).onEngine fun e =>
            count (fun m => { m with pushed := m.pushed + 1 }) { e with stack := h :: e.stack }) := by
  rw [push, outcome_engine]
  cases hs : w.engine.stack with
  | nil => exact .inl ⟨_, w.forest, rfl, .inl rfl⟩
  | cons top rest =>
      dsimp only
      rw [outcome_bind, outcome_tree]
      cases n with
      | other v =>
          have refused : (Edit.append top (.other v)).run.run w.forest
            = .error (.edit .childNotANode) w.forest := rfl
          rw [refused]
          exact .inl ⟨_, w.forest, rfl, .inl rfl⟩
      | node h =>
          have shape : (Edit.append top (.node h)).run.run w.forest
            = match (Forest.append top h).run w.forest with
              | .ok _ f => .ok h f
              | .error e f => .error e f := by
            rw [Edit.run, Arg.asChild, pure_bind]
            simp only [bind, EStateM.bind, EStateM.run]
            cases Forest.append top h w.forest <;> rfl
          cases hr : (Forest.append top h).run w.forest with
          | error e f =>
              rw [hr] at shape
              rw [shape]
              exact .inl ⟨e, f, rfl, .inr ⟨top, rest, h, rfl, rfl, hr⟩⟩
          | ok u f =>
              rw [hr] at shape
              rw [shape]
              exact .inr ⟨top, rest, h, f, rfl, rfl, hr, rfl⟩

/-- Closing takes the innermost node off the stack, but never the last one. -/
theorem pop_cases (w : World σ) :
    (∃ e, pop.outcome w = (.error e, w))
      ∨ ∃ top next rest, w.engine.stack = top :: next :: rest ∧ pop.outcome w
          = (.ok top, w.onEngine fun e => { e with stack := next :: rest }) := by
  rw [pop, outcome_engine]
  cases hs : w.engine.stack with
  | nil => exact .inl ⟨_, rfl⟩
  | cons top rest =>
      cases rest with
      | nil => exact .inl ⟨_, rfl⟩
      | cons next rest => exact .inr ⟨top, next, rest, rfl, rfl⟩

/-- Closing everything leaves the root on the stack. -/
theorem closeOpen_cases (w : World σ) :
    (∃ b, closeOpen.outcome w = (.ok b, w))
      ∨ Unmoved (w.onEngine fun e => { e with stack := e.stack.getLast?.toList })
          (closeOpen.outcome w).2 := by
  rw [closeOpen, outcome_engine]
  dsimp only
  by_cases hn : w.engine.openCount ≤ 0
  · rw [if_pos hn]
    exact .inl ⟨_, rfl⟩
  rw [if_neg hn]
  by_cases hs : w.engine.isStrict = true
  · rw [if_pos hs]
    exact .inl ⟨_, rfl⟩
  rw [if_neg hs, outcome_modifyEngine]
  refine .inr (Unmoved.trans ?_ (unmoved_bind (unmoved_diagnose ..) fun _ w' => .refl w'))
  exact ⟨rfl, rfl, rfl⟩

/-! ## Recovery -/

theorem originOf_cases (top : Handle) (w : World σ) :
    (∃ e, (originOf top).outcome w = (.error e, w))
      ∨ ∃ o, (w.forest.node top).origin = some o ∧ o < w.engine.text.length
          ∧ (originOf top).outcome w = (.ok o, w) := by
  rw [originOf, outcome_get]
  dsimp only
  cases (w.forest.node top).origin with
  | none => exact .inl ⟨_, rfl⟩
  | some o =>
      dsimp only
      rw [outcome_engine]
      by_cases ho : (w.engine.text.length : Int) ≤ o
      · rw [if_pos ho]
        exact .inl ⟨_, rfl⟩
      · rw [if_neg ho]
        exact .inr ⟨o, rfl, by omega, rfl⟩

theorem outcome_putAside (top p : Handle) (w : World σ) :
    (putAside top p).outcome w
      = match (Forest.removeNode p top).run w.forest with
        | .ok _ f => (.ok (), (w.withForest f).onEngine fun e =>
            { e with detached := top :: e.detached, stack := e.stack.tail })
        | .error e f => (.error e, w.withForest f) := by
  rw [putAside, outcome_bind, outcome_tree]
  cases (Forest.removeNode p top).run w.forest <;> rfl

/-- A recovery begins by taking the innermost node from its parent, unless there is
nothing to take.  It may find afterwards that the node does not know where it
began. -/
theorem withdraw_cases (w : World σ) :
    (∃ e, withdraw.outcome w = (.error e, w))
      ∨ ∃ top next rest p, w.engine.stack = top :: next :: rest ∧ w.forest.parent top = some p
        ∧ ((∃ e f, (Forest.removeNode p top).run w.forest = .error e f
              ∧ withdraw.outcome w = (.error e, w.withForest f))
          ∨ ∃ c f, (Forest.removeNode p top).run w.forest = .ok c f
              ∧ (withdraw.outcome w).2 = (w.withForest f).onEngine (fun e =>
                  { e with detached := top :: e.detached, stack := next :: rest })
              ∧ ∀ h o, (withdraw.outcome w).1 = .ok (h, o) →
                  h = top ∧ (f.node top).origin = some o ∧ o < w.engine.text.length) := by
  rw [withdraw, outcome_engine]
  cases hs : w.engine.stack with
  | nil => exact .inl ⟨_, rfl⟩
  | cons top rest =>
    cases rest with
    | nil => exact .inl ⟨_, rfl⟩
    | cons next rest =>
      dsimp only
      by_cases hl : w.engine.limitReached = true
      · rw [if_pos hl]
        exact .inl ⟨_, rfl⟩
      rw [if_neg hl, outcome_get]
      cases hp : w.forest.parent top with
      | none => exact .inl ⟨_, rfl⟩
      | some p =>
        refine .inr ⟨top, next, rest, p, rfl, hp, ?_⟩
        dsimp only
        rw [outcome_bind, outcome_putAside]
        cases hr : (Forest.removeNode p top).run w.forest with
        | error e f => exact .inl ⟨e, f, rfl, rfl⟩
        | ok c f =>
          refine .inr ⟨c, f, rfl, ?_⟩
          have aside : (w.withForest f).onEngine (fun e =>
                { e with detached := top :: e.detached, stack := e.stack.tail })
              = (w.withForest f).onEngine (fun e =>
                { e with detached := top :: e.detached, stack := next :: rest }) := by
            rw [World.onEngine, World.onEngine]
            simp only [World.engine_withForest, hs, List.tail_cons]
          dsimp only
          rw [outcome_bind, aside]
          rcases originOf_cases top ((w.withForest f).onEngine (fun e =>
              { e with detached := top :: e.detached, stack := next :: rest }))
            with ⟨e, he⟩ | ⟨o, ho, hlt, hok⟩
          · rw [he]
            refine ⟨rfl, fun h o heq => ?_⟩
            cases heq
          · rw [hok]
            refine ⟨rfl, fun h o' heq => ?_⟩
            cases heq
            exact ⟨rfl, ho, hlt⟩

/-- Of the engine it changes at most the stack and the nodes that are put aside. -/
theorem engine_withdraw (w : World σ) : ∃ stack aside,
    (withdraw.outcome w).2.engine = { w.engine with stack := stack, detached := aside } := by
  rcases withdraw_cases w with ⟨e, hout⟩ | ⟨top, next, rest, p, -, -, ⟨e, f, -, hout⟩ | ⟨c, f, -, hout, -⟩⟩
  · rw [hout]
    exact ⟨_, _, rfl⟩
  · rw [hout]
    exact ⟨_, _, rfl⟩
  · rw [hout]
    exact ⟨_, _, rfl⟩

/-- If it succeeds it returns the node, which is put aside, and where the node began. -/
theorem exists_of_withdraw {h : Handle} {o : Int} (returned : withdraw.outcome w = (.ok (h, o), w')) :
    ∃ next rest p c f, w.engine.stack = h :: next :: rest ∧ w.forest.parent h = some p
      ∧ (Forest.removeNode p h).run w.forest = .ok c f
      ∧ w' = (w.withForest f).onEngine (fun e =>
          { e with detached := h :: e.detached, stack := next :: rest })
      ∧ (f.node h).origin = some o ∧ o < w.engine.text.length := by
  rcases withdraw_cases w
    with ⟨e, hout⟩ | ⟨top, next, rest, p, hs, hp, ⟨e, f, -, hout⟩ | ⟨c, f, hr, hout, reply⟩⟩
  · rw [returned] at hout
    cases hout
  · rw [returned] at hout
    cases hout
  · rw [returned] at hout reply
    obtain ⟨rfl, began, before⟩ := reply h o rfl
    exact ⟨next, rest, p, c, f, hs, hp, hr, hout, began, before⟩

/-- The second half of a recovery appends a code point and sets the cursor, or fails
before it gets there. -/
theorem resume_cases (top : Handle) (origin : Int) (w : World σ) :
    (∃ e f, (resume top origin).outcome w = (.error e, w.withForest f)
        ∧ (f = w.forest ∨ ∃ c, f = textForest w [c] (some origin)))
      ∨ ∃ c inner rest f, w.engine.text.at? origin = some c ∧ w.engine.stack = inner :: rest
        ∧ (Forest.appendToLastText inner [c] (some origin)).run w.forest = .ok () f
        ∧ Unmoved ((w.withForest f).onEngine fun e =>
            { e with cursor := origin + 1, rewound := true }) ((resume top origin).outcome w).2 := by
  rw [resume, outcome_bind, appendPoint, outcome_engine]
  cases hc : w.engine.text.at? origin with
  | none => exact .inl ⟨_, _, rfl, .inl rfl⟩
  | some c =>
      dsimp only
      cases hs : w.engine.stack with
      | nil =>
          rw [outcome_appendText_of_nil hs]
          exact .inl ⟨_, _, rfl, .inl rfl⟩
      | cons inner rest =>
          rw [outcome_appendText hs, outcome_tree]
          simp only [Option.getD_some]
          cases hr : (Forest.appendToLastText inner [c] (some origin)).run w.forest with
          | error e f =>
              refine .inl ⟨e, f, rfl, .inr ⟨c, ?_⟩⟩
              rw [textForest, hs]
              exact (Forest.after_of_error hr).symm
          | ok u f =>
              refine .inr ⟨c, inner, rest, f, rfl, rfl, hr, ?_⟩
              dsimp only
              rw [outcome_modifyEngine, outcome_get, outcome_log]
              refine Unmoved.trans ?_ (unmoved_diagnose ..)
              exact ⟨rfl, rfl, rfl⟩

/-! ## The scan -/

/-- Moving to a needle appends the text before it. -/
theorem approach_cases (position : Nat) (w : World σ) :
    (∃ e, (approach position).outcome w
        = (.error e, w.withForest (textForest w (w.engine.text.between w.engine.cursor position) none)))
      ∨ (appendText (w.engine.text.between w.engine.cursor position) none).outcome w
          = (.ok (), w.withForest (textForest w (w.engine.text.between w.engine.cursor position) none))
        ∧ (approach position).outcome w = (.ok w.engine.status,
          (w.withForest (textForest w (w.engine.text.between w.engine.cursor position) none)).onEngine
            fun e => count (fun m => { m with needles := m.needles + 1 }) { e with cursor := position }) := by
  obtain ⟨r, appended⟩ :=
    exists_outcome_appendText (w.engine.text.between w.engine.cursor position) none w
  rw [approach, outcome_engine, outcome_bind, appended]
  cases r with
  | error e => exact .inl ⟨e, rfl⟩
  | ok u => exact .inr ⟨rfl, rfl⟩

theorem outcome_accept (needle : Text) (w : World σ) :
    (accept needle).outcome w
      = (.ok (), if w.engine.rewound then w
          else w.onEngine fun e => { e with cursor := e.cursor + needle.length }) := by
  rw [accept, outcome_engine]
  cases w.engine.rewound <;> rfl

/-- A rejected needle fails the scan, or one code point becomes text. -/
theorem reject_cases (needle : Text) (position : Nat) (w : World σ) :
    (∃ e w', (reject needle position).outcome w = (.error e, w')
        ∧ ∃ f, Unmoved (w.withForest f) w' ∧ (f = w.forest ∨ ∃ c, f = textForest w [c] none))
      ∨ ∃ c inner rest f w', w.engine.text.at? w.engine.cursor = some c
        ∧ w.engine.stack = inner :: rest
        ∧ (Forest.appendToLastText inner [c] (some w.engine.cursor)).run w.forest = .ok () f
        ∧ (reject needle position).outcome w = (.ok (), w')
        ∧ Unmoved ((w.withForest f).onEngine fun e => { e with cursor := e.cursor + 1 }) w' := by
  rw [reject, outcome_engine]
  by_cases hs : w.engine.isStrict = true
  · rw [if_pos hs]
    exact .inl ⟨_, _, rfl, w.forest, .refl w, .inl rfl⟩
  rw [if_neg hs, downgrade, outcome_engine, outcome_log, outcome_modifyEngine]
  generalize hu : World.onEngine _ _ = u
  have noted : Unmoved w u := by
    rw [← hu]
    exact ⟨rfl, rfl, rfl⟩
  rw [outcome_bind]
  have moved := noted.trans (unmoved_diagnose .warning
    (Text.cat ["Construct ", needle.quoted, " not recognised; kept as literal text"])
    (.int w.engine.cursor) .null u)
  generalize (diagnose .warning _ _ _).outcome u = out at moved ⊢
  obtain ⟨r, v⟩ := out
  cases r with
  | error e => exact .inl ⟨e, v, rfl, w.forest, moved, .inl rfl⟩
  | ok _ =>
    dsimp only at moved ⊢
    cases hc : w.engine.text.at? w.engine.cursor with
    | none => exact .inl ⟨_, v, rfl, w.forest, moved, .inl rfl⟩
    | some c =>
      dsimp only
      rw [outcome_bind]
      cases hst : w.engine.stack with
      | nil =>
        rw [outcome_appendText_of_nil (moved.stack.trans hst)]
        exact .inl ⟨_, v, rfl, w.forest, moved, .inl rfl⟩
      | cons inner rest =>
        rw [outcome_appendText (moved.stack.trans hst), outcome_tree, moved.forest, moved.cursor,
          Option.getD_none]
        cases hr : (Forest.appendToLastText inner [c] (some w.engine.cursor)).run w.forest with
        | error e f =>
          refine .inl ⟨e, v.withForest f, rfl, f, ⟨rfl, moved.engine, moved.verdict⟩, .inr ⟨c, ?_⟩⟩
          rw [textForest, hst]
          exact (Forest.after_of_error hr).symm
        | ok _ f =>
          refine .inr ⟨c, inner, rest, f, _, rfl, rfl, hr, rfl, ⟨rfl, ?_, moved.verdict⟩⟩
          simp only [World.engine_onEngine, World.engine_withForest]
          rw [moved.engine]

/-- What is left of the text is appended. -/
theorem appendRest_cases (w : World σ) :
    (appendRest.outcome w = (.ok (), w) ∧ w.engine.text.length ≤ w.engine.cursor)
      ∨ (∃ e, appendRest.outcome w
          = (.error e, w.withForest (textForest w (w.engine.text.dropFrom w.engine.cursor) none)))
      ∨ w.engine.cursor < w.engine.text.length
        ∧ (appendText (w.engine.text.dropFrom w.engine.cursor) none).outcome w
          = (.ok (), w.withForest (textForest w (w.engine.text.dropFrom w.engine.cursor) none))
        ∧ appendRest.outcome w = (.ok (),
          (w.withForest (textForest w (w.engine.text.dropFrom w.engine.cursor) none)).onEngine
            fun e => { e with cursor := e.text.length }) := by
  obtain ⟨r, appended⟩ := exists_outcome_appendText (w.engine.text.dropFrom w.engine.cursor) none w
  rw [appendRest, outcome_engine]
  by_cases hc : w.engine.cursor < w.engine.text.length
  · right
    rw [if_pos hc, outcome_bind, appended]
    cases r with
    | error e => exact .inl ⟨e, rfl⟩
    | ok u => exact .inr ⟨hc, rfl, rfl⟩
  · rw [if_neg hc]
    exact .inl ⟨rfl, by omega⟩

/-! ## Rounds -/

/-- The world after a round has begun. -/
def begun (w : World σ) : World σ := w.onEngine fun e => { e with rewound := false }

/-- What a round that has ended well has done after it had begun. -/
inductive RoundEnds (g : Grammar σ) (w w' : World σ) : Bool → List (Moment σ) → Prop where
  | needle {needle : Text} {position : Nat} :
      Text.findNeedle? w.engine.needles w.engine.text w.engine.cursor = some (needle, position) →
      (needleCourse g needle position).outcome w = (.ok (), w') →
      RoundEnds g w w' true ((needleCourse g needle position).moments w)
  | ended : w' = w → RoundEnds g w w' false []
  | recovery : (recoverCourse (switchCourse g nestingLimit)).outcome w = (.ok (), w') →
      RoundEnds g w w' true ((recoverCourse (switchCourse g nestingLimit)).moments w)

theorem roundEnds_of_ok {g : Grammar σ} {again : Bool}
    (h : (roundCourse g).outcome w = (.ok again, w')) :
    ∃ ms, (roundCourse g).moments w = ⟨.beginRound, w⟩ :: ms ∧ RoundEnds g (begun w) w' again ms := by
  rw [roundCourse] at h ⊢
  obtain ⟨e, w₁, begins, h, moments⟩ := Course.exists_of_andThen_ok h
  rw [Course.outcome_take] at begins
  cases begins
  rw [moments, Course.moments_take]
  refine ⟨_, rfl, ?_⟩
  change Course.outcome _ (begun w) = _ at h
  change RoundEnds g (begun w) w' again (Course.moments _ (begun w))
  cases found : Text.findNeedle? w.engine.needles w.engine.text w.engine.cursor with
  | some pair =>
      simp only [found] at h ⊢
      obtain ⟨u, w₂, dealt, h, moments⟩ := Course.exists_of_andThen_ok h
      cases h
      rw [moments]
      show RoundEnds g (begun w) w' true (_ ++ [])
      rw [List.append_nil]
      exact .needle found dealt
  | none =>
      simp only [found] at h ⊢
      split at h
      case isTrue status =>
        cases h
        rw [if_pos status]
        exact .ended rfl
      case isFalse status =>
        rw [if_neg status]
        split at h
        case isTrue => cases h
        case isFalse strict =>
          rw [if_neg strict]
          obtain ⟨u, w₂, recovered, h, moments⟩ := Course.exists_of_andThen_ok h
          cases h
          rw [moments]
          show RoundEnds g (begun w) w' true (_ ++ [])
          rw [List.append_nil]
          exact .recovery recovered

/-! ## The beginning of a parse -/

theorem wellFormed_discardAll : ∀ (hs : List Handle) {f : Forest}, f.WellFormed →
    (f.after (discardAll hs)).WellFormed
  | [], _, wf => wf
  | h :: hs, f, wf => by
      rw [discardAll, Forest.after_bind, EStateM.run_get]
      dsimp only
      split
      · refine Forest.after_bind_of (fun e g hg => ?_) (fun u g hg => ?_)
        · rw [← Forest.after_of_error hg]
          exact wf.after_destroy h
        · refine wellFormed_discardAll hs ?_
          rw [← Forest.after_of_ok hg]
          exact wf.after_destroy h
      · exact wellFormed_discardAll hs wf

theorem steady_discardAll : ∀ hs : List Handle, Forest.Steady (discardAll hs)
  | [] => .pure ()
  | h :: hs => .get fun f =>
      (Forest.Steady.ite (.bind (Forest.steady_destroy h) fun _ => steady_discardAll hs)
        (steady_discardAll hs)) f

theorem outcome_discardDetached {u : Unit} (h : discardDetached.outcome w = (.ok u, w')) :
    w' = (w.withForest (w.forest.after (discardAll w.engine.detached.reverse))).onEngine
      fun e => { e with detached := [] } := by
  rw [discardDetached, outcome_engine] at h
  obtain ⟨_, w₁, hd, h⟩ := exists_of_bind_ok h
  have discarded := after_tree (discardAll w.engine.detached.reverse) w
  rw [hd] at discarded
  cases h
  rw [← discarded]
  rfl

theorem outcome_destroyRoot (w : World σ) : ∃ f, (destroyRoot.outcome w).2 = w.withForest f
    ∧ (w.forest.WellFormed → f.WellFormed) ∧ w.forest.OriginsKept f := by
  rw [destroyRoot, outcome_engine]
  cases w.engine.root with
  | none => exact ⟨w.forest, rfl, id, .refl _⟩
  | some r => exact ⟨_, after_tree .., fun wf => wf.after_destroy r, Forest.steady_destroy r _⟩

/-- Destroying a tree that must be there fails without one. -/
theorem destroyTree_cases (w : World σ) :
    destroyTree.outcome w = (.error (.noMember Value.null.typeName "destroy"), w)
      ∧ w.engine.root = none
    ∨ destroyTree.outcome w = destroyRoot.outcome w := by
  rw [destroyTree, destroyRoot, outcome_engine, outcome_engine]
  cases w.engine.root with
  | none => exact .inl ⟨rfl, rfl⟩
  | some r => exact .inr rfl

theorem outcome_destroyTree (w : World σ) : ∃ f, (destroyTree.outcome w).2 = w.withForest f
    ∧ (w.forest.WellFormed → f.WellFormed) ∧ w.forest.OriginsKept f := by
  rcases destroyTree_cases w with ⟨failed, -⟩ | same
  · rw [failed]
    exact ⟨w.forest, rfl, id, .refl _⟩
  · rw [same]
    exact outcome_destroyRoot w

theorem outcome_newRoot (w : World σ) : (assign .newRoot).outcome w
    = (.ok (), (w.withForest (w.forest.add .root).2).onEngine fun e =>
        { e with root := some w.forest.size, stack := [w.forest.size] }) := rfl

/-- A parse begins with a new root and nothing else. -/
structure Begins (w w' : World σ) (f : Forest) : Prop where
  wellFormed : w.forest.WellFormed → f.WellFormed
  origins : w.forest.OriginsKept f
  forest : w'.forest = (f.add .root).2
  cursor : w'.engine.cursor = 0
  stack : w'.engine.stack = [f.size]
  root : w'.engine.root = some f.size
  detached : w'.engine.detached = []
  status : w'.engine.status = 0
  output : w'.engine.output = .null
  strict : w'.engine.strict = w.engine.strict
  config : w'.engine.config = w.engine.config
  metrics : w'.engine.metrics
    = { w.engine.metrics with characters := w'.engine.text.length }
  report : w'.engine.report = w.engine.report

theorem begins_of_load {input : Input} {u : Unit} (h : (load input).outcome w = (.ok u, w')) :
    ∃ f, Begins w w' f := by
  rw [load, outcome_engine] at h
  obtain ⟨t, w₁, ht, h⟩ := exists_of_bind_ok h
  have same₁ : w₁ = w := by
    cases hi : inputText w.engine.codecs w.engine.config input with
    | error e => rw [hi] at ht; cases ht
    | ok t => rw [hi] at ht; cases ht; rfl
  obtain ⟨text, w₂, hfilter, h⟩ := exists_of_bind_ok h
  have same₂ := (unmoved_applyFilters .pre t w₁).forest
  rw [hfilter, same₁] at same₂
  have filtered : w₂.engine = w.engine := by
    have kept := engine_applyFilters .pre t w₁
    rw [hfilter, same₁] at kept
    exact kept
  rw [outcome_modifyEngine] at h
  obtain ⟨u₃, w₃, hdiscard, h⟩ := exists_of_bind_ok h
  have discarded := outcome_discardDetached hdiscard
  obtain ⟨u₄, w₄, hdestroy, h⟩ := exists_of_bind_ok h
  obtain ⟨f, destroyed, hf, kept⟩ := outcome_destroyRoot w₃
  rw [hdestroy] at destroyed
  dsimp only at destroyed
  rw [outcome_bind, outcome_newRoot] at h
  cases h
  have wellFormed : w.forest.WellFormed → f.WellFormed := by
    intro wf
    refine hf ?_
    rw [discarded]
    refine wellFormed_discardAll _ ?_
    rw [World.forest_onEngine, same₂]
    exact wf
  have origins : w.forest.OriginsKept f := by
    refine .trans ?_ kept
    rw [discarded, ← same₂]
    exact steady_discardAll _ _
  have forest : w₄.forest = f := by rw [destroyed]; rfl
  have engine : w₄.engine = w₃.engine := by rw [destroyed]; rfl
  refine ⟨f, wellFormed, origins, ?_, ?_, ?_, ?_, ?_, ?_, ?_, ?_, ?_, ?_, ?_⟩ <;>
    simp [count, forest, engine, discarded, filtered]

/-- Where there was neither a root nor anything put aside, a parse that does not begin has read
its input in vain, and has changed nothing. -/
theorem unmoved_of_load {input : Input} {e : Fault} (root : w.engine.root = none)
    (aside : w.engine.detached = []) (h : (load input).outcome w = (.error e, w')) :
    Unmoved w w' := by
  rw [load, outcome_engine, outcome_bind] at h
  cases hi : inputText w.engine.codecs w.engine.config input with
  | error f =>
      rw [hi] at h
      cases h
      exact .refl w
  | ok t =>
      rw [hi] at h
      change outcome (applyFilters .pre t >>= _) w = _ at h
      rw [outcome_bind] at h
      have filtered := unmoved_applyFilters .pre t w
      generalize (applyFilters .pre t).outcome w = out at h filtered
      obtain ⟨r, v⟩ := out
      cases r with
      | error f =>
          cases h
          exact filtered
      | ok text =>
          -- What is left to do cannot fail.
          dsimp only at h filtered
          rw [outcome_modifyEngine, outcome_bind, discardDetached, outcome_engine] at h
          simp only [World.engine_onEngine, filtered.detached, aside] at h
          change outcome (destroyRoot >>= _) _ = _ at h
          rw [outcome_bind, destroyRoot, outcome_engine] at h
          simp only [World.engine_onEngine, filtered.root, root] at h
          cases h

/-! ## The stages of a building -/

/-- The steps of a parse before it settles its report. -/
def parseMoments (g : Grammar σ) (rounds : Nat) (input : Input) (override : Option Text)
    (w : World σ) : List (Moment σ) :=
  (buildCourse g rounds input).moments ((enter override).outcome w).2

/-- How far a building has come, with the steps that it took. -/
inductive Stages (g : Grammar σ) (rounds : Nat) (input : Input) (w : World σ) :
    List (Moment σ) → Except Fault Unit → World σ → Prop where
  /-- There was no text to scan. -/
  | unread {f : Fault} {w' : World σ} : (load input).outcome w = (.error f, w') →
      Stages g rounds input w [⟨.load input, w⟩] (.error f) w'
  /-- The work was broken off. -/
  | broken {f : Fault} {u w' : World σ} : (load input).outcome w = (.ok (), u) →
      (workCourse g rounds).outcome u = (.error f, w') →
      Stages g rounds input w (⟨.load input, w⟩ :: (workCourse g rounds).moments u) (.error f) w'
  /-- The work was done, and its product handed out. -/
  | worked {out : Except Fault Unit} {u v w' : World σ} : (load input).outcome w = (.ok (), u) →
      (workCourse g rounds).outcome u = (.ok (), v) → handOut.outcome v = (out, w') →
      Stages g rounds input w
        (⟨.load input, w⟩ :: ((workCourse g rounds).moments u ++ [⟨.handOut, v⟩])) out w'

theorem stages_of_build {g : Grammar σ} {rounds : Nat} {input : Input} {ended : Except Fault Unit}
    (h : (build g rounds input).outcome w = (ended, w')) :
    Stages g rounds input w ((buildCourse g rounds input).moments w) ended w' := by
  rw [← follows_buildCourse, buildCourse] at h
  rw [buildCourse]
  cases loaded : (load input).outcome w with
  | mk r u =>
    have first : (Course.take (.load input)).outcome w = (r, u) :=
      (Course.outcome_take ..).trans loaded
    cases r with
    | error f =>
        rw [Course.outcome_andThen_error first] at h
        cases h
        rw [Course.moments_andThen, first, Course.moments_take]
        exact .unread loaded
    | ok _ =>
      rw [Course.outcome_andThen_ok first] at h
      rw [Course.moments_andThen_ok first, Course.moments_take]
      cases worked : (workCourse g rounds).outcome u with
      | mk r v =>
        cases r with
        | error f =>
            rw [Course.outcome_andThen_error worked] at h
            cases h
            rw [Course.moments_andThen, worked]
            show Stages g rounds input w (_ :: (_ ++ [])) _ _
            rw [List.append_nil]
            exact .broken loaded worked
        | ok _ =>
            rw [Course.outcome_andThen_ok worked, Course.outcome_take] at h
            rw [Course.moments_andThen_ok worked, Course.moments_take]
            exact .worked loaded worked h

end Engine

end Needlework
