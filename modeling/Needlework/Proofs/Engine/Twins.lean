import Needlework.Proofs.Engine.Preservation
import Needlework.Proofs.Engine.Steps
import Needlework.Proofs.Forest.Twins

/-!
# Worlds side by side

Two worlds may differ in ways that a scan does not notice.  A *likeness* says in which.
Its forests agree on the nodes in scope, its memories are related, and its engines are the
same but for their strictness.  What else is to be known of the two engines, and of their
strictness in particular, is a relation on their *standing*: the settings, the counters of
repairs and the errors reported so far, which the scan hardly touches.

Worlds that are alike are *twins*.  Every step that does not depend on the strictness takes
twins to twins, with the same fault or with results that agree (`agree_op`, `agree_accept`,
`agree_handOut`).  A step that does depend on it does so too if the likeness is *fair*, that
is, if it knows both engines to be equally strict (`agree_reject`).

A likeness of every world with itself says what holds all along one run.
-/

namespace Needlework

/-- A report without what is handed out, with its errors for diagnostics. -/
def Report.gist (r : Report) : Report :=
  { r with tree := none, output := .null, entries := Diagnostic.ofSeverity .error r.entries }

namespace Engine

/-- An engine without its strictness. -/
def impartial (e : Engine) : Engine :=
  { e with strict := .null, config := { e.config with strict := .null } }

/-- An engine without its scan and its tree: its settings, the counters of repairs, and the report
with the errors in it. -/
def standing (e : Engine) : Engine :=
  { e with
    text := [], cursor := 0, stack := [], status := 0, needles := [], output := .null
    root := none, detached := [], rewound := false
    metrics :=
      { recoveries := e.metrics.recoveries
        downgrades := e.metrics.downgrades
        forceClosed := e.metrics.forceClosed }
    report := e.report.map Report.gist }

/-- One more recovery. -/
def recovered : Engine → Engine := count fun m => { m with recoveries := m.recoveries + 1 }

/-- One more needle kept as text. -/
def downgraded : Engine → Engine := count fun m => { m with downgrades := m.downgrades + 1 }

/-- So many more constructs closed at the end. -/
def closedBy (n : Int) : Engine → Engine := count fun m => { m with forceClosed := m.forceClosed + n }

/-- The open nodes, the root, the nodes put aside and the tree of the report are in scope. -/
structure InScope (In : Handle → Prop) (stack : List Handle) (root : Option Handle)
    (detached : List Handle) (report : Option Report) : Prop where
  stack : ∀ h ∈ stack, In h
  root : ∀ h, root = some h → In h
  detached : ∀ h ∈ detached, In h
  tree : ∀ r h, report = some r → r.tree = some h → In h

/-- Everything that an engine refers to is in scope. -/
def Scoped (In : Handle → Prop) (e : Engine) : Prop :=
  InScope In e.stack e.root e.detached e.report

/-! ## Outcomes that agree -/

variable {σ α β α' β' : Type}

/-- Two replies agree: values that match, or the same fault. -/
inductive Answers (P : Fault → Prop) (Q : α → β → Prop) :
    Except Fault α → Except Fault β → Prop where
  | ok {a : α} {b : β} : Q a b → Answers P Q (.ok a) (.ok b)
  | error {f : Fault} : P f → Answers P Q (.error f) (.error f)

/-- Two outcomes agree: replies that do, and related worlds. -/
structure Agree (R : World σ → World σ → Prop) (P : Fault → Prop) (Q : α → β → Prop)
    (out : Except Fault α × World σ) (out' : Except Fault β × World σ) : Prop where
  answers : Answers P Q out.1 out'.1
  worlds : R out.2 out'.2

namespace Agree

variable {R : World σ → World σ → Prop} {P : Fault → Prop} {Q : α → β → Prop}
  {Q' : α' → β' → Prop} {w v : World σ}

theorem ok {a : α} {b : β} (hq : Q a b) (hr : R w v) : Agree R P Q (.ok a, w) (.ok b, v) :=
  ⟨.ok hq, hr⟩

theorem error {f : Fault} (hp : P f) (hr : R w v) : Agree R P Q (.error f, w) (.error f, v) :=
  ⟨.error hp, hr⟩

theorem cases {out : Except Fault α × World σ} {out' : Except Fault β × World σ}
    (h : Agree R P Q out out') :
    (∃ a b w v, out = (.ok a, w) ∧ out' = (.ok b, v) ∧ Q a b ∧ R w v)
      ∨ ∃ f w v, out = (.error f, w) ∧ out' = (.error f, v) ∧ P f ∧ R w v := by
  obtain ⟨r, w⟩ := out
  obtain ⟨r', v⟩ := out'
  obtain ⟨answers, worlds⟩ := h
  cases answers with
  | ok hq => exact .inl ⟨_, _, w, v, rfl, rfl, hq, worlds⟩
  | error hp => exact .inr ⟨_, w, v, rfl, rfl, hp, worlds⟩

theorem imp {out : Except Fault α × World σ} {out' : Except Fault β × World σ} {Q' : α → β → Prop}
    (h : Agree R P Q out out') (hq : ∀ a b, Q a b → Q' a b) : Agree R P Q' out out' := by
  rcases h.cases with ⟨a, b, w, v, rfl, rfl, h, hr⟩ | ⟨f, w, v, rfl, rfl, hp, hr⟩
  · exact .ok (hq a b h) hr
  · exact .error hp hr

theorem bind {x : Act σ α} {y : Act σ β} {k : α → Act σ α'} {l : β → Act σ β'}
    (hx : Agree R P Q (x.outcome w) (y.outcome v))
    (hk : ∀ a b w v, Q a b → R w v → Agree R P Q' ((k a).outcome w) ((l b).outcome v)) :
    Agree R P Q' (Act.outcome (x >>= k) w) (Act.outcome (y >>= l) v) := by
  rw [Act.outcome_bind, Act.outcome_bind]
  rcases hx.cases with ⟨a, b, w', v', ha, hb, hq, hr⟩ | ⟨f, w', v', ha, hb, hp, hr⟩
  · rw [ha, hb]
    exact hk a b w' v' hq hr
  · rw [ha, hb]
    exact .error hp hr

end Agree

/-! ## Likenesses -/

/-- A way in which two worlds are alike. -/
structure Likeness (σ : Type) where
  forest : Forest → Forest → Prop
  In : Handle → Prop
  memory : σ → σ → Prop
  standing : Engine → Engine → Prop
  /-- The faults that may come up. -/
  fault : Fault → Prop
  twins : Forest.Twins forest In fault
  filters : ∀ {e e'}, standing e e' → ∀ k, ∀ c ∈ e.filters.get k, ∀ t f, c.run t = .error f → fault f
  recovered : ∀ {e e'}, standing e e' → standing e.recovered e'.recovered

namespace Likeness

/-- What the library has found itself may come up. -/
theorem own (L : Likeness σ) : ∀ f : Fault, f.IsOwn → L.fault f := L.twins.own

/-- Two worlds are alike. -/
structure Twin (L : Likeness σ) (w v : World σ) : Prop where
  forest : L.forest w.forest v.forest
  memory : L.memory w.memory v.memory
  kin : v.engine.impartial = w.engine.impartial
  standing : L.standing w.engine.standing v.engine.standing
  inScope : w.engine.Scoped L.In

/-- A likeness whose engines are equally strict. -/
structure Fair (L : Likeness σ) : Prop where
  strict : ∀ {e e'}, L.standing e e' → e'.strict = e.strict
  downgraded : ∀ {e e'}, L.standing e e' → L.standing e.downgraded e'.downgraded
  closed : ∀ {e e'} (n : Int), 0 < n → L.standing e e' → L.standing (e.closedBy n) (e'.closedBy n)

variable {L : Likeness σ} {w v : World σ}

namespace Twin

theorem stack (t : L.Twin w v) : v.engine.stack = w.engine.stack := (congrArg Engine.stack t.kin :)

theorem cursor (t : L.Twin w v) : v.engine.cursor = w.engine.cursor := (congrArg Engine.cursor t.kin :)

theorem text (t : L.Twin w v) : v.engine.text = w.engine.text := (congrArg Engine.text t.kin :)

theorem status (t : L.Twin w v) : v.engine.status = w.engine.status := (congrArg Engine.status t.kin :)

theorem needles (t : L.Twin w v) : v.engine.needles = w.engine.needles := (congrArg Engine.needles t.kin :)

theorem output (t : L.Twin w v) : v.engine.output = w.engine.output := (congrArg Engine.output t.kin :)

theorem root (t : L.Twin w v) : v.engine.root = w.engine.root := (congrArg Engine.root t.kin :)

theorem detached (t : L.Twin w v) : v.engine.detached = w.engine.detached :=
  (congrArg Engine.detached t.kin :)

theorem rewound (t : L.Twin w v) : v.engine.rewound = w.engine.rewound := (congrArg Engine.rewound t.kin :)

theorem report (t : L.Twin w v) : v.engine.report = w.engine.report := (congrArg Engine.report t.kin :)

theorem filters (t : L.Twin w v) : v.engine.filters = w.engine.filters := (congrArg Engine.filters t.kin :)

theorem correlation (t : L.Twin w v) : v.engine.correlation = w.engine.correlation :=
  (congrArg Engine.correlation t.kin :)

theorem diagnostics (t : L.Twin w v) :
    v.engine.config.enableDiagnostics = w.engine.config.enableDiagnostics :=
  (congrArg (fun e : Engine => e.config.enableDiagnostics) t.kin :)

theorem maxRecoveries (t : L.Twin w v) :
    v.engine.config.maxRecoveries = w.engine.config.maxRecoveries :=
  (congrArg (fun e : Engine => e.config.maxRecoveries) t.kin :)

theorem limitReached (t : L.Twin w v) : v.engine.limitReached = w.engine.limitReached :=
  (congrArg Engine.limitReached t.kin :)

theorem openCount (t : L.Twin w v) : v.engine.openCount = w.engine.openCount :=
  (congrArg Engine.openCount t.kin :)

theorem withForest (t : L.Twin w v) {f f' : Forest} (hf : L.forest f f') :
    L.Twin (w.withForest f) (v.withForest f') :=
  ⟨hf, t.memory, t.kin, t.standing, t.inScope⟩

theorem withLog (t : L.Twin w v) (l l' : List Record) :
    L.Twin { w with log := l } { v with log := l' } :=
  ⟨t.forest, t.memory, t.kin, t.standing, t.inScope⟩

/-- A change that does not look at the strictness. -/
theorem onEngine (t : L.Twin w v) {c : Engine → Engine}
    (kin : ∀ e, (c e).impartial = c e.impartial)
    (standing : L.standing (c w.engine).standing (c v.engine).standing)
    (inScope : (c w.engine).Scoped L.In) :
    L.Twin (w.onEngine c) (v.onEngine c) where
  forest := t.forest
  memory := t.memory
  kin := by
    show (c v.engine).impartial = (c w.engine).impartial
    rw [kin, kin, t.kin]
  standing := standing
  inScope := inScope

theorem isStrict (t : L.Twin w v) (fair : L.Fair) : v.engine.isStrict = w.engine.isStrict := by
  have same : v.engine.standing.strict = w.engine.standing.strict := fair.strict t.standing
  exact congrArg Value.truthy same

theorem top {top : Handle} {rest : List Handle} (t : L.Twin w v)
    (hs : w.engine.stack = top :: rest) : L.In top := by
  refine t.inScope.stack top ?_
  rw [hs]
  exact List.mem_cons_self

end Twin

/-- The outcomes of two actions agree. -/
abbrev Agrees (L : Likeness σ) (Q : α → β → Prop) (x : Act σ α) (y : Act σ β) (w v : World σ) : Prop :=
  Agree L.Twin L.fault Q (x.outcome w) (y.outcome v)

/-- Both results are there, whatever they are. -/
abbrev Both : α → β → Prop := fun _ _ => True

/-! ## Actions -/

theorem agree_tree {Q : α → Prop} {x : TreeM α} (hx : Forest.Alike L.forest L.fault Q x)
    (t : L.Twin w v) : L.Agrees (fun a b => b = a ∧ Q a) (Act.tree x) (Act.tree x) w v := by
  rw [Agrees, Act.outcome_tree, Act.outcome_tree]
  have ends := hx _ _ t.forest
  generalize x.run w.forest = out, x.run v.forest = out' at ends
  cases ends with
  | ok ha hf => exact .ok ⟨rfl, ha⟩ (t.withForest hf)
  | error he hf => exact .error he (t.withForest hf)

/-- A diagnostic is refused for reasons of its own. -/
theorem isOwn_of_check {d : Diagnostic} {f : Fault} (h : d.check = .error f) : f.IsOwn := by
  rw [Diagnostic.check] at h
  split at h
  · cases h; trivial
  split at h
  · cases h; trivial
  · rw [Diagnostic.checkOffset] at h
    split at h
    · cases h
    · split at h <;> cases h <;> trivial

theorem isOwn_of_add {r : Report} {severity : Severity} {message component : Text}
    {offset details : Value} {f : Fault}
    (h : r.add severity message component offset details = .error f) : f.IsOwn := by
  rw [Report.add] at h
  generalize checked : Diagnostic.check _ = result at h
  cases result with
  | ok d => cases h
  | error f' =>
      cases h
      exact isOwn_of_check checked

theorem gist_of_add {r r' : Report} {severity : Severity} {message component : Text}
    {offset details : Value} (h : r.add severity message component offset details = .ok r')
    (hs : severity ≠ .error) : r'.gist = r.gist := by
  obtain ⟨d, same, rfl⟩ := Report.exists_of_add h
  simp [Report.gist, Diagnostic.ofSeverity, same, hs]

theorem agree_diagnose {severity : Severity} (hs : severity ≠ .error) (message : Text)
    (offset details : Value) (t : L.Twin w v) :
    L.Agrees Both (Act.diagnose severity message offset details)
      (Act.diagnose severity message offset details) w v := by
  rw [Agrees, Act.diagnose, Act.outcome_engine, Act.outcome_engine, t.report, t.diagnostics]
  cases hr : w.engine.report with
  | none => exact .ok trivial t
  | some r =>
      dsimp only
      split
      · cases added : r.add severity message Engine.component offset details with
        | error f => exact .error (L.own f (isOwn_of_add added)) t
        | ok r' =>
            have noted : ∀ u : World σ, u.engine.report = some r →
                ({ u.engine with report := some r' } : Engine).standing = u.engine.standing :=
              fun u hu => by simp [Engine.standing, hu, gist_of_add added hs]
            refine .ok trivial ⟨t.forest, t.memory, ?_, ?_, ?_⟩
            · exact congrArg (fun e : Engine => { e with report := some r' }) t.kin
            · show L.standing ({ w.engine with report := some r' } : Engine).standing
                ({ v.engine with report := some r' } : Engine).standing
              rw [noted w hr, noted v (t.report.trans hr)]
              exact t.standing
            · refine ⟨t.inScope.stack, t.inScope.root, t.inScope.detached, fun rep h hrep htree => ?_⟩
              cases hrep
              refine t.inScope.tree r h hr ?_
              rw [← htree]
              exact (congrArg Report.tree (Report.verdict_of_add added)).symm
      · exact .ok trivial t

/-! ## Text -/

theorem agree_appendText (text : Text) (offset : Option Int) (t : L.Twin w v) :
    L.Agrees Both (appendText text offset) (appendText text offset) w v := by
  rw [Agrees, appendText]
  split
  · exact .ok trivial t
  rw [Act.outcome_engine, Act.outcome_engine, t.stack, t.cursor]
  cases hs : w.engine.stack with
  | nil => exact .error (L.own _ trivial) t
  | cons top rest =>
      exact (agree_tree (L.twins.alike_appendToLastText (t.top hs) text _) t).imp fun _ _ _ => trivial

theorem agree_push {n : Arg} (hn : n.Scoped L.In) (t : L.Twin w v) :
    L.Agrees (fun a b => b = a ∧ L.In a) (push n) (push n) w v := by
  rw [Agrees, push, Act.outcome_engine, Act.outcome_engine, t.stack]
  cases hs : w.engine.stack with
  | nil => exact .error (L.own _ trivial) t
  | cons top rest =>
      have attached := agree_tree (L.twins.alike_edit (e := .append top n) ⟨t.top hs, hn⟩ trivial) t
      refine attached.bind fun a b w v hab t => ?_
      obtain ⟨rfl, ha⟩ := hab
      refine .ok ⟨rfl, ha⟩ (t.onEngine (c := fun e =>
        count (fun m => { m with pushed := m.pushed + 1 }) { e with stack := b :: e.stack })
        (fun _ => rfl) t.standing ?_)
      refine ⟨fun h hh => ?_, t.inScope.root, t.inScope.detached, t.inScope.tree⟩
      rcases List.mem_cons.mp hh with rfl | hh
      · exact ha
      · exact t.inScope.stack h hh

theorem agree_pop (t : L.Twin w v) : L.Agrees (fun a b => b = a ∧ L.In a) pop pop w v := by
  rw [Agrees, pop, Act.outcome_engine, Act.outcome_engine, t.stack]
  rcases hs : w.engine.stack with _ | ⟨top, _ | ⟨next, rest⟩⟩
  · exact .error (L.own _ trivial) t
  · exact .error (L.own _ trivial) t
  · refine .ok ⟨rfl, t.top hs⟩ (t.onEngine (c := fun e => { e with stack := next :: rest })
        (fun _ => rfl) t.standing ?_)
    refine ⟨fun h hh => t.inScope.stack h ?_, t.inScope.root, t.inScope.detached, t.inScope.tree⟩
    rw [hs]
    exact List.mem_cons_of_mem top hh

/-! ## Recovery -/

theorem agree_originOf {top : Handle} (htop : L.In top) (t : L.Twin w v) :
    L.Agrees (fun a b => b = a) (originOf top) (originOf top) w v := by
  rw [Agrees, originOf, Act.outcome_get, Act.outcome_get, L.twins.node t.forest htop]
  dsimp only
  cases (w.forest.node top).origin with
  | none => exact .error (L.own _ trivial) t
  | some o =>
      dsimp only
      rw [Act.outcome_engine, Act.outcome_engine, t.text]
      split
      · exact .error (L.own _ trivial) t
      · exact .ok rfl t

theorem agree_putAside {top p : Handle} (htop : L.In top) (hp : L.In p) (t : L.Twin w v) :
    L.Agrees Both (putAside top p) (putAside top p) w v := by
  refine (agree_tree (L.twins.alike_removeNode hp htop) t).bind fun _ _ w v _ t => ?_
  refine .ok trivial (t.onEngine
    (c := fun e => { e with detached := top :: e.detached, stack := e.stack.tail })
    (fun _ => rfl) t.standing ?_)
  refine ⟨fun h hh => t.inScope.stack h (List.mem_of_mem_tail hh), t.inScope.root, fun h hh => ?_,
    t.inScope.tree⟩
  rcases List.mem_cons.mp hh with rfl | hh
  · exact htop
  · exact t.inScope.detached h hh

theorem agree_withdraw (t : L.Twin w v) :
    L.Agrees (fun a b => b = a ∧ L.In a.1) withdraw withdraw w v := by
  rw [Agrees, withdraw, Act.outcome_engine, Act.outcome_engine, t.stack, t.limitReached,
    t.maxRecoveries]
  rcases hs : w.engine.stack with _ | ⟨top, _ | ⟨next, rest⟩⟩
  · exact .error (L.own _ trivial) t
  · exact .error (L.own _ trivial) t
  · have htop := t.top hs
    dsimp only
    split
    · exact .error (L.own _ trivial) t
    rw [Act.outcome_get, Act.outcome_get, L.twins.parent t.forest htop,
      L.twins.idOf t.forest htop]
    cases hp : w.forest.parent top with
    | none => exact .error (L.own _ trivial) t
    | some p =>
        have aside := agree_putAside htop (L.twins.in_parent t.forest htop hp) t
        refine aside.bind fun _ _ w v _ t => ?_
        refine (agree_originOf htop t).bind fun o o' w v ho t => ?_
        cases ho
        exact .ok ⟨rfl, htop⟩ t

theorem agree_appendPoint (offset : Int) (t : L.Twin w v) :
    L.Agrees Both (appendPoint offset) (appendPoint offset) w v := by
  rw [Agrees, appendPoint, Act.outcome_engine, Act.outcome_engine, t.text]
  cases w.engine.text.at? offset with
  | none => exact .error (L.own _ trivial) t
  | some c => exact agree_appendText [c] (some offset) t

/-- A resumption looks at no more of its node than the id. -/
theorem agree_resume_of_idOf {top : Handle}
    (ids : ∀ {f f'}, L.forest f f' → f'.idOf top = f.idOf top) (origin : Int) (t : L.Twin w v) :
    L.Agrees Both (resume top origin) (resume top origin) w v := by
  refine (agree_appendPoint origin t).bind fun _ _ w v _ t => ?_
  rw [Act.outcome_modifyEngine, Act.outcome_modifyEngine, Act.outcome_get, Act.outcome_get,
    Act.outcome_log, Act.outcome_log, World.forest_onEngine, World.forest_onEngine, ids t.forest]
  have noted := t.onEngine (c := fun e => count (fun m => { m with recoveries := m.recoveries + 1 })
    { e with cursor := origin + 1, rewound := true }) (fun _ => rfl) (L.recovered t.standing)
    t.inScope
  exact agree_diagnose (by decide) _ _ _ (noted.withLog _ _)

theorem agree_resume {top : Handle} (htop : L.In top) (origin : Int) (t : L.Twin w v) :
    L.Agrees Both (resume top origin) (resume top origin) w v :=
  agree_resume_of_idOf (fun hf => L.twins.idOf hf htop) origin t

/-! ## The end of the text -/

theorem agree_closeOpen (fair : L.Fair) (t : L.Twin w v) :
    L.Agrees (fun a b => b = a) closeOpen closeOpen w v := by
  rw [Agrees, closeOpen, Act.outcome_engine, Act.outcome_engine, t.openCount, t.isStrict fair]
  dsimp only
  by_cases hn : w.engine.openCount ≤ 0
  · rw [if_pos hn]
    exact .ok rfl t
  rw [if_neg hn]
  split
  · exact .ok rfl t
  rw [Act.outcome_modifyEngine, Act.outcome_modifyEngine]
  have closed := t.onEngine
    (c := fun e => count (fun m => { m with forceClosed := m.forceClosed + w.engine.openCount })
      { e with stack := e.stack.getLast?.toList })
    (fun _ => rfl) (fair.closed _ (by omega) t.standing)
    ⟨fun h hh => t.inScope.stack h (List.mem_of_getLast? (Option.mem_toList.mp hh)), t.inScope.root,
      t.inScope.detached, t.inScope.tree⟩
  refine (agree_diagnose (by decide) _ _ _ closed).bind fun _ _ w v _ t => .ok rfl t

/-! ## Filters and refused parses -/

theorem exists_of_applyAll {logger : Logger} {fs : List Filter} {t : Text} {f : Fault}
    (h : (Pipeline.applyAll logger fs t).1 = .error f) : ∃ c ∈ fs, ∃ t, c.run t = .error f := by
  induction fs generalizing t with
  | nil => cases h
  | cons c fs ih =>
      have later : ∀ {t}, (Pipeline.applyAll logger fs t).1 = .error f →
          ∃ d ∈ c :: fs, ∃ t, d.run t = .error f := fun h => by
        obtain ⟨d, hd, t, ht⟩ := ih h
        exact ⟨d, List.mem_cons_of_mem c hd, t, ht⟩
      rw [Pipeline.applyAll] at h
      split at h
      · next e he =>
          cases h
          exact ⟨c, List.mem_cons_self, t, he⟩
      · exact later h
      · exact later h

theorem agree_applyFilters (k : FilterKind) (text : Text) (t : L.Twin w v) :
    L.Agrees (fun a b => b = a) (applyFilters k text) (applyFilters k text) w v := by
  rw [Agrees, applyFilters, Act.outcome_engine, Act.outcome_engine, t.filters, t.correlation]
  dsimp only
  have raised := L.filters t.standing k
  rw [Act.outcome_bind, Act.outcome_bind]
  cases hr : (w.engine.filters.apply (Pipeline.logger w.engine.correlation) k text).1 with
  | ok u => exact .ok rfl (t.withLog _ _)
  | error f =>
      obtain ⟨c, hc, u, hu⟩ := exists_of_applyAll hr
      exact .error (raised c hc u f hu) (t.withLog _ _)

theorem agree_refuseParse (t : L.Twin w v) :
    L.Agrees (fun a b => b = a) refuseParse refuseParse w v := by
  rw [Agrees, refuseParse, Act.outcome_log, Act.outcome_log, Act.outcome_engine, Act.outcome_engine]
  dsimp only
  rw [t.diagnostics, t.correlation]
  split
  · cases added : Report.add _ _ _ _ _ _ with
    | ok r => exact .ok rfl (t.withLog _ _)
    | error f => exact .error (L.own f (isOwn_of_add added)) (t.withLog _ _)
  · exact .ok rfl (t.withLog _ _)

/-! ## The scan -/

theorem agree_beginRound (t : L.Twin w v) :
    L.Agrees (fun e e' => e'.impartial = e.impartial ∧ L.standing e.standing e'.standing)
      beginRound beginRound w v := by
  have begun := t.onEngine (c := fun e => { e with rewound := false }) (fun _ => rfl) t.standing
    t.inScope
  exact .ok ⟨begun.kin, begun.standing⟩ begun

theorem agree_approach (position : Nat) (t : L.Twin w v) :
    L.Agrees (fun a b => b = a) (approach position) (approach position) w v := by
  rw [Agrees, approach, Act.outcome_engine, Act.outcome_engine, t.text, t.cursor, t.status]
  refine (agree_appendText _ none t).bind fun _ _ w v _ t => ?_
  exact .ok rfl (t.onEngine (c := fun e =>
    count (fun m => { m with needles := m.needles + 1 }) { e with cursor := position })
    (fun _ => rfl) t.standing t.inScope)

theorem agree_accept (needle : Text) (t : L.Twin w v) :
    L.Agrees Both (accept needle) (accept needle) w v := by
  rw [Agrees, outcome_accept, outcome_accept, t.rewound]
  refine .ok trivial ?_
  split
  · exact t
  · exact t.onEngine (c := fun e => { e with cursor := e.cursor + needle.length }) (fun _ => rfl)
      t.standing t.inScope

theorem agree_downgrade (fair : L.Fair) (needle : Text) (t : L.Twin w v) :
    L.Agrees Both (downgrade needle) (downgrade needle) w v := by
  rw [Agrees, downgrade, Act.outcome_engine, Act.outcome_engine, Act.outcome_log, Act.outcome_log,
    Act.outcome_modifyEngine, Act.outcome_modifyEngine, t.text, t.cursor]
  have counted := t.onEngine (c := count fun m => { m with downgrades := m.downgrades + 1 })
    (fun _ => rfl) (fair.downgraded t.standing) t.inScope
  refine (agree_diagnose (by decide) _ _ _ (counted.withLog _ _)).bind fun _ _ w' v' _ t' => ?_
  cases w.engine.text.at? w.engine.cursor with
  | none => exact .error (L.own _ trivial) t'
  | some c =>
      refine (agree_appendText [c] none t').bind fun _ _ w v _ t => ?_
      exact .ok trivial (t.onEngine (c := fun e => { e with cursor := e.cursor + 1 })
        (fun _ => rfl) t.standing t.inScope)

theorem agree_reject (fair : L.Fair) (needle : Text) (position : Nat) (t : L.Twin w v) :
    L.Agrees Both (reject needle position) (reject needle position) w v := by
  rw [Agrees, reject, Act.outcome_engine, Act.outcome_engine, t.isStrict fair, t.status]
  split
  · exact .error (L.own _ trivial) t
  · exact agree_downgrade fair needle t

theorem agree_appendRest (t : L.Twin w v) : L.Agrees Both appendRest appendRest w v := by
  rw [Agrees, appendRest, Act.outcome_engine, Act.outcome_engine, t.text, t.cursor]
  split
  · refine (agree_appendText _ none t).bind fun _ _ w v _ t => ?_
    exact .ok trivial (t.onEngine (c := fun e => { e with cursor := e.text.length })
      (fun _ => rfl) t.standing t.inScope)
  · exact .ok trivial t

theorem agree_reportOpen (fair : L.Fair) (t : L.Twin w v) :
    L.Agrees Both reportOpen reportOpen w v := by
  rw [Agrees, reportOpen, Act.outcome_engine, Act.outcome_engine, t.isStrict fair, t.openCount]
  split
  · exact .error (L.own _ trivial) t
  · exact .error (L.own _ trivial) t

end Likeness

end Engine

end Needlework
