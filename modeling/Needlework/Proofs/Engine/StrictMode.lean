import Needlework.Proofs.Engine.Comparison
import Needlework.Proofs.Engine.Conduct

/-!
# Strict and lenient mode

Strict mode is lenient mode without its repairs.  Take a grammar that has nothing to do with
the strictness itself (`Grammar.Impartial`), and run it in a strict and in a lenient engine
that are the same otherwise.  If the strict parse succeeds, the lenient one returns the same
report after the same hook calls, and nothing has been repaired on the way but what the
grammar itself asked for.  If the lenient parse succeeds and its counters tell of no repair,
the strict one returns the same report.

The counters of a report are set only if the engine collects them.  A report without
counters tells of no repairs even if there were some.

The two parses keep step until lenient mode repairs something, and then strict mode fails.
What is left to show is that this is so for the last hook call, where the grammar may hand
on what the engine says of the constructs that are open.
-/

namespace Needlework

variable {σ α : Type}

/-- An operation that has nothing to do with the strictness. -/
def Op.Impartial : Op σ → Prop
  | .strictness => False
  | .closeOpen => False
  | .assign (.strict _) => False
  | _ => True

/-- A hook that has nothing to do with the strictness, but that its result may be what the
engine says when it is asked to close what is open. -/
def Hook.ClosesLast : Hook σ Bool → Prop
  | .done _ => True
  | .raise _ => True
  | .call .closeOpen next => ∀ b : Bool, next (.ok b) = .done b
  | .call o next => o.Impartial ∧ ∀ r, (next r).ClosesLast

/-- A grammar that has nothing to do with the strictness.  The engine closes what is open only
as the last thing of the hook for this. -/
structure Grammar.Impartial (g : Grammar σ) : Prop where
  hooks : ∀ call : Engine.HookCall, call ≠ .closeRemainingBlocks → (call.hook g).Uses Op.Impartial
  closing : g.closeRemainingBlocks.ClosesLast

namespace Engine

open Act

variable {w v w' v' : World σ}

theorem impartial_of_boldAsks {o : Op σ} (asks : BoldAsks o) (other : o ≠ .closeOpen) :
    o.Impartial := by
  cases o with
  | assign a =>
      cases a with
      | strict v => exact asks
      | _ => trivial
  | strictness => exact asks
  | closeOpen => exact absurd rfl other
  | _ => trivial

/-- The grammar of bold text has nothing to do with the strictness. -/
theorem impartial_treeGrammar : (Bold.treeGrammar σ).Impartial where
  hooks _ other := (uses_treeGrammar_of_ne other).mono fun _ h => impartial_of_boldAsks h.1 h.2
  closing _ := rfl

/-! ## The likeness -/

/-- Nothing has been repaired that strict mode would not have let pass. -/
structure Unmended (e : Engine) : Prop where
  recoveries : 0 ≤ e.metrics.recoveries
  downgrades : e.metrics.downgrades = 0
  forceClosed : e.metrics.forceClosed = 0
  report : ∀ r, e.report = some r → r.metrics = {}

/-- One engine is strict and the other is not, and everything else is the same. -/
def opposite : Likeness σ where
  forest f f' := f' = f
  In _ := True
  memory s s' := s' = s
  standing e e' := e.isStrict = true ∧ e'.isStrict = false ∧ Unmended e'
  fault _ := True
  twins := Forest.twins_eq
  filters _ _ _ _ _ _ _ := trivial
  recovered h := ⟨h.1, h.2.1, Int.add_nonneg h.2.2.1 (by decide), h.2.2.2, h.2.2.3, h.2.2.4⟩

theorem opposite_opposed : (opposite : Likeness σ).Opposed := by
  rintro e e' ⟨strict, lenient, h⟩
  refine ⟨strict, lenient, h.recoveries, h.downgrades.ge, h.forceClosed.ge, ?_⟩
  rw [h.downgrades, h.forceClosed]
  have := h.recoveries
  omega

theorem opposite_exact : (opposite : Likeness σ).Exact := ⟨id, id⟩

theorem opposite_permits {o : Op σ} (h : o.Impartial) : (opposite : Likeness σ).Permits o := by
  refine Likeness.permits_of_forall (fun _ => trivial) (fun _ => rfl) ?_ ?_ ?_
  · rintro (rfl | rfl) <;> exact h.elim
  · exact fun e _ => e.raises_of_forall fun _ => trivial
  · rintro s rfl
    exact h.elim

theorem opposite_blind {h : Hook σ α} (uses : h.Uses Op.Impartial) :
    (opposite : Likeness σ).Blind h := by
  refine opposite_exact.blind ?_ (.of_forall (fun _ => trivial) h)
  exact uses.mono fun _ => opposite_permits

/-! ## The last hook call -/

theorem closing_call {g : Grammar σ} (blind : ∀ n, opposite.Blind (g.setStatus n)) {o : Op σ}
    (impartial : o.Impartial) {next : Except Fault o.Reply → Hook σ Bool}
    (rest : ∀ r w v, opposite.Twin w v →
      opposite.Closing (hookCourse (switchCourse g nestingLimit) (next r)) w v)
    (t : opposite.Twin w v) :
    opposite.Closing (hookCourse (switchCourse g nestingLimit) (.call o next)) w v := by
  have locked := (Likeness.locked_opCourse (Likeness.switches_switchCourse blind nestingLimit)
    (opposite_permits impartial) t).attempt
  rcases locked.agree.cases with ⟨r, r', w', v', hw, hv, hr, t⟩ | ⟨f, w', v', hw, -⟩
  · have same : r' = r := by
      cases hr with
      | ok hab => rw [opposite_exact.eq_of_alike hab]
      | error _ => rfl
    subst same
    exact .of_ok hw hv locked.calls (rest r' w' v' t)
  · rw [Course.outcome_attempt] at hw
    cases hw

theorem outcome_closeOpen_of_none (none : ¬ 0 < w.engine.openCount) :
    closeOpen.outcome w = (.ok true, w) := by
  rw [closeOpen, outcome_engine]
  dsimp only
  rw [if_pos (by omega)]
  rfl

theorem outcome_closeOpen_of_strict (opened : 0 < w.engine.openCount)
    (strict : w.engine.isStrict = true) : closeOpen.outcome w = (.ok false, w) := by
  rw [closeOpen, outcome_engine]
  dsimp only
  rw [if_neg (by omega), if_pos strict]
  rfl

/-- Where something is open, strict mode says so and lenient mode closes it and counts this. -/
theorem closing_closeOpen {switch : Int → Course σ Unit} (mends : ∀ n, Likeness.Mends (switch n))
    {next : Except Fault (Op.closeOpen : Op σ).Reply → Hook σ Bool}
    (last : ∀ b : Bool, next (.ok b) = .done b) (t : opposite.Twin w v) :
    opposite.Closing (hookCourse switch (.call .closeOpen next)) w v := by
  have laws : WorkLaws (fun _ : Moment σ => True) (StaysMended 1) := mendLaws 1
  have asked : ∀ {u u' : World σ} {r : Except Fault Bool}, closeOpen.outcome u = (r, u') →
      (opCourse switch .closeOpen).attempt.outcome u = (.ok r, u') := fun {u _ _} h =>
    Course.outcome_attempt_of ((Course.outcome_take (.op .closeOpen) u).trans h)
  obtain ⟨strict, lenient, mended⟩ := opposite_opposed _ _ t.standing
  by_cases opened : 0 < w.engine.openCount
  · refine .apart opposite_opposed ?_ ?_
    · rw [hookCourse, Course.outcome_andThen_ok (asked (outcome_closeOpen_of_strict opened strict))]
      exact congrArg (fun h => ((hookCourse switch h).outcome w).1) (last false)
    · have closed : Mended 1 (closeOpen.outcome v).2.engine := by
        rw [← t.openCount] at opened
        obtain ⟨h₁, h₂, h₃, h₄⟩ : Mended 0 v.engine := mended
        show Tally ..
        rw [metrics_closeOpen lenient opened]
        constructor <;> dsimp only <;> omega
      rw [hookCourse, Course.outcome_andThen_ok (asked rfl)]
      exact laws.keeps_hookCourse mends _ _ (fun _ _ => trivial) closed
  · have hw := asked (outcome_closeOpen_of_none opened)
    have hv := asked (outcome_closeOpen_of_none (w := v) (t.openCount ▸ opened))
    refine .locked (.of_ok hw hv ?_ ?_)
    · rw [Course.calls_attempt, Course.calls_attempt]
      exact (Course.calls_take (.op .closeOpen) v).trans (Course.calls_take (.op .closeOpen) w).symm
    · have ends := congrArg (hookCourse switch) (last true)
      exact ends ▸ .done rfl t

theorem closing_hookCourse {g : Grammar σ} (blind : ∀ n, opposite.Blind (g.setStatus n))
    {h : Hook σ Bool} (closes : h.ClosesLast) (t : opposite.Twin w v) :
    opposite.Closing (hookCourse (switchCourse g nestingLimit) h) w v := by
  induction h generalizing w v with
  | done b => exact .locked (.done rfl t)
  | raise f => exact .locked (.raise trivial t)
  | call o next ih =>
      cases o with
      | closeOpen =>
          exact closing_closeOpen ((mendLaws 1).keeps_switchCourse g nestingLimit) closes t
      | _ => exact closing_call blind closes.1 (fun r _ _ => ih r (closes.2 r)) t

theorem suits_opposite {g : Grammar σ} (impartial : g.Impartial) : opposite.Suits g where
  sides := .inr opposite_opposed
  blind call hc := opposite_blind (impartial.hooks call hc)
  closing w v t := by
    have blind : ∀ n, opposite.Blind (g.setStatus n) := fun n =>
      opposite_blind (impartial.hooks (.setStatus n) nofun)
    refine .of_ok (Course.outcome_take (.enter .closeRemainingBlocks) w)
      (Course.outcome_take (.enter .closeRemainingBlocks) v) ?_
      (closing_hookCourse blind impartial.closing t)
    rw [Course.calls_take, Course.calls_take]

/-! ## The two parses -/

/-- Two worlds that are the same but for the strictness of their engines. -/
structure Opposite (w v : World σ) : Prop where
  forest : v.forest = w.forest
  memory : v.memory = w.memory
  engine : v.engine.impartial = w.engine.impartial
  strict : w.engine.isStrict = true
  lenient : v.engine.isStrict = false

theorem Opposite.ready (h : Opposite w v) (override : Option Text) :
    opposite.Ready ((enter override).outcome w).2 ((enter override).outcome v).2 where
  forest := h.forest
  memory := h.memory
  kin := (congrArg (fun e : Engine => (e.entered override).unread) h.engine :)
  standing := ⟨h.strict, h.lenient, Int.le_refl 0, rfl, rfl, fun r hr => by cases hr; rfl⟩
  inScope := ⟨fun _ _ => trivial, fun _ _ => trivial, fun _ _ => trivial, fun _ _ _ _ => trivial⟩

/-- What is reported after two buildings in step tells of no repair but recoveries. -/
theorem unrepaired_of_concluded {rep report : Report} {ended down : Except Fault Unit}
    (ready : opposite.Ready w v) (hrep : w.engine.report = some rep)
    (concludes : concluded w.engine rep ended down = .ok report) :
    report.metrics.downgrades = 0 ∧ report.metrics.forceClosed = 0 := by
  have unmended : Unmended v.engine.standing := ready.standing.2.2
  have metrics : v.engine.metrics = w.engine.metrics := (congrArg Engine.metrics ready.kin :)
  have hrep' : v.engine.report = some rep := (congrArg Engine.report ready.kin :).trans hrep
  -- the counters are those of the engine, or none were ever written to the report
  rw [metrics_of_concluded concludes, ← metrics]
  split
  · exact ⟨unmended.downgrades, unmended.forceClosed⟩
  · have none : rep.metrics = {} :=
      unmended.report rep.gist (congrArg (Option.map Report.gist) hrep')
    rw [none]
    exact ⟨rfl, rfl⟩

/-- The two parses return or raise the same, without repairs, or only the lenient one can
succeed, and its counters tell of a repair. -/
theorem Opposite.parse {g : Grammar σ} (impartial : g.Impartial) (h : Opposite w v)
    (idle : w.engine.parsing = false) (rounds : Nat) {input : Input} (override : Option Text)
    (accepted : ∀ x, input ≠ .other x) :
    (∃ out w' v', (Engine.parse g rounds input override).outcome w = (out, w')
      ∧ (Engine.parse g rounds input override).outcome v = (out, v') ∧ v'.forest = w'.forest
      ∧ hookCalls g rounds input override v = hookCalls g rounds input override w
      ∧ ∀ report, out = .ok report → report.metrics.downgrades = 0 ∧ report.metrics.forceClosed = 0)
    ∨ (∀ report w', (Engine.parse g rounds input override).outcome w = (.ok report, w') →
        report.success = false)
      ∧ ∀ report v', (Engine.parse g rounds input override).outcome v = (.ok report, v') →
        report.success = true → v.engine.config.collectMetrics.truthy = true →
        1 ≤ report.metrics.repairs := by
  have idle' : v.engine.parsing = false := (congrArg Engine.parsing h.engine :).trans idle
  have built : opposite.Built g rounds input _ _ :=
    Likeness.built (suits_opposite impartial) rounds input (h.ready override)
  cases built with
  | together agree calls =>
      left
      obtain ⟨ended, rep, w₁, v₁, l, l', ready, hrep, parsed, parsed'⟩ :=
        Likeness.exists_outcome_parses idle idle' accepted agree
      exact ⟨_, _, _, parsed, parsed', ready.cleared.2.1, calls, fun report hreport =>
        unrepaired_of_concluded ready hrep hreport⟩
  | apart _ failed other =>
      right
      constructor
      · intro report w' parsed
        by_contra success
        obtain ⟨w₁, built, -⟩ := exists_build_of_success idle parsed (Bool.not_eq_false _ ▸ success)
        rw [built] at failed
        obtain ⟨f, failed⟩ := failed
        cases failed
      · intro report v' parsed success collected
        obtain ⟨v₁, built, metrics⟩ := exists_build_of_success idle' parsed success
        rw [built] at other
        have mended := (other.resolve_left nofun).repairs
        rw [metrics collected]
        exact mended

/-- Strict mode is lenient mode without its repairs. -/
theorem opposite_parses_agree {g : Grammar σ} (impartial : g.Impartial) (opposite : Opposite w v)
    (idle : w.engine.parsing = false) (rounds : Nat) (input : Input) (override : Option Text) :
    (∀ report w', (parse g rounds input override).outcome w = (.ok report, w') →
      report.success = true → ∃ v', (parse g rounds input override).outcome v = (.ok report, v')
        ∧ v'.forest = w'.forest
        ∧ hookCalls g rounds input override v = hookCalls g rounds input override w
        ∧ report.metrics.downgrades = 0 ∧ report.metrics.forceClosed = 0)
    ∧ ∀ report v', (parse g rounds input override).outcome v = (.ok report, v') →
      report.success = true → v.engine.config.collectMetrics.truthy = true →
      report.metrics.repairs = 0 →
      ∃ w', (parse g rounds input override).outcome w = (.ok report, w')
        ∧ w'.forest = v'.forest
        ∧ hookCalls g rounds input override w = hookCalls g rounds input override v := by
  have idle' : v.engine.parsing = false := (congrArg Engine.parsing opposite.engine :).trans idle
  constructor
  · intro report w' parsed success
    rcases opposite.parse impartial idle rounds override (accepted_of_parse idle parsed) with
      ⟨out, w₁, v₁, hw, hv, forest, calls, counters⟩ | ⟨failed, -⟩
    · rw [hw] at parsed
      cases parsed
      exact ⟨v₁, hv, forest, calls, counters report rfl⟩
    · have contra := failed report w' parsed
      rw [success] at contra
      cases contra
  · intro report v' parsed success collected none
    rcases opposite.parse impartial idle rounds override (accepted_of_parse idle' parsed) with
      ⟨out, w₁, v₁, hw, hv, forest, calls, -⟩ | ⟨-, repaired⟩
    · rw [hv] at parsed
      cases parsed
      exact ⟨w₁, hw, forest.symm, calls.symm⟩
    · have some := repaired report v' parsed success collected
      omega

/-- An engine that collects counters or not and is strict or not. -/
def boldStart (collect strict : Bool) : World Unit :=
  { engine := { config := { collectMetrics := .bool collect }, strict := .bool strict }
    memory := () }

theorem opposite_boldStart (collect : Bool) :
    Opposite (boldStart collect true) (boldStart collect false) := ⟨rfl, rfl, rfl, rfl, rfl⟩

/-- A bold text that is closed. -/
def closedBold : Input := .text (Bold.openMark ++ Bold.closeMark)

theorem opposite_parses_agree_closedBold : ∃ report w' v',
    (parse (Bold.treeGrammar Unit) 8 closedBold none).outcome (boldStart true true)
      = (.ok report, w')
    ∧ (parse (Bold.treeGrammar Unit) 8 closedBold none).outcome (boldStart true false)
      = (.ok report, v')
    ∧ report.success = true ∧ v'.forest = w'.forest := by
  obtain ⟨report, w', parsed, success⟩ : ∃ report w',
      (parse (Bold.treeGrammar Unit) 8 closedBold none).outcome (boldStart true true)
        = (.ok report, w') ∧ report.success = true := exists_of_report (by decide +kernel)
  obtain ⟨v', parsed', forest, -⟩ := (opposite_parses_agree impartial_treeGrammar
    (opposite_boldStart true) rfl 8 closedBold none).1 report w' parsed success
  exact ⟨report, w', v', parsed, parsed', success, forest⟩

/-- Without counters, a report tells of no repairs although strict mode fails. -/
theorem uncounted_repair : (Bold.treeGrammar Unit).Impartial
    ∧ Opposite (boldStart false true) (boldStart false false) ∧ ∃ report v' report' w',
      (parse (Bold.treeGrammar Unit) 8 (.text Bold.openMark) none).outcome (boldStart false false)
        = (.ok report, v') ∧ (report.success, report.metrics.repairs) = (true, 0)
      ∧ (parse (Bold.treeGrammar Unit) 8 (.text Bold.openMark) none).outcome (boldStart false true)
        = (.ok report', w') ∧ report'.success = false := by
  obtain ⟨report, v', parsed, unrepaired⟩ : ∃ report v',
      (parse (Bold.treeGrammar Unit) 8 (.text Bold.openMark) none).outcome (boldStart false false)
        = (.ok report, v') ∧ (report.success, report.metrics.repairs) = (true, 0) :=
    exists_of_report (by decide +kernel)
  obtain ⟨report', w', parsed', failed⟩ : ∃ report' w',
      (parse (Bold.treeGrammar Unit) 8 (.text Bold.openMark) none).outcome (boldStart false true)
        = (.ok report', w') ∧ report'.success = false := exists_of_report (by decide +kernel)
  exact ⟨impartial_treeGrammar, opposite_boldStart false, report, v', report', w', parsed,
    unrepaired, parsed', failed⟩

end Engine

end Needlework
