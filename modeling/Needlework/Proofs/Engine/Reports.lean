import Mathlib.Logic.Basic
import Needlework.Bold
import Needlework.Proofs.Engine.Building
import Needlework.Proofs.Engine.Roots
import Needlework.Proofs.Engine.Settlement

/-!
# The two shapes of a report

A parse that returns has succeeded or failed, and its report says which in one of two
shapes.

*Success.*  There is no error, there is a tree or an output but not both, and no diagnostic
tells of an error.  Only a hook that takes the root away can leave a success with neither
(`parse_hands_out_nothing`).

*Failure.*  There is an error and nothing else: no tree, no output.  With diagnostics on, the
last of them tells of the error, in its own words, and no other one does.  The error is what
ended the building, wrapped if it is no parse fault, or else what went wrong in the teardown
of a building that had ended well (`Blamed`).  So a teardown never hides an earlier fault.

The proof follows the report.  While the grammar works, the report gets diagnostics of
repairs only, and there is a root, so that a building that ends well hands out one thing
(`delivers_handOut`).  The rest is how a parse settles.
-/

namespace Needlework

namespace Report

/-- A report of a success. -/
structure Succeeds (r : Report) : Prop where
  success : r.success = true
  error : r.error = none
  diagnostics : ∀ d ∈ r.diagnostics, d.severity ≠ .error

/-- A report of a failure, with diagnostics or without. -/
structure Fails (on : Bool) (r : Report) (f : Fault) : Prop where
  success : r.success = false
  tree : r.tree = none
  output : r.output = .null
  value : r.value? = none
  error : r.error = some f
  parseFault : f.isParseFault = true
  diagnostics : on = true → ∃ ds d, r.diagnostics = ds ++ [d] ∧ d.severity = .error
    ∧ d.message = f.message ∧ ∀ d ∈ ds, d.severity ≠ .error

end Report

namespace Engine

open Act

variable {σ : Type} {w w' : World σ}

/-- The fault that a parse blames for its failure. -/
inductive Blamed (g : Grammar σ) (rounds : Nat) (input : Input) (override : Option Text)
    (w : World σ) : Fault → Prop where
  /-- A parse fault ended the building. -/
  | parseFault {f : Fault} {w₁ : World σ} :
      (build g rounds input).outcome ((enter override).outcome w).2 = (.error f, w₁) →
      f.isParseFault = true → Blamed g rounds input override w f
  /-- Something else ended the building. -/
  | unexpected {f : Fault} {w₁ : World σ} :
      (build g rounds input).outcome ((enter override).outcome w).2 = (.error f, w₁) →
      f.isParseFault = false → Blamed g rounds input override w (.unexpected f)
  /-- The building ended well, and its teardown did not. -/
  | teardown {f : Fault} {w₁ : World σ} :
      (build g rounds input).outcome ((enter override).outcome w).2 = (.ok (), w₁) →
      (cleared w₁).1 = .error f → Blamed g rounds input override w (.teardownFailed f)

/-! ## The report of a building -/

/-- No diagnostic tells of an error, and the configuration stays. -/
def clean (c : Config) : Invariant :=
  .steady (fun e => e.config = c ∧ ∀ r, e.report = some r → r.entries = []) (fun _ => True)
    (fun _ _ => trivial) (fun _ _ _ _ _ _ _ => trivial) fun _ h => h

theorem clean_build {c : Config} (g : Grammar σ) (n : Nat) (input : Input)
    (h : (clean c).holds w.engine.standing) :
    (clean c).holds ((build g n input).outcome w).2.engine.standing :=
  Invariant.build_of_any g (fun _ => trivial) (fun _ _ h => h) n input h

theorem report_handOut {r : Report} (hr : w.engine.report = some r) :
    (handOut.outcome w).2.engine.report
      = some (if w.engine.output.isNull then { r with tree := w.engine.root }
        else { r with output := w.engine.output }) := by
  rw [handOut, outcome_engine]
  split
  · rw [modifyReport, outcome_modifyEngine]
    show w.engine.report.map _ = _
    rw [hr]
    rfl
  · rw [modifyReport, outcome_modifyEngine, outcome_bind]
    obtain ⟨f, destroyed, -⟩ := outcome_destroyTree (w.onEngine fun e =>
      { e with report := e.report.map fun r => { r with output := w.engine.output } })
    generalize outcome destroyTree _ = out at destroyed
    obtain ⟨ended, v⟩ := out
    dsimp only at destroyed
    subst destroyed
    cases ended with
    | ok _ =>
        show w.engine.report.map _ = _
        rw [hr]
        rfl
    | error f =>
        show w.engine.report.map _ = _
        rw [hr]
        rfl

/-- A report that tells of neither a failure nor a product. -/
def Blank (r : Report) : Prop :=
  r.success = true ∧ r.error = none ∧ r.tree = none ∧ r.output = .null

theorem SameVerdict.exists_blank {r : Report} (same : SameVerdict w w')
    (hr : w.engine.report = some r) (blank : Blank r) :
    ∃ r', w'.engine.report = some r' ∧ Blank r' := by
  rw [SameVerdict, hr] at same
  obtain ⟨r', hr', verdict⟩ := Option.map_eq_some_iff.mp same
  refine ⟨r', hr', ?_⟩
  obtain ⟨h₁, h₂, h₃, h₄⟩ := blank
  exact ⟨(congrArg Report.success verdict).trans h₁, (congrArg Report.error verdict).trans h₂,
    (congrArg Report.tree verdict).trans h₃, (congrArg Report.output verdict).trans h₄⟩

/-- A hook has taken the root away in a step of a parse. -/
def TakesRoot (ms : List (Moment σ)) : Prop := ∃ m ∈ ms, m.step = .op (.assign (.root none))

/-- A report has the tree or an output, or nothing at all if the root was taken away. -/
def Delivers (taken : Prop) (r : Report) : Prop :=
  Xor (r.tree ≠ none) (r.output ≠ .null) ∨ taken ∧ r.tree = none ∧ r.output = .null

/-- What is handed out is the output, or else the root, if there is one. -/
theorem delivers_handOut {r : Report} {taken : Prop} (blank : Blank r)
    (rooted : ¬ taken → w.engine.root.isSome = true) :
    Delivers taken (if w.engine.output.isNull then { r with tree := w.engine.root }
      else { r with output := w.engine.output }) := by
  obtain ⟨-, -, tree, output⟩ := blank
  split
  next hnull =>
    by_cases root : w.engine.root = none
    · refine .inr ⟨?_, root, output⟩
      by_contra stays
      rw [root] at rooted
      cases rooted stays
    · exact .inl (.inl ⟨root, not_not.mpr output⟩)
  next hnull =>
    refine .inl (.inr ⟨fun h => hnull ?_, not_not.mpr tree⟩)
    change w.engine.output = .null at h
    rw [h]
    rfl

/-- A building leaves a report that tells of no failure, and of what it hands out if it ends
well. -/
theorem exists_report_build {g : Grammar σ} {n : Nat} {input : Input} {ended : Except Fault Unit}
    {r : Report} (hr : w.engine.report = some r) (blank : Blank r)
    (built : (build g n input).outcome w = (ended, w')) :
    ∃ r', w'.engine.report = some r' ∧ r'.success = true ∧ r'.error = none
      ∧ (ended = .ok () → Delivers (TakesRoot ((buildCourse g n input).moments w)) r') := by
  obtain ⟨r₁, hr₁, blank₁⟩ := (sameVerdict_load input w).exists_blank hr blank
  have stages := stages_of_build built
  generalize (buildCourse g n input).moments w = ms at stages ⊢
  cases stages with
  | unread failed =>
      rw [failed] at hr₁
      exact ⟨r₁, hr₁, blank₁.1, blank₁.2.1, nofun⟩
  | broken loaded broken =>
      rw [loaded] at hr₁
      obtain ⟨r₂, hr₂, blank₂⟩ := (sameVerdict_work g n _).exists_blank hr₁ blank₁
      rw [← follows_workCourse, broken] at hr₂
      exact ⟨r₂, hr₂, blank₂.1, blank₂.2.1, nofun⟩
  | @worked _ u v _ loaded worked handed =>
      rw [loaded] at hr₁
      obtain ⟨r₂, hr₂, blank₂⟩ := (sameVerdict_work g n _).exists_blank hr₁ blank₁
      rw [← follows_workCourse, worked] at hr₂
      have given := report_handOut hr₂
      rw [handed] at given
      obtain ⟨_, begins⟩ := begins_of_load loaded
      refine ⟨_, given, ?_⟩
      have rooted : ¬ TakesRoot (⟨.load input, w⟩ :: ((workCourse g n).moments u ++ [⟨.handOut, v⟩])) →
          v.engine.root.isSome = true := fun none => by
        have kept := isSome_root_work (w := u) g n (by rw [begins.root]; rfl) fun m hm takes =>
          none ⟨m, List.mem_cons_of_mem _ (List.mem_append_left _ hm), takes⟩
        rw [← follows_workCourse, worked] at kept
        exact kept
      have delivers := delivers_handOut blank₂ rooted
      obtain ⟨h₁, h₂, -⟩ := blank₂
      refine ⟨?_, ?_, fun _ => delivers⟩
      · split
        · exact h₁
        · exact h₁
      · split
        · exact h₂
        · exact h₂

/-! ## The report of a parse -/

theorem succeeds_counted {e : Engine} {r : Report} (h : r.Succeeds) : (e.counted r).Succeeds := by
  rw [counted]
  split
  · exact ⟨h.success, h.error, h.diagnostics⟩
  · exact h

theorem fails_counted {e : Engine} {on : Bool} {r : Report} {f : Fault} (h : r.Fails on f) :
    (e.counted r).Fails on f := by
  rw [counted]
  split
  · exact ⟨h.success, h.tree, h.output, h.value, h.error, h.parseFault, h.diagnostics⟩
  · exact h

theorem fails_blamed {on : Bool} {r : Report} {f : Fault} (parse : f.isParseFault = true)
    (entries : ∀ d ∈ r.entries, d.severity ≠ .error) : (r.blamed on f).Fails on f := by
  cases on with
  | false => exact ⟨rfl, rfl, rfl, rfl, rfl, parse, nofun⟩
  | true =>
      refine ⟨rfl, rfl, rfl, rfl, rfl, parse, fun _ => ?_⟩
      refine ⟨r.entries.reverse, r.failure f, List.reverse_cons, rfl, rfl, fun d hd => ?_⟩
      exact entries d (List.mem_reverse.mp hd)

theorem xor_of_succeeds {r : Report} {D : Prop} {P : Fault → Prop} {on : Bool}
    (h : r.Succeeds ∧ D) : Xor (r.Succeeds ∧ D) (∃ f, r.Fails on f ∧ P f) := by
  refine .inl ⟨h, ?_⟩
  rintro ⟨f, fails, -⟩
  have success := fails.success
  rw [h.1.success] at success
  cases success

theorem xor_of_fails {r : Report} {D : Prop} {P : Fault → Prop} {on : Bool} {f : Fault}
    (h : r.Fails on f) (hf : P f) : Xor (r.Succeeds ∧ D) (∃ f, r.Fails on f ∧ P f) := by
  refine .inr ⟨⟨f, h, hf⟩, fun succeeds => ?_⟩
  have success := succeeds.1.success
  rw [h.success] at success
  cases success

/-- A parse that is not refused keeps the configuration and ends as `outcome_parse` has it, from
a report that tells of no failure so far. -/
theorem exists_outcome_parse {g : Grammar σ} {rounds : Nat} {input : Input} {override : Option Text}
    {ended : Except Fault Unit} (idle : w.engine.parsing = false) (accepted : ∀ x, input ≠ .other x)
    (built : (build g rounds input).outcome ((enter override).outcome w).2 = (ended, w')) :
    w'.engine.config = w.engine.config ∧ ∃ r l,
      (parse g rounds input override).outcome w = (concluded w'.engine r ended (cleared w').1,
        { w' with
          forest := (cleared w').2, log := l, engine := w'.engine.rested (cleared w').1 })
      ∧ w'.engine.report = some r ∧ r.success = true ∧ r.error = none
      ∧ (∀ d ∈ r.entries, d.severity ≠ .error)
      ∧ (ended = .ok () → Delivers (TakesRoot (parseMoments g rounds input override w)) r) := by
  obtain ⟨r, hr, success, error, product⟩ := exists_report_build rfl ⟨rfl, rfl, rfl, rfl⟩ built
  have tidy := clean_build (c := w.engine.config) (w := ((enter override).outcome w).2) g rounds input
    ⟨rfl, fun r hr => by cases hr; rfl⟩
  rw [built] at tidy
  obtain ⟨config, errors⟩ := tidy
  obtain ⟨l, ends⟩ := outcome_parse idle accepted built hr
  refine ⟨config, r, l, ends, hr, success, error, fun d hd hs => ?_, product⟩
  have none := errors r.gist (congrArg (Option.map Report.gist) hr)
  have found : d ∈ r.gist.entries := List.mem_filter.mpr ⟨hd, decide_eq_true hs⟩
  rw [none] at found
  cases found

/-- What is neither text nor bytes is refused before anything happens. -/
theorem outcome_parse_other (g : Grammar σ) (rounds : Nat) (x : Value) (override : Option Text)
    (idle : w.engine.parsing = false) :
    (parse g rounds (.other x) override).outcome w = (.error (.notInput x.typeName), w) := by
  rw [parse, outcome_engine, idle]
  rfl

theorem accepted_of_parse {g : Grammar σ} {rounds : Nat} {input : Input} {override : Option Text}
    {report : Report} (idle : w.engine.parsing = false)
    (h : (parse g rounds input override).outcome w = (.ok report, w')) : ∀ x, input ≠ .other x := by
  rintro x rfl
  rw [outcome_parse_other g rounds x override idle] at h
  cases h

/-- A building that has failed is reported, whatever its teardown does. -/
theorem fails_of_concluded {e : Engine} {r report : Report} {f : Fault} {down : Except Fault Unit}
    (entries : ∀ d ∈ r.entries, d.severity ≠ .error)
    (h : concluded e r (.error f) down = .ok report) : report.Fails e.diagnosing (ruling f) := by
  rw [concluded_of_not_interrupted (not_interrupted_of_concluded h)] at h
  have isParse : (ruling f).isParseFault = true := by
    rw [ruling]
    split
    next isParse => exact isParse
    next => rfl
  rw [settledBy] at h
  split at h
  · cases h
  split at h
  · cases h
  dsimp only at h
  rw [clearedBy_blamed] at h
  cases h
  exact fails_counted (fails_blamed isParse entries)

/-- A building that has ended well is a success, unless its teardown fails. -/
theorem shape_of_concluded {e : Engine} {r report : Report} {down : Except Fault Unit} {taken : Prop}
    (success : r.success = true) (error : r.error = none) (delivers : Delivers taken r)
    (entries : ∀ d ∈ r.entries, d.severity ≠ .error)
    (h : concluded e r (.ok ()) down = .ok report) :
    report.Succeeds ∧ Delivers taken report
      ∨ ∃ f, down = .error f ∧ report.Fails e.diagnosing (.teardownFailed f) := by
  rw [concluded_of_not_interrupted (not_interrupted_of_concluded h), settledBy] at h
  cases down with
  | ok _ =>
      cases h
      left
      refine ⟨succeeds_counted ⟨success, error, fun d hd => ?_⟩, ?_⟩
      · exact entries d (List.mem_reverse.mp hd)
      · show Delivers taken (e.counted r)
        rw [counted]
        split
        · exact delivers
        · exact delivers
  | error f =>
      rw [clearedBy, success] at h
      cases h
      exact .inr ⟨f, rfl, fails_counted (fails_blamed rfl entries)⟩

/-- A parse that returns reports a success or a failure, each in one shape.  A success has either
the tree or an output, or nothing if a hook has taken the root away.  A failure names what ended the
building, or else what ended its teardown. -/
theorem report_shape {g : Grammar σ} {rounds : Nat} {input : Input} {override : Option Text}
    {report : Report} (idle : w.engine.parsing = false)
    (h : (parse g rounds input override).outcome w = (.ok report, w')) :
    Xor (report.Succeeds ∧ Delivers (TakesRoot (parseMoments g rounds input override w)) report)
      (∃ f, report.Fails w.engine.diagnosing f ∧ Blamed g rounds input override w f) := by
  obtain ⟨⟨ended, w₁⟩, built⟩ : ∃ out, (build g rounds input).outcome ((enter override).outcome w).2
      = out := ⟨_, rfl⟩
  obtain ⟨config, r, l, ends, -, success, error, entries, product⟩ :=
    exists_outcome_parse idle (accepted_of_parse idle h) built
  have diagnosing : w₁.engine.diagnosing = w.engine.diagnosing :=
    congrArg (fun c : Config => c.enableDiagnostics.truthy) config
  rw [ends] at h
  have concludes : concluded w₁.engine r ended (cleared w₁).1 = .ok report := congrArg Prod.fst h
  rw [← diagnosing]
  cases ended with
  | ok _ =>
      rcases shape_of_concluded success error (product rfl) entries concludes with
        succeeds | ⟨f, down, fails⟩
      · exact xor_of_succeeds succeeds
      · exact xor_of_fails fails (.teardown built down)
  | error f =>
      have fails := fails_of_concluded entries concludes
      cases isParse : f.isParseFault with
      | true =>
          rw [ruling, if_pos isParse] at fails
          exact xor_of_fails fails (.parseFault built isParse)
      | false =>
          rw [ruling, if_neg (Bool.eq_false_iff.mp isParse)] at fails
          exact xor_of_fails fails (.unexpected built isParse)

/-- What is read off a report comes from a report. -/
theorem exists_of_report {α : Type} {out : Except Fault Report × World σ} {read : Report → α}
    {a : α} (h : out.1.toOption.map read = some a) :
    ∃ report w', out = (.ok report, w') ∧ read report = a := by
  obtain ⟨result, w'⟩ := out
  cases result with
  | error f => cases h
  | ok report => exact ⟨report, w', rfl, Option.some.inj h⟩

/-- An engine that fails instead of recovering. -/
def strictStart : World Unit := { engine := .make .strictMode none, memory := () }

theorem report_shape_unclosedBold : ∃ report w',
    (parse (Bold.treeGrammar Unit) 8 (.text Bold.openMark) none).outcome strictStart
      = (.ok report, w') ∧ report.success = false
    ∧ Xor (report.Succeeds ∧ Delivers (TakesRoot (parseMoments (Bold.treeGrammar Unit) 8
        (.text Bold.openMark) none strictStart)) report)
      (∃ f, report.Fails true f
        ∧ Blamed (Bold.treeGrammar Unit) 8 (.text Bold.openMark) none strictStart f) := by
  obtain ⟨report, w', parsed, failed⟩ : ∃ report w',
      (parse (Bold.treeGrammar Unit) 8 (.text Bold.openMark) none).outcome strictStart
        = (.ok report, w') ∧ report.success = false := exists_of_report (by decide +kernel)
  exact ⟨report, w', parsed, failed, report_shape rfl parsed⟩

theorem eq_null_of_isNull {v : Value} (h : v.isNull = true) : v = .null := by
  cases v with
  | null => rfl
  | _ => cases h

/-- A grammar that takes the root away when the tree is finished. -/
def uprootingGrammar : Grammar Unit :=
  { Grammar.plain Unit with outputTree := do
      Hook.assign (.root none)
      return true }

/-- Then the parse is a success that hands out nothing. -/
theorem parse_hands_out_nothing : ∃ report w',
    (parse uprootingGrammar 1 (.text [0x61]) none).outcome { memory := () } = (.ok report, w')
      ∧ report.success = true ∧ report.error = none ∧ report.tree = none
      ∧ report.output = .null := by
  obtain ⟨report, w', parsed, read⟩ : ∃ report w', (parse uprootingGrammar 1 (.text [0x61])
      none).outcome { memory := () } = (.ok report, w')
      ∧ (report.success, report.error.isNone, report.tree, report.output.isNull)
        = (true, true, none, true) := exists_of_report (by decide +kernel)
  obtain ⟨success, read⟩ := Prod.mk.inj read
  obtain ⟨error, read⟩ := Prod.mk.inj read
  obtain ⟨tree, output⟩ := Prod.mk.inj read
  exact ⟨report, w', parsed, success, Option.isNone_iff_eq_none.mp error, tree,
    eq_null_of_isNull output⟩

end Engine

end Needlework
