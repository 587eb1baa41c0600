import Mathlib.Data.List.DropRight
import Needlework.Script.Filters
import Needlework.Script.Session

/-!
# Registrations

What a pipeline holds is told by what was done to it.  A history lists the steps with their results, the
oldest first.  Of each kind the filters *stand* that were registered since the kind was last cleared,
alone or together with the other (`standing`).  Each step changes the filters of a kind as its entry changes
what stands (`get_next`, `standing_concat`), so the two agree after every history (`get_afterSteps`).

*Applying.*  A filter *passes* a text on: what it returns, or the text itself if that is no text.  To apply
filters is to pass a text from one to the next, in order, until one fails (`applyAll_eq_passAll`).

*Refusals.*  A step whose arguments are no filter kind or no filter fails, and a step that fails leaves the
pipeline as it was (`PipelineStep.next_of_error`).
-/

namespace Needlework

variable {logger : Logger} {p : Pipeline} {k j : FilterKind} {f : Filter} {t u : Text} {e : Fault}

/-! ## Passing a text on -/

namespace Filter

/-- What a filter makes of a text.  If it returns something else, the text is kept. -/
def pass (f : Filter) (t : Text) : Except Fault Text :=
  match f.run t with
  | .error e => .error e
  | .ok (.text u) => .ok u
  | .ok _ => .ok t

/-- What filters make of a text, one after the other. -/
def passAll (fs : List Filter) (t : Text) : Except Fault Text := fs.foldlM (fun u f => f.pass u) t

theorem passAll_cons (f : Filter) (fs : List Filter) (t : Text) :
    passAll (f :: fs) t = f.pass t >>= passAll fs := rfl

/-- A filter that fails ends the application with its fault. -/
theorem passAll_of_error {before after : List Filter} (reaches : passAll before t = .ok u)
    (fails : f.run u = .error e) : passAll (before ++ f :: after) t = .error e := by
  have ends : f.pass u = .error e := by rw [pass, fails]
  rw [passAll, List.foldlM_append]
  change (passAll before t >>= passAll (f :: after)) = .error e
  rw [reaches]
  change passAll (f :: after) u = .error e
  rw [passAll_cons, ends]
  rfl

end Filter

/-- Filters are applied by passing the text from one to the next. -/
theorem Pipeline.applyAll_eq_passAll (logger : Logger) (fs : List Filter) (t : Text) :
    (applyAll logger fs t).1 = Filter.passAll fs t := by
  induction fs generalizing t with
  | nil => rfl
  | cons f fs ih =>
      rw [applyAll, Filter.passAll_cons, Filter.pass]
      cases f.run t with
      | error e => rfl
      | ok v =>
          cases v with
          | text u => exact ih u
          | _ => exact ih t

theorem Pipeline.get_set (p : Pipeline) (j k : FilterKind) (fs : List Filter) :
    (p.set j fs).get k = if j = k then fs else p.get k := by
  cases j <;> cases k <;> rfl

namespace Script

variable {s : PipelineStep} {steps : List PipelineStep}

/-! ## Steps -/

namespace PipelineStep

/-- The arguments of a step are a filter kind and a filter. -/
def Admitted : PipelineStep → Prop
  | .add kind callback => (∃ k, kind = .kind k) ∧ ∃ f, callback = .filter f
  | .clear kind => kind = none ∨ kind = some (.other .null) ∨ ∃ k, kind = some (.kind k)
  | .apply kind _ | .list kind => ∃ k, kind = .kind k

/-- The kind that a step is about, if it is about one of them. -/
def kind? : PipelineStep → Option FilterKind
  | .add (.kind k) _ | .clear (some (.kind k)) | .apply (.kind k) _ | .list (.kind k) => some k
  | _ => none

/-- The pipeline after a step. -/
def next (p : Pipeline) (logger : Logger) (s : PipelineStep) : Pipeline := (s.run p logger).2.2

/-- The result of a step. -/
def result (p : Pipeline) (logger : Logger) (s : PipelineStep) : Except Fault Value :=
  (s.run p logger).1

/-- Applying filters does not change them. -/
theorem next_apply (p : Pipeline) (logger : Logger) (kind : KindArg) (t : Text) :
    (PipelineStep.apply kind t).next p logger = p := by
  rw [next, run]
  cases p.lookup kind <;> rfl

theorem next_list (p : Pipeline) (logger : Logger) (kind : KindArg) :
    (PipelineStep.list kind).next p logger = p := by
  rw [next, run]
  cases p.lookup kind <;> rfl

/-- A step that fails changes nothing. -/
theorem next_of_error (fails : s.result p logger = .error e) : s.next p logger = p := by
  cases s with
  | add kind callback =>
      rw [result, run] at fails
      rw [next, run]
      cases h : p.add kind callback with
      | ok q =>
          rw [h] at fails
          cases fails
      | error e => rfl
  | clear kind =>
      rw [result, run] at fails
      rw [next, run]
      cases h : p.clear kind with
      | ok q =>
          rw [h] at fails
          cases fails
      | error e => rfl
  | apply kind t => exact next_apply p logger kind t
  | list kind => exact next_list p logger kind

/-- A step whose arguments are not as they should be fails. -/
theorem exists_error (refused : ¬ s.Admitted) : ∃ e, s.result p logger = .error e := by
  have lookup : ∀ v, ∃ e, p.lookup (.other v) = .error e := fun v => by cases v <;> exact ⟨_, rfl⟩
  cases s with
  | add kind callback =>
      cases callback with
      | other v => exact ⟨_, rfl⟩
      | filter f =>
          cases kind with
          | other v => exact ⟨_, rfl⟩
          | kind k => exact absurd ⟨⟨k, rfl⟩, f, rfl⟩ refused
  | clear kind =>
      cases kind with
      | none => exact absurd (.inl rfl) refused
      | some kind =>
          cases kind with
          | kind k => exact absurd (.inr (.inr ⟨k, rfl⟩)) refused
          | other v =>
              cases v with
              | null => exact absurd (.inr (.inl rfl)) refused
              | _ => exact ⟨_, rfl⟩
  | apply kind t =>
      cases kind with
      | kind k => exact absurd ⟨k, rfl⟩ refused
      | other v =>
          obtain ⟨e, he⟩ := lookup v
          exact ⟨e, by rw [result, run, he]⟩
  | list kind =>
      cases kind with
      | kind k => exact absurd ⟨k, rfl⟩ refused
      | other v =>
          obtain ⟨e, he⟩ := lookup v
          exact ⟨e, by rw [result, run, he]⟩

/-- A step with the right arguments succeeds, unless a filter that it applies fails. -/
theorem exists_ok (admitted : s.Admitted) (notApply : ∀ kind t, s ≠ .apply kind t) :
    ∃ v, s.result p logger = .ok v := by
  cases s with
  | add kind callback =>
      obtain ⟨⟨k, rfl⟩, f, rfl⟩ := admitted
      exact ⟨_, rfl⟩
  | clear kind =>
      obtain rfl | rfl | ⟨k, rfl⟩ := admitted <;> exact ⟨_, rfl⟩
  | apply kind t => exact absurd rfl (notApply kind t)
  | list kind =>
      obtain ⟨k, rfl⟩ := admitted
      exact ⟨_, rfl⟩

/-- A step about one kind leaves the filters of the other alone. -/
theorem get_next_of_ne (about : s.kind? = some j) (ne : k ≠ j) :
    (s.next p logger).get k = p.get k := by
  cases s with
  | add kind callback =>
      cases kind with
      | other v => cases about
      | kind i =>
          cases about
          cases callback with
          | other v => rfl
          | filter f => exact (Pipeline.get_set ..).trans (if_neg (Ne.symm ne))
  | clear kind =>
      cases kind with
      | none => cases about
      | some kind =>
          cases kind with
          | other v => cases about
          | kind i =>
              cases about
              exact (Pipeline.get_set ..).trans (if_neg (Ne.symm ne))
  | apply kind t => rw [next_apply]
  | list kind => rw [next_list]

end PipelineStep

/-! ## What stands -/

/-- A step and its result. -/
abbrev Entry := PipelineStep × Except Fault Value

namespace Entry

/-- The filter that was registered for a kind. -/
def registered? (k : FilterKind) : Entry → Option Filter
  | (.add (.kind j) (.filter f), .ok _) => if j = k then some f else none
  | _ => none

/-- Whether the filters of a kind were removed. -/
def clears (k : FilterKind) : Entry → Bool
  | (.clear none, .ok _) | (.clear (some (.other .null)), .ok _) => true
  | (.clear (some (.kind j)), .ok _) => j = k
  | _ => false

theorem registered?_error (k : FilterKind) (s : PipelineStep) (e : Fault) :
    registered? k (s, .error e) = none := by
  rw [registered?]
  simp

theorem clears_error (k : FilterKind) (s : PipelineStep) (e : Fault) :
    clears k (s, .error e) = false := by
  rw [clears] <;> simp

end Entry

/-- The filters of a kind that were registered since it was last cleared, the oldest first. -/
def standing (k : FilterKind) (entries : List Entry) : List Filter :=
  (entries.rtakeWhile fun e => !e.clears k).filterMap (Entry.registered? k)

theorem standing_concat (k : FilterKind) (entries : List Entry) (e : Entry) :
    standing k (entries ++ [e])
      = if e.clears k then [] else standing k entries ++ (e.registered? k).toList := by
  rw [standing, List.rtakeWhile_concat]
  cases e.clears k with
  | true => rfl
  | false =>
      rw [if_pos (by rfl), if_neg Bool.false_ne_true, List.filterMap_append, standing]
      cases h : e.registered? k <;> simp [h]

/-! ## One step -/

/-- A step changes the filters of a kind as its entry changes what stands. -/
theorem get_next (logger : Logger) (p : Pipeline) (s : PipelineStep) (k : FilterKind) :
    (s.next p logger).get k
      = if Entry.clears k (s, s.result p logger) then []
        else p.get k ++ (Entry.registered? k (s, s.result p logger)).toList := by
  have idle : p.get k = p.get k ++ [] := (List.append_nil _).symm
  cases ended : s.result p logger with
  | error e =>
      rw [PipelineStep.next_of_error ended, Entry.clears_error, Entry.registered?_error]
      exact idle
  | ok v =>
      have admitted : s.Admitted := by
        by_contra refused
        have failed : ∃ e, s.result p logger = .error e := PipelineStep.exists_error refused
        obtain ⟨e, fails⟩ := failed
        rw [ended] at fails
        cases fails
      cases s with
      | add kind callback =>
          obtain ⟨⟨j, rfl⟩, f, rfl⟩ := admitted
          change (p.set j (p.get j ++ [f])).get k
            = p.get k ++ (if j = k then some f else none).toList
          rw [Pipeline.get_set]
          split
          next same =>
            rw [same]
            rfl
          next => exact idle
      | clear kind =>
          obtain rfl | rfl | ⟨j, rfl⟩ := admitted
          · cases k <;> rfl
          · cases k <;> rfl
          · change (p.set j []).get k = if decide (j = k) then [] else p.get k ++ []
            rw [Pipeline.get_set, List.append_nil]
            simp only [decide_eq_true_eq]
      | apply kind t =>
          rw [PipelineStep.next_apply]
          exact idle
      | list kind =>
          rw [PipelineStep.next_list]
          exact idle

/-! ## Histories -/

/-- The pipeline after some steps. -/
def afterSteps (logger : Logger) (p : Pipeline) (steps : List PipelineStep) : Pipeline :=
  steps.foldl (fun q s => s.next q logger) p

/-- Some steps with their results. -/
def history (logger : Logger) : Pipeline → List PipelineStep → List Entry
  | _, [] => []
  | p, s :: r => (s, s.result p logger) :: history logger (s.next p logger) r

theorem history_append (logger : Logger) (p : Pipeline) (steps more : List PipelineStep) :
    history logger p (steps ++ more)
      = history logger p steps ++ history logger (afterSteps logger p steps) more := by
  induction steps generalizing p with
  | nil => rfl
  | cons s steps ih => exact congrArg _ (ih _)

/-- A pipeline holds what stands after its history. -/
theorem get_afterSteps (logger : Logger) (steps : List PipelineStep) (k : FilterKind) :
    (afterSteps logger {} steps).get k = standing k (history logger {} steps) := by
  induction steps using List.reverseRecOn with
  | nil => cases k <;> rfl
  | append_singleton steps s ih =>
      rw [afterSteps, List.foldl_append, ← afterSteps, history_append, history, history,
        standing_concat, ← ih]
      exact get_next logger _ s k

/-- What a pipeline holds of a kind, and hence what it makes of a text, follows from its history: the text
is passed through the filters that were registered for the kind by a step that succeeded, since the last
step that succeeded in clearing the kind, in order of registration, up to the first that fails, whose fault
is the result.  Applying filters changes nothing, nor does a step that fails, and a step about one kind
leaves the other alone.  A step fails if its arguments are not as they should be, and apart from filters that
fail for no other reason. -/
theorem pipeline_follows_history (logger : Logger) (steps : List PipelineStep) :
    let p := afterSteps logger {} steps
    let entries := history logger {} steps
    (∀ k, p.get k = standing k entries)
      ∧ (∀ k t, (PipelineStep.apply (.kind k) t).result p logger
        = (Filter.passAll (standing k entries) t).map .text)
      ∧ (∀ k t before f after u e, standing k entries = before ++ f :: after →
        Filter.passAll before t = .ok u → f.run u = .error e →
          (PipelineStep.apply (.kind k) t).result p logger = .error e)
      ∧ (∀ kind t, (PipelineStep.apply kind t).next p logger = p)
      ∧ (∀ (s : PipelineStep) e, s.result p logger = .error e → s.next p logger = p)
      ∧ (∀ (s : PipelineStep) j k, s.kind? = some j → k ≠ j → (s.next p logger).get k = p.get k)
      ∧ (∀ s : PipelineStep, ¬ s.Admitted → ∃ e, s.result p logger = .error e)
      ∧ ∀ s : PipelineStep, s.Admitted → (∀ kind t, s ≠ .apply kind t) → ∃ v, s.result p logger = .ok v := by
  intro p entries
  have holds : ∀ k, p.get k = standing k entries := get_afterSteps logger steps
  have applied : ∀ k t, (PipelineStep.apply (.kind k) t).result p logger
      = (Filter.passAll (standing k entries) t).map .text := fun k t => by
    rw [← holds, ← Pipeline.applyAll_eq_passAll logger]
    rfl
  refine ⟨holds, applied, fun k t before f after u e stands reaches fails => ?_,
    fun kind t => PipelineStep.next_apply p logger kind t,
    fun s e fails => PipelineStep.next_of_error fails,
    fun s j k about ne => PipelineStep.get_next_of_ne about ne,
    fun s refused => PipelineStep.exists_error refused,
    fun s admitted notApply => PipelineStep.exists_ok admitted notApply⟩
  rw [applied, stands, Filter.passAll_of_error reaches fails]
  rfl

/-- Registrations for both kinds, some of them refused, with one kind cleared in between. -/
def mixedSteps : List PipelineStep :=
  [.add (.kind .post) (.filter Filters.double), .add (.kind .pre) (.filter (Filters.append [0x61])),
   .clear (some (.kind .post)), .add (.other (.int 3)) (.filter Filters.reverse),
   .add (.kind .pre) (.other .null), .add (.kind .pre) (.filter (Filters.const (.int 5))),
   .add (.kind .post) (.filter (Filters.raise .reentrant))]

/-- What was refused or cleared is not applied, and a filter that returns a number changes nothing. -/
theorem pipeline_follows_history_mixed :
    let p := afterSteps (Pipeline.logger none) {} mixedSteps
    (PipelineStep.apply (.kind .pre) [0x78]).result p (Pipeline.logger none)
        = .ok (.text [0x78, 0x61])
      ∧ (PipelineStep.apply (.kind .post) [0x78]).result p (Pipeline.logger none) = .error .reentrant
      ∧ (PipelineStep.add (.kind .pre) (.other .null)).next p (Pipeline.logger none) = p
      ∧ ((PipelineStep.clear (some (.kind .pre))).next p (Pipeline.logger none)).get .post
        = [Filters.raise .reentrant] := by
  obtain ⟨holds, applied, raised, -, failed, apart, -, -⟩ :=
    pipeline_follows_history (Pipeline.logger none) mixedSteps
  refine ⟨(applied .pre [0x78]).trans rfl, raised .post [0x78] [] _ [] [0x78] _ rfl rfl rfl,
    failed _ _ rfl, ?_⟩
  rw [apart _ .pre .post rfl (by decide), holds]
  rfl

end Script

end Needlework
