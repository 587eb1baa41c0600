import Needlework.Proofs.Engine.Comparison

/-!
# Parses that return

A parse reports its failures instead of raising them.  It can report a fault that ends the
building unless the fault leaves a parse by design, as an interrupt does, or is a parse fault
without a wording (`Fault.Reportable`).  A diagnostic needs a message.  So with diagnostics on,
the attempt to report an unworded parse fault raises a fault of its own, and nothing catches
this one.

Every fault of the library can be reported.  So if a grammar, its filters and the teardowns of
its nodes raise nothing else, no fault leaves a parse.  A scan that has run out of rounds has not
come to its end, and neither has its parse.
-/

namespace Needlework

namespace Fault

/-- A fault that a parse can report, with diagnostics or without. -/
structure Reportable (on : Bool) (f : Fault) : Prop where
  stays : f.passesThrough = false
  worded : on = true → f.isParseFault = true → f.message.isEmpty = false

variable {f : Fault}

theorem IsOwn.stays (own : f.IsOwn) : f.passesThrough = false := by
  cases f with
  | raised k m d => exact own.elim
  | outOfRounds => exact own.elim
  | edit c => cases c <;> rfl
  | arithmetic c => cases c <;> rfl
  | _ => rfl

/-- The wording of a parse fault begins with words of the library. -/
theorem IsOwn.worded (own : f.IsOwn) (parse : f.isParseFault = true) :
    f.message.isEmpty = false := by
  have words {s : String} (h : s ≠ "") (ts : List Text) : (Text.cat (s :: ts)).isEmpty = false :=
    Engine.isEmpty_cat (Engine.isEmpty_ofString h) ts
  cases f with
  | raised k m d => exact own.elim
  | edit c =>
      cases c with
      | destroyed | belowItself | notAChild | noSuchChild | otherParent | reservedKind =>
          exact words (by decide) _
      | _ => exact Engine.isEmpty_ofString (by decide)
  | stack c => cases c <;> exact Engine.isEmpty_ofString (by decide)
  | recovery c =>
      cases c with
      | nothingOpen => exact Engine.isEmpty_ofString (by decide)
      | _ => exact words (by decide) _
  | strict c =>
      cases c with
      | rejected => exact words (by decide) _
      | _ => exact Engine.isEmpty_ofString (by decide)
  | reentrant => exact Engine.isEmpty_ofString (by decide)
  | arithmetic c => cases c <;> cases parse
  | hookReported | statusRejected | undecodable | unknownEncoding | brokenTree | unexpected
  | teardownFailed => exact words (by decide) _
  | _ => cases parse

theorem IsOwn.reportable (own : f.IsOwn) (on : Bool) : f.Reportable on :=
  ⟨own.stays, fun _ => own.worded⟩

end Fault

namespace Engine

open Act

variable {σ : Type} {w w' : World σ}

/-! ## What can be reported -/

theorem isEmpty_message_ruling {f : Fault} {on : Bool} (h : f.Reportable on) :
    (on && (ruling f).message.isEmpty) = false := by
  cases on with
  | false => rfl
  | true =>
      rw [Bool.true_and, ruling]
      split
      next parse => exact h.worded rfl parse
      next => exact isEmpty_cat (isEmpty_ofString (by decide)) _

theorem settledBy_eq_ok {on : Bool} {r : Report} {ended : Except Fault Unit}
    (h : ∀ f, ended = .error f → f.Reportable on) : (settledBy on r ended).1 = .ok () := by
  cases ended with
  | ok _ => rfl
  | error f =>
      rw [settledBy, (h f rfl).stays, isEmpty_message_ruling (h f rfl)]
      rfl

/-- A building raises only what its hooks, its filters, the teardowns of its nodes and the library
do, and so does the teardown at its end. -/
theorem build_raises {P : Fault → Prop} (own : ∀ f, f.IsOwn → P f) {g : Grammar σ}
    (raises : ∀ call : HookCall, (call.hook g).Raises P)
    (creates : ∀ call : HookCall, (call.hook g).Uses (Op.Raises P)) (teardowns : w.forest.Raises P)
    (filters : ∀ k, ∀ c ∈ w.engine.filters.get k, ∀ t f, c.run t = .error f → P f)
    (n : Nat) (input : Input) {ended : Except Fault Unit}
    (built : (build g n input).outcome w = (ended, w')) :
    (∀ f, ended = .error f → P f ∨ f = .outOfRounds)
      ∧ ∀ f, (cleared w').1 = .error f → P f := by
  have kept := Invariant.build (w := w) (g := g)
    (I := .steady (fun e => e.filters = w.engine.filters) P own
      (fun h k c hc => filters k c (h ▸ hc)) fun _ h => h)
    (fun call => (creates call).mono fun o raises => Invariant.permits o (fun e he => by
      rw [he] at raises
      exact raises) fun _ _ _ h => h)
    raises teardowns n input rfl
  rw [built] at kept
  exact ⟨kept.2, kept.1.cleared.2.2⟩

/-! ## Parses that return -/

/-- If the hooks, the filters and the teardowns of the nodes raise only what can be reported, a parse
returns, or its scan has not come to an end. -/
theorem parse_returns {g : Grammar σ} {rounds : Nat} {input : Input} {override : Option Text}
    (idle : w.engine.parsing = false) (accepted : ∀ x, input ≠ .other x)
    (raises : ∀ call : HookCall, (call.hook g).Raises (Fault.Reportable w.engine.diagnosing))
    (creates : ∀ call : HookCall,
      (call.hook g).Uses (Op.Raises (Fault.Reportable w.engine.diagnosing)))
    (teardowns : w.forest.Raises (Fault.Reportable w.engine.diagnosing))
    (filters : ∀ k, ∀ c ∈ w.engine.filters.get k, ∀ t f, c.run t = .error f →
      f.Reportable w.engine.diagnosing) :
    (∃ report w', (parse g rounds input override).outcome w = (.ok report, w'))
      ∨ ∃ w', (parse g rounds input override).outcome w = (.error .outOfRounds, w') := by
  obtain ⟨⟨ended, w₁⟩, built⟩ : ∃ out, (build g rounds input).outcome ((enter override).outcome w).2
      = out := ⟨_, rfl⟩
  obtain ⟨config, r, l, ends, -⟩ := exists_outcome_parse idle accepted built
  have diagnosing : w₁.engine.diagnosing = w.engine.diagnosing :=
    congrArg (fun c : Config => c.enableDiagnostics.truthy) config
  obtain ⟨raised, torn⟩ := build_raises (w := ((enter override).outcome w).2)
    (fun _ own => own.reportable w.engine.diagnosing) raises creates teardowns filters _ _ built
  have stays : interrupted (cleared w₁).1 = false := by
    cases down : (cleared w₁).1 with
    | ok _ => rfl
    | error f => exact (torn f down).stays
  rw [ends, concluded_of_not_interrupted stays, diagnosing]
  by_cases rounds : ended = .error .outOfRounds
  · subst rounds
    exact .inr ⟨_, rfl⟩
  · left
    have settled : (settledBy w.engine.diagnosing r ended).1 = .ok () := by
      refine settledBy_eq_ok fun f hf => ?_
      subst hf
      exact (raised f rfl).resolve_right fun h => rounds (congrArg _ h)
    rw [settled]
    exact ⟨_, _, rfl⟩

/-- A grammar that refuses to begin, in certain words. -/
def refusing (message : Text) : Grammar Unit :=
  { Grammar.plain Unit with init := .raise (.raised .parser message []) }

theorem raises_refusing {P : Fault → Prop} {message : Text} (h : P (.raised .parser message []))
    (call : HookCall) : (call.hook (refusing message)).Raises P := by
  cases call with
  | init => exact h
  | setStatus n =>
      show Hook.Raises P (if n = 0 then _ else _)
      split
      · exact Hook.raises_bind_ask _ fun _ => Hook.raises_bind_ask _ fun _ => trivial
      · trivial
  | handleStatus n needle => exact Hook.raises_bind_ask _ fun _ => trivial
  | closeRemainingBlocks => exact Hook.raises_ask _
  | modifyTree => trivial
  | outputTree => trivial

theorem creates_refusing {P : Fault → Prop} {message : Text} (call : HookCall) :
    (call.hook (refusing message)).Uses (Op.Raises P) := by
  cases call with
  | init => trivial
  | setStatus n =>
      show Hook.Uses (Op.Raises P) (if n = 0 then _ else _)
      split
      · exact Hook.uses_bind_ask trivial fun _ => Hook.uses_bind_ask trivial fun _ => trivial
      · trivial
  | handleStatus n needle => exact Hook.uses_bind_ask trivial fun _ => trivial
  | closeRemainingBlocks => exact Hook.uses_ask trivial
  | modifyTree => trivial
  | outputTree => trivial

theorem parse_returns_refusing : ∃ report w',
    (parse (refusing "no") 1 (.text [0x61]) none).outcome { memory := () } = (.ok report, w') := by
  have ended : ((parse (refusing "no") 1 (.text [0x61]) none).outcome
      { memory := () }).1.isOk = true := by decide +kernel
  refine (parse_returns (w := { memory := () }) rfl (by nofun)
    (raises_refusing ⟨rfl, fun _ _ => rfl⟩) creates_refusing (fun h f torn => by cases torn)
    fun k c hc => by cases k <;> cases hc).resolve_right ?_
  rintro ⟨w', stalled⟩
  rw [stalled] at ended
  cases ended

/-- A parse fault without a wording is not reported.  The diagnostic for it is refused, and the
refusal leaves the parse. -/
theorem parse_refusing_unworded :
    (∀ call : HookCall, (call.hook (refusing [])).Raises fun f => f.passesThrough = false)
      ∧ ∃ w', (parse (refusing []) 1 (.text [0x61]) none).outcome { memory := () }
        = (.error (.diagnostic .noMessage), w') :=
  ⟨raises_refusing rfl, _, Prod.ext rfl rfl⟩

end Engine

end Needlework
