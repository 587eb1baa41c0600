import Needlework.Proofs.Engine.Books

/-!
# Downgrades

In lenient mode a needle that the grammar rejects is counted and warned of, and then the code point
at the cursor becomes text.  The warning has a wording, and the cursor is not negative, so nothing can
fail up to there (`exists_outcome_reject`).  The rest depends on where the cursor is.

* Inside the text there is a code point, and it goes to the innermost open node.  The cursor moves
  behind it (`exists_downgrade`).
* At the end of the text there is none, and the scan fails (`exists_reject_at_end`).
-/

namespace Needlework.Engine

open Act

variable {σ : Type} {w : World σ}

/-- A diagnostic with a wording and a place in the text does not fail, and it concerns the report
alone. -/
theorem exists_outcome_diagnose (severity : Severity) {message : Text}
    (worded : message.isEmpty = false) {offset : Value}
    (inside : Diagnostic.checkOffset offset = .ok ()) (details : Value) (w : World σ) :
    ∃ r, (diagnose severity message offset details).outcome w
      = (.ok (), w.onEngine fun e => { e with report := r }) := by
  cases hr : w.engine.report with
  | none =>
      have same : (w.onEngine fun e => { e with report := none }) = w := by
        rw [World.onEngine, ← hr]
      exact ⟨none, by rw [diagnose, outcome_engine, hr, same]; rfl⟩
  | some r =>
      by_cases on : w.engine.diagnosing = true
      · exact ⟨_, outcome_diagnose_noted hr on severity worded inside details⟩
      · have same : (w.onEngine fun e => { e with report := some r }) = w := by
          rw [World.onEngine, ← hr]
        refine ⟨some r, ?_⟩
        rw [diagnose, outcome_engine, hr, same]
        dsimp only
        rw [if_neg (show ¬ w.engine.config.enableDiagnostics.truthy = true from on)]
        rfl

/-- A world in which a rejected needle is counted and warned of. -/
def admonished (w : World σ) (r : Option Report) (l : List Record) : World σ :=
  { w with log := l, engine := downgraded { w.engine with report := r } }

variable (lenient : w.engine.isStrict = false) (nonneg : 0 ≤ w.engine.cursor)

include lenient nonneg

/-- A needle that is rejected is on record before anything can fail. -/
theorem exists_outcome_reject (needle : Text) (position : Nat) : ∃ r l,
    (reject needle position).outcome w = outcome (do
      match w.engine.text.at? w.engine.cursor with
      | none => throw (.outside .text w.engine.cursor)
      | some c => appendText [c] none
      modifyEngine fun e => { e with cursor := e.cursor + 1 }) (admonished w r l) := by
  rw [reject, outcome_engine, lenient, if_neg Bool.false_ne_true, downgrade, outcome_engine,
    outcome_log, outcome_modifyEngine, outcome_bind]
  generalize counted : World.onEngine _ _ = u
  obtain ⟨r, warned⟩ := exists_outcome_diagnose .warning
    (isEmpty_cat (isEmpty_ofString (show "Construct " ≠ "" by decide))
      [needle.quoted, " not recognised; kept as literal text"])
    (Diagnostic.checkOffset_of_nonneg nonneg) .null u
  rw [warned, ← counted]
  exact ⟨r, _, rfl⟩

/-- Inside the text one code point becomes text, and the cursor moves behind it. -/
theorem exists_downgrade {c : CodePoint} {top : Handle} {rest : List Handle}
    (point : w.engine.text.at? w.engine.cursor = some c) (stack : w.engine.stack = top :: rest)
    (wf : w.forest.WellFormed) (known : top < w.forest.size) (needle : Text) (position : Nat) :
    ∃ r l f, w.forest.Writes top [c] (some w.engine.cursor) f
      ∧ (reject needle position).outcome w = (.ok (), ((admonished w r l).withForest f).onEngine
          fun e => { e with cursor := e.cursor + 1 }) := by
  obtain ⟨r, l, ends⟩ := exists_outcome_reject lenient nonneg needle position
  obtain ⟨f, run, writes⟩ :=
    wf.run_appendToLastText known (List.cons_ne_nil c []) (some w.engine.cursor)
  have appended : (appendText [c] none).outcome (admonished w r l)
      = (.ok (), (admonished w r l).withForest f) := by
    have opened : (admonished w r l).engine.stack = top :: rest := stack
    have written : (Forest.appendToLastText top [c] (some (admonished w r l).engine.cursor)).run
        (admonished w r l).forest = .ok () f := run
    rw [outcome_appendText opened, outcome_tree, Option.getD_none, written]
  refine ⟨r, l, f, writes, ?_⟩
  rw [ends, point]
  dsimp only
  rw [outcome_bind, appended]
  rfl

/-- At the end of the text there is no code point left. -/
theorem exists_reject_at_end (behind : w.engine.text.length ≤ w.engine.cursor) (needle : Text)
    (position : Nat) : ∃ r l, (reject needle position).outcome w
      = (.error (.outside .text w.engine.cursor), admonished w r l) := by
  obtain ⟨r, l, ends⟩ := exists_outcome_reject lenient nonneg needle position
  have none : w.engine.text.at? w.engine.cursor = none := by
    rw [Text.at?_of_nonneg nonneg, List.getElem?_eq_none_iff]
    omega
  refine ⟨r, l, ?_⟩
  rw [ends, none]
  rfl

end Needlework.Engine
