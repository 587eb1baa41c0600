import Needlework.Proofs.Engine.OpenBranch
import Needlework.Proofs.Forest.Refusals

/-!
# Impossible recoveries

A recovery is refused for one of four reasons (`Refused`).

*Before the node is taken out.*  Nothing but the root is open, the limit is reached, or the innermost
open node has no parent.  Then nothing has changed.

*After the node was taken out.*  The node does not know where in the text it began.  Then it has been
put aside, and the next open node is the innermost one.  What was below it in the tree is no longer
there, and no text has taken its place.  Cursor, status, counters and report are as they were.

Once the node is out and its origin is known, the grammar switches the status, and then the marker
becomes text again.  The latter refuses nothing (`kind_of_resume`).  So a recovery that got as far as
the switch is impossible only if the switch says so (`impossible_recovery`).
-/

namespace Needlework

theorem EditFault.kind_ne_recoveryImpossible (c : EditFault) : c.kind ≠ .recoveryImpossible := by
  cases c <;> rintro ⟨⟩

namespace Engine

open Act

variable {σ : Type} {v v' w w' : World σ} {f : Fault}

/-! ## The second half -/

theorem kind_of_check {d : Diagnostic} (h : d.check = .error f) : f.kind ≠ .recoveryImpossible := by
  rw [Diagnostic.check] at h
  split at h
  · cases h
    rintro ⟨⟩
  split at h
  · cases h
    rintro ⟨⟩
  rw [Diagnostic.checkOffset] at h
  split at h
  · cases h
  split at h
  · cases h
    rintro ⟨⟩
  · cases h
    rintro ⟨⟩
  · cases h

theorem kind_of_diagnose {severity : Severity} {message : Text} {offset details : Value}
    (h : (diagnose severity message offset details).outcome w = (.error f, w')) :
    f.kind ≠ .recoveryImpossible := by
  rw [diagnose, outcome_engine] at h
  cases report : w.engine.report with
  | none =>
      rw [report] at h
      cases h
  | some r =>
    rw [report] at h
    dsimp only at h
    split at h
    · rw [Report.add] at h
      cases checked : Diagnostic.check ⟨severity, message, component, offset, details, r.correlation⟩ with
      | ok d =>
          rw [checked] at h
          cases h
      | error e =>
          rw [checked] at h
          cases h
          exact kind_of_check checked
    · cases h

/-- What makes a marker text again does not refuse to. -/
theorem kind_of_resume {top : Handle} {origin : Int}
    (h : (resume top origin).outcome w = (.error f, w')) : f.kind ≠ .recoveryImpossible := by
  rw [resume, outcome_bind, appendPoint, outcome_engine] at h
  cases point : w.engine.text.at? origin with
  | none =>
      rw [point] at h
      cases h
      rintro ⟨⟩
  | some c =>
    rw [point] at h
    cases stack : w.engine.stack with
    | nil =>
        dsimp only at h
        rw [outcome_appendText_of_nil stack] at h
        cases h
        rintro ⟨⟩
    | cons inner rest =>
      dsimp only at h
      rw [outcome_appendText stack, outcome_tree] at h
      cases ran : (Forest.appendToLastText inner [c] (some ((some origin).getD w.engine.cursor))).run
          w.forest with
      | error e g =>
          rw [ran] at h
          cases h
          obtain ⟨cause, rfl⟩ := Forest.Refuses.appendToLastText inner [c] _ _ _ _ ran
          exact cause.kind_ne_recoveryImpossible
      | ok u g =>
          rw [ran] at h
          dsimp only at h
          rw [outcome_modifyEngine, outcome_get, outcome_log] at h
          exact kind_of_diagnose h

/-! ## The first half -/

/-- A world whose innermost open node was taken out of the tree and put aside. -/
def aside (w : World σ) (g : Forest) (top : Handle) : World σ :=
  (w.withForest g).onEngine fun e => { e with detached := top :: e.detached, stack := e.stack.tail }

/-- Why a recovery is refused, and the world that it leaves behind. -/
inductive Refused (v : World σ) : Fault → World σ → Prop where
  | nothingOpen (few : v.engine.stack.length < 2) :
      Refused v (.recovery (.nothingOpen v.engine.stack.length)) v
  | limitReached (many : 2 ≤ v.engine.stack.length) (reached : v.engine.limitReached = true) :
      Refused v (.recovery (.limitReached v.engine.config.maxRecoveries)) v
  | notAttached {top next : Handle} {rest : List Handle} (stack : v.engine.stack = top :: next :: rest)
      (free : v.engine.limitReached = false) (loose : v.forest.parent top = none) :
      Refused v (.recovery (.notAttached (v.forest.idOf top))) v
  | unknownOrigin {top next p c : Handle} {rest : List Handle} {g : Forest}
      (stack : v.engine.stack = top :: next :: rest) (free : v.engine.limitReached = false)
      (attached : v.forest.parent top = some p)
      (taken : (Forest.removeNode p top).run v.forest = .ok c g)
      (unknown : ∀ o, (v.forest.node top).origin = some o → v.engine.text.length ≤ o) :
      Refused v (.recovery (.unknownOrigin (v.forest.idOf top) (v.forest.node top).origin))
        (aside v g top)

/-- A node that was taken out keeps its id and its origin. -/
theorem kept_of_removeNode {g g' : Forest} {p c d : Handle} (known : c < g.size)
    (taken : (Forest.removeNode p c).run g = .ok d g') :
    g'.idOf c = g.idOf c ∧ (g'.node c).origin = (g.node c).origin := by
  have kept := Forest.steady_removeNode p c g
  rw [Forest.after_of_ok taken] at kept
  refine ⟨?_, kept.origin c known⟩
  rw [Forest.removeNode, EStateM.run_bind, Forest.run_requireIndex] at taken
  cases found : g.indexOf? p c with
  | none =>
      rw [found] at taken
      cases taken
  | some i =>
      rw [found] at taken
      rcases Forest.run_removeAt_cases p i g with ⟨e, refused⟩ | ⟨k, c', -, removed⟩
      · dsimp only at taken
        rw [refused] at taken
        cases taken
      · dsimp only at taken
        rw [removed] at taken
        cases taken
        simp

/-- A node that was taken out leads on, or its origin is unknown. -/
theorem withdraw_decides {top next p c : Handle} {rest : List Handle} {g : Forest}
    (stack : v.engine.stack = top :: next :: rest) (free : v.engine.limitReached = false)
    (attached : v.forest.parent top = some p)
    (taken : (Forest.removeNode p top).run v.forest = .ok c g) :
    (∃ o, (v.forest.node top).origin = some o ∧ o < v.engine.text.length
        ∧ withdraw.outcome v = (.ok (top, o), aside v g top))
      ∨ (∀ o, (v.forest.node top).origin = some o → v.engine.text.length ≤ o)
        ∧ withdraw.outcome v = (.error (.recovery (.unknownOrigin (v.forest.idOf top)
            (v.forest.node top).origin)), aside v g top) := by
  have removed : withdraw.outcome v = (do return (top, ← originOf top)).outcome (aside v g top) := by
    rw [withdraw, outcome_engine, stack]
    dsimp only
    rw [free, if_neg Bool.false_ne_true, outcome_get, attached]
    dsimp only
    rw [outcome_bind, outcome_putAside, taken]
    rfl
  obtain ⟨id, origin⟩ := kept_of_removeNode (Forest.lt_size_of_parent attached) taken
  change ((aside v g top).forest.node top).id = _ at id
  change ((aside v g top).forest.node top).origin = _ at origin
  rw [removed, outcome_bind, originOf, outcome_get]
  dsimp only
  rw [id, origin]
  cases began : (v.forest.node top).origin with
  | none => exact .inr ⟨by rintro _ ⟨⟩, rfl⟩
  | some o =>
      dsimp only
      rw [outcome_engine]
      by_cases beyond : (v.engine.text.length : Int) ≤ o
      · have looked : ((aside v g top).engine.text.length : Int) ≤ o := beyond
        rw [if_pos looked]
        refine .inr ⟨?_, rfl⟩
        rintro _ ⟨⟩
        exact beyond
      · have looked : ¬ ((aside v g top).engine.text.length : Int) ≤ o := beyond
        rw [if_neg looked]
        exact .inl ⟨o, rfl, by omega, rfl⟩

/-- A refusal is what becomes of a recovery before the status is switched. -/
theorem Refused.outcome_withdraw (refused : Refused v f v') : withdraw.outcome v = (.error f, v') := by
  cases refused with
  | nothingOpen few =>
      rw [withdraw, outcome_engine]
      cases stack : v.engine.stack with
      | nil => rfl
      | cons _ rest =>
        cases rest with
        | nil => rfl
        | cons _ _ => exact absurd few (by simp [stack])
  | limitReached many reached =>
      rw [withdraw, outcome_engine]
      cases stack : v.engine.stack with
      | nil => simp [stack] at many
      | cons _ rest =>
        cases rest with
        | nil => simp [stack] at many
        | cons _ _ =>
            dsimp only
            rw [if_pos reached]
            rfl
  | notAttached stack free loose =>
      rw [withdraw, outcome_engine, stack]
      dsimp only
      rw [free, if_neg Bool.false_ne_true, outcome_get, loose]
      rfl
  | unknownOrigin stack free attached taken unknown =>
      rcases withdraw_decides stack free attached taken with ⟨o, began, inside, -⟩ | ⟨-, ended⟩
      · exact absurd (unknown o began) (Int.not_le.mpr inside)
      · exact ended

theorem Refused.kind (refused : Refused v f v') : f.kind = .recoveryImpossible := by
  cases refused <;> rfl

/-- Before the status is switched, a recovery is refused in no other case. -/
theorem refused_of_withdraw (ended : withdraw.outcome v = (.error f, v'))
    (impossible : f.kind = .recoveryImpossible) : Refused v f v' := by
  have settle {e : Fault} {u : World σ} (refused : Refused v e u) : Refused v f v' := by
    have same := refused.outcome_withdraw
    rw [ended] at same
    cases same
    exact refused
  by_cases few : v.engine.stack.length < 2
  · exact settle (.nothingOpen few)
  cases stack : v.engine.stack with
  | nil => simp [stack] at few
  | cons top rest =>
  cases rest with
  | nil => simp [stack] at few
  | cons next rest =>
    by_cases reached : v.engine.limitReached = true
    · exact settle (.limitReached (by simp [stack]) reached)
    have free := Bool.eq_false_iff.mpr reached
    cases attached : v.forest.parent top with
    | none => exact settle (.notAttached stack free attached)
    | some p =>
      cases taken : (Forest.removeNode p top).run v.forest with
      | error e g =>
          rw [withdraw, outcome_engine, stack] at ended
          dsimp only at ended
          rw [free, if_neg Bool.false_ne_true, outcome_get, attached] at ended
          dsimp only at ended
          rw [outcome_bind, outcome_putAside, taken] at ended
          cases ended
          obtain ⟨cause, rfl⟩ := Forest.Refuses.removeNode p top _ _ _ taken
          exact absurd impossible cause.kind_ne_recoveryImpossible
      | ok c g =>
          rcases withdraw_decides stack free attached taken with ⟨o, -, -, left⟩ | ⟨unknown, -⟩
          · rw [ended] at left
            cases left
          · exact settle (.unknownOrigin stack free attached taken unknown)

/-! ## Whole recoveries -/

theorem outcome_recover (switch : Int → Act σ Unit) (v : World σ) :
    (recover switch).outcome v = match withdraw.outcome v with
      | (.error e, u) => (.error e, u)
      | (.ok taken, u) => match (switch 0).outcome u with
          | (.error e, u') => (.error e, u')
          | (.ok _, u') => (resume taken.1 taken.2).outcome u' := by
  rw [recover, outcome_bind]
  rcases withdraw.outcome v with ⟨_ | taken, u⟩
  · rfl
  · dsimp only
    rw [outcome_bind]
    rcases (switch 0).outcome u with ⟨_ | _, u'⟩ <;> rfl

/-- A recovery is impossible exactly if taking the node out is refused, or if the switch of the status
afterwards raises that a recovery is impossible.  A refusal changes nothing, unless it is for an
unknown origin.  In a well-formed forest that one takes the innermost open node from its parent and
puts it aside, and does nothing else. -/
theorem impossible_recovery (switch : Int → Act σ Unit) (v v' : World σ) (f : Fault) :
    (((recover switch).outcome v = (.error f, v') ∧ f.kind = .recoveryImpossible) ↔
      Refused v f v' ∨ ∃ taken u, withdraw.outcome v = (.ok taken, u)
        ∧ (switch 0).outcome u = (.error f, v') ∧ f.kind = .recoveryImpossible)
      ∧ (v.forest.WellFormed → Refused v f v' → v' = v ∨ ∃ top p, v.engine.stack.head? = some top
        ∧ v.forest.parent top = some p
        ∧ (∀ o, (v.forest.node top).origin = some o → v.engine.text.length ≤ o)
        ∧ v' = aside v (v.forest.unlink p top) top) := by
  refine ⟨⟨?_, ?_⟩, fun wf refused => ?_⟩
  · rintro ⟨ended, impossible⟩
    rw [outcome_recover] at ended
    cases begun : withdraw.outcome v with
    | mk r u =>
    rw [begun] at ended
    cases r with
    | error e =>
        cases ended
        exact .inl (refused_of_withdraw begun impossible)
    | ok taken =>
      dsimp only at ended
      cases switched : (switch 0).outcome u with
      | mk r u' =>
      rw [switched] at ended
      cases r with
      | error e =>
          cases ended
          exact .inr ⟨taken, u, rfl, switched, impossible⟩
      | ok _ => exact absurd impossible (kind_of_resume ended)
  · rintro (refused | ⟨taken, u, begun, switched, impossible⟩)
    · rw [outcome_recover, refused.outcome_withdraw]
      exact ⟨rfl, refused.kind⟩
    · rw [outcome_recover, begun]
      dsimp only
      rw [switched]
      exact ⟨rfl, impossible⟩
  · cases refused with
    | nothingOpen => exact .inl rfl
    | limitReached => exact .inl rfl
    | notAttached => exact .inl rfl
    | @unknownOrigin top _ p _ _ _ stack _ attached taken unknown =>
        rw [wf.run_removeNode attached] at taken
        cases taken
        exact .inr ⟨top, p, by rw [stack]; rfl, attached, unknown, rfl⟩

/-! ## A refusal that loses text -/

/-- Open a bold node that does not know where it began.  At a closing mark, ask for a recovery, and
keep the mark as text if there is none. -/
def insist (needle : Text) : Hook Unit Bool := do
  if needle = Bold.openMark then
    let h ← Hook.edit (.create (Bold.boldNode none))
    let _ ← Hook.push (.node h)
    return true
  else .call .recover fun
    | .ok _ => return true
    | .error _ => do
        Hook.appendText needle none
        return true

/-- The grammar of bold text that does so. -/
def insistingGrammar : Grammar Unit :=
  { Bold.treeGrammar Unit with setStatus := seekBoth, handleStatus := fun _ => insist }

/-- Some bold text. -/
def boldLetter : Input := .text (Text.ofChars ['[', 'b', ']', 'x', '[', '/', 'b', ']'])

/-- The steps of its parse by this grammar. -/
def insistingMoments : List (Moment Unit) :=
  parseMoments insistingGrammar 6 boldLetter none { memory := () }

/-- How the parse ends. -/
def insistingOutcome : Except Fault Report × World Unit :=
  (parse insistingGrammar 6 boldLetter none).outcome { memory := () }

theorem helped_insistingMoments : ∀ m ∈ insistingMoments, m.Helped := by decide +kernel

/-- The bold node of the letter has no origin, so it is taken out and the recovery is refused. -/
theorem impossible_recovery_unknownOrigin : ∃ v v', ⟨.withdraw, v⟩ ∈ insistingMoments
    ∧ (recover (switchStatus insistingGrammar)).outcome v
      = (.error (.recovery (.unknownOrigin 1 none)), v')
    ∧ Refused v (.recovery (.unknownOrigin 1 none)) v' ∧ v.forest.WellFormed
    ∧ v.engine.stack = [1, 0] ∧ v' = aside v (v.forest.unlink 0 1) 1 := by
  obtain ⟨v, v', member, ended, begun, stack, stack', parent⟩ : ∃ v v' : World Unit,
      ⟨.withdraw, v⟩ ∈ insistingMoments
        ∧ (recover (switchStatus insistingGrammar)).outcome v
          = (.error (.recovery (.unknownOrigin 1 none)), v')
        ∧ (withdraw.outcome v).1.isOk = false ∧ v.engine.stack = [1, 0] ∧ v'.engine.stack = [0]
        ∧ v.forest.parent 1 = some 0 :=
    ⟨_, _, List.get_mem _ ⟨14, by decide +kernel⟩, rfl, by decide +kernel, by decide +kernel,
      by decide +kernel, by decide +kernel⟩
  have wf : v.forest.WellFormed :=
    (upright_of_mem (w := { memory := () }) (.of_size_eq_zero rfl) helped_insistingMoments member
      trivial).1.wellFormed
  obtain ⟨reasons, changes⟩ := impossible_recovery (switchStatus insistingGrammar) v v'
    (.recovery (.unknownOrigin 1 none))
  rcases reasons.1 ⟨ended, rfl⟩ with refused | ⟨taken, u, left, -⟩
  · refine ⟨v, v', member, ended, refused, wf, stack, ?_⟩
    rcases changes wf refused with rfl | ⟨top, p, first, above, -, left⟩
    · rw [stack] at stack'
      cases stack'
    · rw [stack] at first
      cases first
      rw [parent] at above
      cases above
      exact left
  · rw [left] at begun
    cases begun

/-- Between the bold node and the refusal stands a letter.  The refusal takes it out of the tree with
the node, the grammar goes on, and the tree that is handed out has the closing mark alone. -/
theorem impossible_recovery_loses_text :
    (∀ m ∈ insistingMoments, m.Helped)
      ∧ (∃ v, ⟨.withdraw, v⟩ ∈ insistingMoments
        ∧ (∃ v', (recover (switchStatus insistingGrammar)).outcome v
            = (.error (.recovery (.unknownOrigin 1 none)), v')
          ∧ v.engine.stack = [1, 0] ∧ v'.engine.stack = [0]
          ∧ v.engine.detached = [] ∧ v'.engine.detached = [1]
          ∧ v.forest.children 0 = [1] ∧ v'.forest.children 0 = []))
      ∧ (insistingOutcome.1.toOption.map fun report => (report.success, report.tree))
        = some (true, some 0)
      ∧ (insistingOutcome.2.forest.children 0).map (fun h => (insistingOutcome.2.forest.node h).content?)
        = [some Bold.closeMark] := by
  refine ⟨helped_insistingMoments, ?_, by decide +kernel, by decide +kernel⟩
  exact ⟨_, List.get_mem _ ⟨14, by decide +kernel⟩, _, rfl, by decide +kernel, by decide +kernel,
    by decide +kernel, by decide +kernel, by decide +kernel, by decide +kernel⟩

end Engine

end Needlework
