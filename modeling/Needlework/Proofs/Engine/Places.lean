import Needlework.Proofs.Engine.Accounts
import Needlework.Proofs.Engine.Termination

/-!
# Places

How far a scan has come is told by its text, its cursor and the counters of needles and
recoveries.  The rest of the engine does not matter for the progress of the scan, so this much of
it is its *place*.

One lemma for each step says what it does to the place.  A hook leaves the place alone, and the
origins of the nodes too, as long as it leaves cursor, text and origins to the engine
(`Op.KeepsPlace`).
-/

namespace Needlework

/-- An operation that leaves cursor, text and origins to the engine. -/
def Op.KeepsPlace {σ : Type} : Op σ → Prop
  | .assign (.cursor _) => False
  | .assign (.text _) => False
  | .tamper (.origin _ _) => False
  | _ => True

namespace Engine

open Act

/-! ## Places -/

/-- How far a scan has come. -/
structure Place where
  /-- The text. -/
  text : Text
  /-- The limit on recoveries. -/
  limit : Value
  /-- The offset of the scan. -/
  cursor : Int
  /-- Whether a recovery moved the cursor in this round. -/
  rewound : Bool
  /-- The needles found. -/
  needles : Int
  /-- The constructs read again as text. -/
  recoveries : Int

/-- The place of an engine. -/
def place (e : Engine) : Place where
  text := e.text
  limit := e.config.maxRecoveries
  cursor := e.cursor
  rewound := e.rewound
  needles := e.metrics.needles
  recoveries := e.metrics.recoveries

variable {σ : Type}

/-! ## What steps do to the place -/

theorem place_op {o : Op σ} (plain : IsPlain o) (keeps : o.KeepsPlace) (w : World σ) :
    ((Step.act (.op o)).outcome w).2.engine.place = w.engine.place := by
  by_cases placid : o.Placid
  · rcases account_op plain placid w with same | ⟨-, n, same⟩
    · exact (congrArg place same :)
    · exact (congrArg place same :)
  · cases o with
    | assign a =>
        cases a with
        | strict v => rfl
        | cursor i => exact keeps.elim
        | text t => exact keeps.elim
        | _ => exact absurd trivial placid
    | _ => exact absurd trivial placid

theorem place_withdraw (w : World σ) : (withdraw.outcome w).2.engine.place = w.engine.place :=
  (congrArg place (account_withdraw w) :)

theorem place_handOut (w : World σ) : (handOut.outcome w).2.engine.place = w.engine.place :=
  (congrArg place (account_handOut w) :)

/-- A rejected needle ends the scan where it is, or one code point is passed. -/
theorem place_reject (needle : Text) (position : Nat) (w : World σ) :
    (∃ f, ((reject needle position).outcome w).1 = .error f)
        ∧ ((reject needle position).outcome w).2.engine.place = w.engine.place
      ∨ (∃ c, w.engine.text.at? w.engine.cursor = some c)
        ∧ ((reject needle position).outcome w).2.engine.place
          = { w.engine.place with cursor := w.engine.cursor + 1 } := by
  cases strict : w.engine.isStrict with
  | true =>
      rw [outcome_reject_of_strict needle position strict]
      exact .inl ⟨⟨_, rfl⟩, rfl⟩
  | false =>
      rw [reject, outcome_engine, if_neg (Bool.eq_false_iff.mp strict), downgrade, outcome_engine,
        outcome_log, outcome_modifyEngine]
      generalize noted : World.onEngine _ _ = u
      have counted : u.engine.place = w.engine.place := by
        rw [← noted]
        rfl
      rw [outcome_bind]
      obtain ⟨r, reported⟩ := engine_diagnose .warning
        (Text.cat ["Construct ", needle.quoted, " not recognised; kept as literal text"])
        (.int w.engine.cursor) .null u
      generalize (diagnose .warning _ _ _).outcome u = out at reported ⊢
      obtain ⟨ended, v⟩ := out
      have warned : v.engine.place = w.engine.place :=
        (congrArg place reported).trans counted
      cases ended with
      | error f => exact .inl ⟨⟨f, rfl⟩, warned⟩
      | ok _ =>
          dsimp only
          cases kept : w.engine.text.at? w.engine.cursor with
          | none => exact .inl ⟨⟨_, rfl⟩, warned⟩
          | some c =>
              obtain ⟨ended, appended⟩ := exists_outcome_appendText [c] none v
              dsimp only
              rw [outcome_bind, appended]
              cases ended with
              | error f => exact .inl ⟨⟨f, rfl⟩, warned⟩
              | ok _ =>
                  refine .inr ⟨⟨c, rfl⟩, ?_⟩
                  show { v.engine.place with cursor := v.engine.place.cursor + 1 } = _
                  rw [warned]
                  rfl

/-! ## What steps do to origins -/

theorem originsKept_op {o : Op σ} (plain : IsPlain o) (keeps : o.KeepsPlace) (w : World σ) :
    w.forest.OriginsKept ((Step.act (.op o)).outcome w).2.forest := by
  cases o with
  | setStatus n => exact plain.elim
  | recover => exact plain.elim
  | push n => exact originsKept_push n w
  | pop =>
      show w.forest.OriginsKept (pop.outcome w).2.forest
      rcases pop_cases w with ⟨e, hout⟩ | ⟨top, next, rest, -, hout⟩
      · rw [hout]
        exact .refl _
      · rw [hout]
        exact .refl _
  | appendText t offset =>
      show w.forest.OriginsKept ((appendText t offset).outcome w).2.forest
      rw [after_appendText]
      exact originsKept_textForest w t offset
  | closeOpen =>
      show w.forest.OriginsKept (closeOpen.outcome w).2.forest
      rcases closeOpen_cases w with ⟨b, hout⟩ | unmoved
      · rw [hout]
        exact .refl _
      · rw [unmoved.forest]
        exact .refl _
  | edit e =>
      show w.forest.OriginsKept ((tree e.run).outcome w).2.forest
      rw [after_tree]
      exact Forest.originsKept_edit e w.forest
  | tamper t =>
      refine originsKept_tamper (w := w) ?_
      cases t with
      | origin h o => exact keeps.elim
      | _ => trivial
  | assign a =>
      show w.forest.OriginsKept ((assign a).outcome w).2.forest
      cases a with
      | newRoot => exact .add _
      | dropTop =>
          rw [assign, outcome_engine]
          split
          · exact .refl _
          · exact .refl _
      | _ => exact .refl _
  | postfilter t =>
      show w.forest.OriginsKept ((applyFilters .post t).outcome w).2.forest
      rw [(unmoved_applyFilters .post t w).forest]
      exact .refl _
  | parse input override =>
      show w.forest.OriginsKept (refuseParse.outcome w).2.forest
      rw [(unmoved_refuseParse w).forest]
      exact .refl _
  | _ => exact .refl _

end Engine

end Needlework
