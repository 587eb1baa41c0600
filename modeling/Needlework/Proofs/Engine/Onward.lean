import Needlework.Proofs.Engine.Places

/-!
# Cursors and origins inside the text

A scan never stands before its text, and no node begins there, unless a hook says so.  A world in
which this is so is `Onward`.

Diagnostics depend on it.  They tell of the cursor, or of where a node began, and an offset
before the text is refused.  So every step that reports something does it from an onward world.
-/

namespace Needlework

/-- An operation that neither sets the cursor nor puts an origin before the text. -/
def Op.Onward {σ : Type} : Op σ → Prop
  | .assign (.cursor _) => False
  | .tamper (.origin _ o) => ∀ i, o = some i → 0 ≤ i
  | _ => True

theorem Forest.Forward.tamper {f : Forest} (forward : f.Forward) {h : Handle} {o : Option Int}
    (nonneg : ∀ i, o = some i → 0 ≤ i) : (Tamper.apply f (.origin h o)).Forward := by
  intro k i origin
  rw [Tamper.apply, Forest.node_update] at origin
  split at origin
  · exact nonneg i origin
  · exact forward k i origin

namespace Engine

open Act

variable {σ : Type} {w w' : World σ}

/-- Neither the cursor nor the origin of a node is negative. -/
structure Onward (w : World σ) : Prop where
  cursor : 0 ≤ w.engine.cursor
  forward : w.forest.Forward

namespace Onward

/-- What leaves the place alone and keeps the origins stays onward. -/
theorem still (onward : Onward w) (same : w'.engine.place = w.engine.place)
    (kept : w.forest.OriginsKept w'.forest) : Onward w' where
  cursor := by
    rw [show w'.engine.cursor = w.engine.cursor from congrArg Place.cursor same]
    exact onward.cursor
  forward := kept.forward onward.forward

theorem op {o : Op σ} (onward : Onward w) (plain : IsPlain o) (allowed : o.Onward) :
    Onward ((Step.act (.op o)).outcome w).2 := by
  by_cases keeps : o.KeepsPlace
  · exact onward.still (place_op plain keeps w) (originsKept_op plain keeps w)
  · cases o with
    | assign a =>
        cases a with
        | cursor i => exact allowed.elim
        | text t => exact ⟨onward.cursor, onward.forward⟩
        | _ => exact absurd trivial keeps
    | tamper t =>
        cases t with
        | origin h o => exact ⟨onward.cursor, onward.forward.tamper allowed⟩
        | _ => exact absurd trivial keeps
    | _ => exact absurd trivial keeps

theorem withdraw (onward : Onward w) : Onward (Engine.withdraw.outcome w).2 :=
  onward.still (place_withdraw w) (originsKept_withdraw w)

/-- A recovery goes back to a place inside the text. -/
theorem nonneg_of_withdraw (onward : Onward w) {taken : Handle × Int}
    (h : Engine.withdraw.outcome w = (.ok taken, w')) : 0 ≤ taken.2 := by
  have after := onward.withdraw
  rw [h] at after
  obtain ⟨next, rest, p, c, f, -, -, -, rfl, began, -⟩ := exists_of_withdraw h
  exact after.forward taken.1 taken.2 began

theorem resume (onward : Onward w) {origin : Int} (nonneg : 0 ≤ origin) (top : Handle) :
    Onward ((Engine.resume top origin).outcome w).2 := by
  have kept := originsKept_resume top origin w
  refine ⟨?_, kept.forward onward.forward⟩
  rcases engine_resume top origin w with ⟨f, -, same⟩ | ⟨r, moved⟩
  · rw [same]
    exact onward.cursor
  · rw [moved]
    show 0 ≤ origin + 1
    omega

theorem begun (onward : Onward w) : Onward (begun w) := ⟨onward.cursor, onward.forward⟩

theorem approach (onward : Onward w) (position : Nat) :
    Onward ((Engine.approach position).outcome w).2 := by
  have kept := originsKept_approach position w
  refine ⟨?_, kept.forward onward.forward⟩
  rcases approach_cases position w with ⟨f, failed⟩ | ⟨-, moved⟩
  · rw [failed]
    exact onward.cursor
  · rw [moved]
    exact Int.natCast_nonneg position

theorem accept (onward : Onward w) (needle : Text) :
    Onward ((Engine.accept needle).outcome w).2 := by
  rw [outcome_accept]
  dsimp only
  split
  · exact onward
  · have := onward.cursor
    refine ⟨?_, onward.forward⟩
    show 0 ≤ w.engine.cursor + needle.length
    omega

theorem reject (onward : Onward w) (needle : Text) (position : Nat) :
    Onward ((Engine.reject needle position).outcome w).2 := by
  have kept := originsKept_reject needle position w
  refine ⟨?_, kept.forward onward.forward⟩
  rcases place_reject needle position w with ⟨-, same⟩ | ⟨-, moved⟩
  · have cursor : _ = w.engine.cursor := congrArg Place.cursor same
    exact onward.cursor.trans (le_of_eq cursor.symm)
  · have := onward.cursor
    have cursor : _ = w.engine.cursor + 1 := congrArg Place.cursor moved
    exact le_trans (by omega) (le_of_eq cursor.symm)

theorem appendRest (onward : Onward w) : Onward (Engine.appendRest.outcome w).2 := by
  have kept := originsKept_appendRest w
  refine ⟨?_, kept.forward onward.forward⟩
  rcases appendRest_cases w with ⟨same, -⟩ | ⟨f, failed⟩ | ⟨-, -, moved⟩
  · rw [same]
    exact onward.cursor
  · rw [failed]
    exact onward.cursor
  · rw [moved]
    exact Int.natCast_nonneg _

end Onward

/-- A parse begins at the beginning of its text, and its root did not begin anywhere. -/
theorem Begins.onward {f : Forest} (begins : Begins w w' f) (forward : w.forest.Forward) :
    Onward w' where
  cursor := by rw [begins.cursor]
  forward := by
    rw [begins.forest]
    exact (begins.origins.trans (.add _)).forward forward

end Engine

end Needlework
