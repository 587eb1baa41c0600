import Needlework.Proofs.Engine.Steps

/-!
# Steps and origins

No step of the engine changes where a node began, whether the step succeeds or fails.  It puts
nodes into the table, takes them out of the tree or appends text, and all of this keeps origins.
-/

namespace Needlework

namespace Engine

open Act

variable {σ : Type}

theorem originsKept_textForest (w : World σ) (t : Text) (offset : Option Int) :
    w.forest.OriginsKept (textForest w t offset) := by
  rw [textForest]
  cases w.engine.stack with
  | nil => exact .refl _
  | cons top rest => exact Forest.steady_appendToLastText ..

theorem originsKept_push (n : Arg) (w : World σ) :
    w.forest.OriginsKept ((push n).outcome w).2.forest := by
  rcases push_cases n w with ⟨e, f, hout, rfl | ⟨top, rest, h, -, -, hr⟩⟩ | ⟨top, rest, h, f, -, -, hr, hout⟩
  · rw [hout]
    exact .refl _
  · rw [hout, World.forest_withForest, ← Forest.after_of_error hr]
    exact Forest.steady_append top h _
  · rw [hout, World.forest_onEngine, World.forest_withForest, ← Forest.after_of_ok hr]
    exact Forest.steady_append top h _

theorem originsKept_withdraw (w : World σ) : w.forest.OriginsKept (withdraw.outcome w).2.forest := by
  rcases withdraw_cases w with ⟨e, hout⟩ | ⟨top, next, rest, p, -, -, ⟨e, f, hr, hout⟩ | ⟨c, f, hr, hout, -⟩⟩
  · rw [hout]
    exact .refl _
  · rw [hout, World.forest_withForest, ← Forest.after_of_error hr]
    exact Forest.steady_removeNode p top _
  · rw [hout, World.forest_onEngine, World.forest_withForest, ← Forest.after_of_ok hr]
    exact Forest.steady_removeNode p top _

theorem originsKept_resume (top : Handle) (origin : Int) (w : World σ) :
    w.forest.OriginsKept ((resume top origin).outcome w).2.forest := by
  rcases resume_cases top origin w
    with ⟨e, f, hout, rfl | ⟨c, rfl⟩⟩ | ⟨c, inner, rest, f, -, -, hr, unmoved⟩
  · rw [hout]
    exact .refl _
  · rw [hout]
    exact originsKept_textForest w [c] (some origin)
  · rw [unmoved.forest, World.forest_onEngine, World.forest_withForest, ← Forest.after_of_ok hr]
    exact Forest.steady_appendToLastText inner [c] (some origin) _

theorem originsKept_approach (position : Nat) (w : World σ) :
    w.forest.OriginsKept ((approach position).outcome w).2.forest := by
  rcases approach_cases position w with ⟨e, hout⟩ | ⟨-, hout⟩
  · rw [hout]
    exact originsKept_textForest ..
  · rw [hout]
    exact originsKept_textForest ..

theorem originsKept_reject (needle : Text) (position : Nat) (w : World σ) :
    w.forest.OriginsKept ((reject needle position).outcome w).2.forest := by
  rcases reject_cases needle position w
    with ⟨e, v, hout, f, unmoved, rfl | ⟨c, rfl⟩⟩ | ⟨c, inner, rest, f, v, -, -, hr, hout, unmoved⟩
  · rw [hout, unmoved.forest]
    exact .refl _
  · rw [hout, unmoved.forest]
    exact originsKept_textForest w [c] none
  · rw [hout, unmoved.forest, World.forest_onEngine, World.forest_withForest, ← Forest.after_of_ok hr]
    exact Forest.steady_appendToLastText inner [c] (some w.engine.cursor) _

theorem originsKept_appendRest (w : World σ) :
    w.forest.OriginsKept (appendRest.outcome w).2.forest := by
  rcases appendRest_cases w with ⟨hout, -⟩ | ⟨e, hout⟩ | ⟨-, -, hout⟩
  · rw [hout]
    exact .refl _
  · rw [hout]
    exact originsKept_textForest ..
  · rw [hout]
    exact originsKept_textForest ..

end Engine

end Needlework
