import Needlework.Proofs.Engine.Preservation
import Needlework.Proofs.Engine.Steps

/-!
# Quiet hooks

Most hooks of a grammar publish needles and do nothing else.  They may look around, keep
their memory and create nodes for later, but the open nodes and the tree are left alone
(`Moment.Quiet`).  For the scan, the world after such a hook is the world before it, with
some more nodes in the table (`Extends`).
-/

namespace Needlework

namespace Engine

open Act

variable {σ : Type} {w w' : World σ}

/-! ## Quiet steps -/

/-- The operations of a hook that leaves the open nodes alone: it may create nodes,
publish needles and look around. -/
def QuietOp : Op σ → Prop
  | .push _ => False
  | .pop => False
  | .appendText _ _ => False
  | .closeOpen => False
  | .edit (.create _) => True
  | .edit _ => False
  | .tamper _ => False
  | .assign (.strict _) => True
  | .assign (.output _) => True
  | .assign (.status _) => True
  | .assign (.needles _) => True
  | .assign _ => False
  | .setStatus _ => False
  | .recover => False
  | _ => True

/-- A step of a hook that leaves the open nodes alone. -/
def Moment.Quiet (m : Moment σ) : Prop :=
  match m.step with
  | .op o => QuietOp o
  | .enter (.handleStatus _ _) => False
  | .enter _ => True
  | _ => False

instance : DecidablePred (QuietOp : Op σ → Prop)
  | .push _ | .pop | .appendText _ _ | .closeOpen | .tamper _ | .setStatus _ | .recover =>
      inferInstanceAs (Decidable False)
  | .edit (.create _) | .assign (.strict _) | .assign (.output _) | .assign (.status _)
  | .assign (.needles _) => inferInstanceAs (Decidable True)
  | .edit (.append _ _) | .edit (.prepend _ _) | .edit (.insertBefore _ _ _)
  | .edit (.insertAfter _ _ _) | .edit (.remove _ _ _) | .edit (.destroy _)
  | .edit (.appendToLastText _ _ _) | .edit (.appendText _ _) | .edit (.setContent _ _)
  | .edit (.setFlag _ _ _) => inferInstanceAs (Decidable False)
  | .assign (.cursor _) | .assign (.text _) | .assign (.root _) | .assign (.stack _)
  | .assign .newRoot | .assign .dropTop => inferInstanceAs (Decidable False)
  | .look | .strictness | .memory | .remember _ | .postfilter _ | .parse _ _ =>
      inferInstanceAs (Decidable True)

instance : DecidablePred (Moment.Quiet : Moment σ → Prop)
  | ⟨.op o, _⟩ => inferInstanceAs (Decidable (QuietOp o))
  | ⟨.enter (.handleStatus _ _), _⟩ => inferInstanceAs (Decidable False)
  | ⟨.enter .init, _⟩ | ⟨.enter (.setStatus _), _⟩ | ⟨.enter .closeRemainingBlocks, _⟩
  | ⟨.enter .modifyTree, _⟩ | ⟨.enter .outputTree, _⟩ => inferInstanceAs (Decidable True)
  | ⟨.withdraw, _⟩ | ⟨.resume _ _, _⟩ | ⟨.beginRound, _⟩ | ⟨.approach _, _⟩ | ⟨.accept _, _⟩
  | ⟨.reject _ _, _⟩ | ⟨.appendRest, _⟩ | ⟨.load _, _⟩ | ⟨.reportOpen, _⟩ | ⟨.handOut, _⟩ =>
      inferInstanceAs (Decidable False)

/-! ## Extensions -/

/-- Nodes may have come, and nothing else has changed for the scan. -/
structure Extends (w w' : World σ) : Prop where
  size : w.forest.size ≤ w'.forest.size
  node : ∀ k, k < w.forest.size → w'.forest.node k = w.forest.node k
  wellFormed : w.forest.WellFormed → w'.forest.WellFormed
  text : w'.engine.text = w.engine.text
  cursor : w'.engine.cursor = w.engine.cursor
  stack : w'.engine.stack = w.engine.stack
  root : w'.engine.root = w.engine.root
  detached : w'.engine.detached = w.engine.detached
  rewound : w'.engine.rewound = w.engine.rewound

namespace Extends

theorem refl (w : World σ) : Extends w w :=
  ⟨Nat.le_refl _, fun _ _ => rfl, id, rfl, rfl, rfl, rfl, rfl, rfl⟩

theorem trans (w₁ w₂ w₃ : World σ) (h₁ : Extends w₁ w₂) (h₂ : Extends w₂ w₃) : Extends w₁ w₃ :=
  ⟨Nat.le_trans h₁.size h₂.size,
    fun k hk => (h₂.node k (Nat.lt_of_lt_of_le hk h₁.size)).trans (h₁.node k hk),
    fun wf => h₂.wellFormed (h₁.wellFormed wf), h₂.text.trans h₁.text, h₂.cursor.trans h₁.cursor,
    h₂.stack.trans h₁.stack, h₂.root.trans h₁.root, h₂.detached.trans h₁.detached,
    h₂.rewound.trans h₁.rewound⟩

theorem of_unmoved (h : Unmoved w w') : Extends w w' :=
  ⟨by rw [h.forest], fun _ _ => by rw [h.forest], fun wf => by rw [h.forest]; exact wf, h.text,
    h.cursor, h.stack, h.root, h.detached, h.rewound⟩

theorem of_create (w : World σ) (bp : Blueprint) :
    Extends w ((tree (Forest.create bp)).outcome w).2 := by
  rw [outcome_tree]
  rcases Forest.create_cases bp w.forest with ⟨e, he⟩ | hr
  · rw [he]
    exact .refl w
  · rw [hr]
    refine ⟨?_, fun k hk => ?_, fun wf => wf.add bp, rfl, rfl, rfl, rfl, rfl, rfl⟩
    · exact Nat.le_trans (Nat.le_succ _) (Nat.le_of_eq (Forest.size_add ..).symm)
    · exact (Forest.node_add ..).trans (if_neg (Nat.ne_of_lt hk))

end Extends

theorem extends_quiet (o : Op σ) (w : World σ) (quiet : QuietOp o) :
    Extends w ((Step.act (.op o)).outcome w).2 := by
  cases o with
  | look => exact .refl w
  | strictness => exact .refl w
  | memory => exact .refl w
  | remember s => exact .of_unmoved ⟨rfl, rfl, rfl⟩
  | edit e =>
      cases e with
      | create bp => exact .of_create w bp
      | _ => exact quiet.elim
  | assign a =>
      cases a with
      | strict v => exact ⟨Nat.le_refl _, fun _ _ => rfl, id, rfl, rfl, rfl, rfl, rfl, rfl⟩
      | output v => exact ⟨Nat.le_refl _, fun _ _ => rfl, id, rfl, rfl, rfl, rfl, rfl, rfl⟩
      | status n => exact ⟨Nat.le_refl _, fun _ _ => rfl, id, rfl, rfl, rfl, rfl, rfl, rfl⟩
      | needles ws => exact ⟨Nat.le_refl _, fun _ _ => rfl, id, rfl, rfl, rfl, rfl, rfl, rfl⟩
      | _ => exact quiet.elim
  | postfilter t => exact .of_unmoved (unmoved_applyFilters .post t w)
  | parse input override => exact .of_unmoved (unmoved_refuseParse w)
  | _ => exact quiet.elim

theorem extendsLaws : HookLaws (Moment.Quiet : Moment σ → Prop) Extends where
  refl := .refl
  trans := .trans
  plain o w _ quiet := extends_quiet o w quiet
  recovery switch _ w quiet := by
    -- A quiet hook does not recover.
    have first : (⟨.withdraw, w⟩ : Moment σ) ∈ (recoverCourse switch).moments w := by
      rw [recoverCourse, Course.moments_andThen, Course.moments_take]
      exact List.mem_append_left _ (List.mem_singleton_self _)
    exact (quiet _ first).elim

/-- Nodes may have come, and the tree with its text is the same. -/
structure Grows (w w' : World σ) : Prop where
  size : w.forest.size ≤ w'.forest.size
  node : ∀ k, k < w.forest.size → w'.forest.node k = w.forest.node k
  wellFormed : w.forest.WellFormed → w'.forest.WellFormed
  text : w'.engine.text = w.engine.text
  root : w'.engine.root = w.engine.root
  detached : w'.engine.detached = w.engine.detached

namespace Grows

theorem refl (w : World σ) : Grows w w := ⟨Nat.le_refl _, fun _ _ => rfl, id, rfl, rfl, rfl⟩

theorem trans (w₁ w₂ w₃ : World σ) (h₁ : Grows w₁ w₂) (h₂ : Grows w₂ w₃) : Grows w₁ w₃ :=
  ⟨Nat.le_trans h₁.size h₂.size,
    fun k hk => (h₂.node k (Nat.lt_of_lt_of_le hk h₁.size)).trans (h₁.node k hk),
    fun wf => h₂.wellFormed (h₁.wellFormed wf), h₂.text.trans h₁.text, h₂.root.trans h₁.root,
    h₂.detached.trans h₁.detached⟩

theorem of_extends (h : Extends w w') : Grows w w' :=
  ⟨h.size, h.node, h.wellFormed, h.text, h.root, h.detached⟩

end Grows

end Engine

end Needlework
