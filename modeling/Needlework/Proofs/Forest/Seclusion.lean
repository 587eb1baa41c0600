import Needlework.Proofs.Forest.Twins

/-!
# Secluded nodes

A forest grows at the end of its table.  Its nodes from a mark on are *secluded* from those
before it when they refer to each other only, and when nothing has happened to the nodes before
the mark (`Secluded`).

An edit that names secluded nodes comes across secluded nodes only, and changes no others.  This
is a case of two forests side by side, both of them the same (`twins_secluded`).

A tree whose root stands before the mark is the same tree afterwards, with the same nodes
(`Secluded.sameTree`).
-/

namespace Needlework

open Relation

namespace Forest

variable {f f' g : Forest} {base h r x : Handle} {α : Type}

/-- The nodes of a forest before a mark are those of an earlier forest, and the nodes from the mark
on refer to each other only. -/
structure Secluded (base : Handle) (f f' : Forest) : Prop where
  base_le : base ≤ f'.size
  node : ∀ h, h < base → f'.node h = f.node h
  within : ∀ h, base ≤ h → (f'.node h).Within (base ≤ ·) fun _ => True

namespace Secluded

/-- No node is beyond the end of the table. -/
theorem refl (f : Forest) : Secluded f.size f f where
  base_le := Nat.le_refl _
  node _ _ := rfl
  within h hh := by
    rw [node_of_size_le hh]
    exact ⟨nofun, nofun, nofun⟩

/-- What is secluded from a forest with secluded nodes is secluded from what these are secluded
from. -/
theorem trans (first : Secluded base f f') (second : Secluded f'.size f' g) :
    Secluded base f g where
  base_le := Nat.le_trans first.base_le second.base_le
  node h hh := (second.node h (Nat.lt_of_lt_of_le hh first.base_le)).trans (first.node h hh)
  within h hh := by
    by_cases known : h < f'.size
    · rw [second.node h known]
      exact first.within h hh
    · have later := second.within h (Nat.le_of_not_lt known)
      exact ⟨fun p hp => Nat.le_trans first.base_le (later.parent p hp),
        fun c hc => Nat.le_trans first.base_le (later.children c hc), later.teardown⟩

theorem add (secluded : Secluded base f f') (bp : Blueprint) : Secluded base f (f'.add bp).2 := by
  refine ⟨?_, fun h hh => ?_, fun h hh => ?_⟩
  · rw [size_add]
    exact Nat.le_succ_of_le secluded.base_le
  · rw [node_add, if_neg (Nat.ne_of_lt (Nat.lt_of_lt_of_le hh secluded.base_le))]
    exact secluded.node h hh
  · rw [node_add]
    split
    · exact ⟨nofun, nofun, fun _ _ => trivial⟩
    · exact secluded.within h hh

theorem update (secluded : Secluded base f f') (hh : base ≤ h) {change : Node → Node}
    (hc : ∀ m, m.Within (base ≤ ·) (fun _ => True) → (change m).Within (base ≤ ·) fun _ => True) :
    Secluded base f (f'.update h change) := by
  refine ⟨?_, fun k hk => ?_, fun k hk => ?_⟩
  · rw [size_update]
    exact secluded.base_le
  · rw [node_update_of_ne f' (Nat.ne_of_lt (Nat.lt_of_lt_of_le hk hh))]
    exact secluded.node k hk
  · rw [node_update]
    split
    · exact hc _ (secluded.within k hk)
    · exact secluded.within k hk

/-- What is over a node from the mark on stands there too. -/
theorem base_le_of_over (secluded : Secluded base f f') (hx : base ≤ x) (above : f'.Over r x) :
    base ≤ r := by
  induction above with
  | refl => exact hx
  | tail _ hp ih => exact (secluded.within _ ih).parent _ hp

/-- What is below a node before the mark was below it before, and still is. -/
theorem over_iff (secluded : Secluded f.size f f') (hr : r < f.size) :
    f'.Over r x ↔ f.Over r x := by
  have same : ∀ {k}, k < f.size → f'.parent k = f.parent k := fun known => by
    rw [Forest.parent, secluded.node _ known, Forest.parent]
  constructor
  · intro above
    induction above using ReflTransGen.head_induction_on with
    | refl => exact .refl f r
    | @head x p hp above below =>
        have known : x < f.size := by
          by_contra late
          have high := secluded.base_le_of_over (Nat.le_of_not_lt late) (.head hp above)
          exact absurd hr (Nat.not_lt.2 high)
        rw [same known] at hp
        exact below.trans (.of_parent hp)
  · exact ReflTransGen.mono (fun k p hp => (same (lt_size_of_parent hp)).trans hp) _ _

end Secluded

/-- The nodes below a node are the same in two forests, and so is everything about them. -/
structure SameTree (f f' : Forest) (r : Handle) : Prop where
  over_iff : ∀ x, f'.Over r x ↔ f.Over r x
  node : ∀ x, f.Over r x → f'.node x = f.node x

theorem Secluded.sameTree (secluded : Secluded f.size f f') (hr : r < f.size) :
    f.SameTree f' r where
  over_iff x := secluded.over_iff hr
  node x below := by
    refine secluded.node x (Nat.lt_of_not_le fun late => ?_)
    have high := secluded.base_le_of_over late ((secluded.over_iff hr).2 below)
    exact absurd hr (Nat.not_lt.2 high)

/-- A forest with secluded nodes stays one under all edits that name secluded nodes. -/
theorem twins_secluded (base : Handle) (f : Forest) :
    Twins (fun f₁ f₂ => f₂ = f₁ ∧ Secluded base f f₁) (base ≤ ·) fun _ => True where
  own _ _ := trivial
  size h := by rw [h.1]
  node h _ := by rw [h.1]
  within h hh := h.2.within _ hh
  fresh h := h.2.base_le
  add b _ h := ⟨by rw [h.1], h.2.add b⟩
  update h hh hc := ⟨by rw [h.1], h.2.update hh hc⟩
  tear _ h := ⟨by rw [h.1], h.2.base_le, h.2.node, h.2.within⟩

/-- A forest never gets smaller, whatever the edits name. -/
theorem twins_size_le (n : Nat) :
    Twins (fun f f' => f' = f ∧ n ≤ f.size) (fun _ => True) fun _ => True where
  own _ _ := trivial
  size h := by rw [h.1]
  node h _ := by rw [h.1]
  within _ _ := ⟨fun _ _ => trivial, fun _ _ => trivial, fun _ _ => trivial⟩
  fresh _ := trivial
  add b _ h := ⟨by rw [h.1], by
    rw [size_add]
    exact Nat.le_succ_of_le h.2⟩
  update h _ _ := ⟨by rw [h.1], by
    rw [size_update]
    exact h.2⟩
  tear _ h := ⟨by rw [h.1], h.2⟩

end Forest

end Needlework
