import Needlework.Proofs.Engine.Changes
import Needlework.Proofs.Engine.Quiet
import Needlework.Proofs.Engine.Spelling
import Needlework.Proofs.Text.Cuts

/-!
# Ledgers

A scan puts its text into the tree piece by piece.  A *ledger* is a condition on the marks and the
world that goes with the offset up to which the text is in the tree.  Its laws say that the condition
holds at the next offset when text is written, or when a node is opened, closed or taken out
(`Ledger`).

The scan moves by the same few steps whatever is kept in the ledger.  The ledger says how it goes
on when the scan comes to a needle, rejects one, keeps the first code point of a construct that it
has taken out, or appends what is left of the text.
-/

namespace Needlework

namespace Engine

open Act

variable {σ : Type} {w w' : World σ} {k : Marks} {c : Nat}

/-- The scan is at the same place. -/
structure SamePlace (w w' : World σ) : Prop where
  cursor : w'.engine.cursor = w.engine.cursor
  rewound : w'.engine.rewound = w.engine.rewound

theorem samePlace_push {n : Arg} {h : Handle} (returned : (push n).outcome w = (.ok h, w')) :
    SamePlace w w' := by
  rcases push_cases n w with ⟨e, f, hout, -⟩ | ⟨top, rest, h', f, -, -, -, hout⟩
  · rw [returned] at hout
    cases hout
  · rw [returned] at hout
    cases hout
    exact ⟨rfl, rfl⟩

theorem samePlace_pop {h : Handle} (returned : pop.outcome w = (.ok h, w')) : SamePlace w w' := by
  rcases pop_cases w with ⟨e, hout⟩ | ⟨top, next, rest, -, hout⟩
  · rw [returned] at hout
    cases hout
  · rw [returned] at hout
    cases hout
    exact ⟨rfl, rfl⟩

/-- A condition at every offset that a scan comes to, with the laws by which it goes on. -/
structure Ledger (σ : Type) where
  /-- Whether the condition depends on the offsets that text is appended under. -/
  exact : Prop
  /-- The condition when the text up to the offset is in the tree. -/
  Holds : Marks → Nat → World σ → Prop
  extend : ∀ {k c} {w w' : World σ}, Holds k c w → Extends w w' → Holds k c w'
  congr : ∀ {k c} {w w' : World σ}, Holds k c w → w'.forest = w.forest →
    w'.engine.text = w.engine.text → w'.engine.stack = w.engine.stack →
    w'.engine.root = w.engine.root → w'.engine.detached = w.engine.detached → Holds k c w'
  withNeedle : ∀ {k c} {w : World σ}, Holds k c w → ∀ needle, Holds { k with needle } c w
  wrote : ∀ {k c} {w w' : World σ}, Holds k c w → ∀ u offset,
    (exact → offset.getD w.engine.cursor = (c : Int)) → u <+: w.engine.text.drop c →
    w'.forest = textForest w u offset → w'.engine.text = w.engine.text →
    w'.engine.stack = w.engine.stack → w'.engine.root = w.engine.root →
    w'.engine.detached = w.engine.detached → Holds k (c + u.length) w'
  pushed : ∀ {k c} {w w' : World σ}, Holds k c w → ∀ {h x}, Fresh w h →
    (w.forest.node h).origin = some (c : Int) → (w.forest.node h).content? = none →
    k.needle ≠ [] → k.needle <+: w.engine.text.drop c →
    (push (.node h)).outcome w = (.ok x, w') → Holds (k.opened h) (c + k.needle.length) w'
  popped : ∀ {k c} {w w' : World σ}, Holds k c w → ∀ {x}, k.needle <+: w.engine.text.drop c →
    pop.outcome w = (.ok x, w') →
    ∃ top rest, w.engine.stack = top :: rest ∧ Holds (k.closed top) (c + k.needle.length) w'
  withdrawn : ∀ {k c} {w w' : World σ}, Holds k c w → ∀ {h o},
    withdraw.outcome w = (.ok (h, o), w') → ∃ n : Nat, o = n ∧ Holds k n w'

namespace Ledger

variable {L : Ledger σ}

/-- A recovery keeps the code point at the beginning of the construct. -/
theorem resumed (holds : L.Holds k c w) {h : Handle} {u : Unit}
    (returned : (resume h c).outcome w = (.ok u, w')) :
    L.Holds k (c + 1) w' ∧ w'.engine.cursor = (c + 1 : Nat) ∧ w'.engine.rewound = true := by
  rcases resume_cases h c w with ⟨e, f, hout, -⟩ | ⟨p, inner, rest, f, hp, hs, hrun, hu⟩
  · rw [returned] at hout
    cases hout
  rw [returned] at hu
  refine ⟨L.wrote holds [p] (some c) (fun _ => rfl) (Text.singleton_prefix_of_at? hp)
    (hu.forest.trans ?_) hu.text hu.stack hu.root hu.detached, hu.cursor, hu.rewound⟩
  rw [textForest, hs]
  exact (Forest.after_of_ok hrun).symm

/-- The scan comes to a needle. -/
theorem approached (holds : L.Holds k c w) (hc : w.engine.cursor = c) {q : Nat} (hq : c ≤ q)
    (inside : q ≤ w.engine.text.length) {s : Int} (returned : (approach q).outcome w = (.ok s, w')) :
    L.Holds k q w' ∧ w'.engine.cursor = q ∧ w'.engine.rewound = w.engine.rewound
      ∧ w'.engine.text = w.engine.text := by
  rcases approach_cases q w with ⟨e, hout⟩ | ⟨-, hout⟩
  · rw [returned] at hout
    cases hout
  rw [returned] at hout
  cases hout
  refine ⟨?_, rfl, rfl, rfl⟩
  have within : w.engine.text.between w.engine.cursor q <+: w.engine.text.drop c := by
    rw [hc]
    exact Text.between_prefix c q
  have reached : c + (w.engine.text.between w.engine.cursor q).length = q := by
    rw [hc, Text.length_between inside]
    exact Nat.add_sub_cancel' hq
  refine reached.subst (motive := fun n => L.Holds k n _) ?_
  exact L.wrote holds _ none (fun _ => hc) within rfl rfl rfl rfl rfl

/-- The scan keeps the first code point of a rejected needle. -/
theorem rejected (holds : L.Holds k c w) (hc : w.engine.cursor = c) {needle : Text} {q : Nat}
    {u : Unit} (returned : (reject needle q).outcome w = (.ok u, w')) :
    L.Holds k (c + 1) w' ∧ w'.engine.cursor = (c + 1 : Nat) := by
  rcases reject_cases needle q w with ⟨e, v, hout, -⟩ | ⟨p, inner, rest, f, v, hp, hs, hrun, hout, hu⟩
  · rw [returned] at hout
    cases hout
  rw [returned] at hout
  cases hout
  rw [hc] at hp hrun
  refine ⟨L.wrote holds [p] none (fun _ => hc) (Text.singleton_prefix_of_at? hp)
    (hu.forest.trans ?_) hu.text hu.stack hu.root hu.detached, hu.cursor.trans ?_⟩
  · rw [textForest, hs]
    show f = w.forest.after (Forest.appendToLastText inner [p] (some w.engine.cursor))
    rw [hc]
    exact (Forest.after_of_ok hrun).symm
  · exact congrArg (· + 1) hc

/-- What is left of the text is appended. -/
theorem appendedRest (holds : L.Holds k c w) (hc : w.engine.cursor = c)
    {u : Unit} (returned : appendRest.outcome w = (.ok u, w')) :
    ∃ n, w'.engine.text.length ≤ n ∧ L.Holds k n w' := by
  rcases appendRest_cases w with ⟨hout, hlen⟩ | ⟨e, hout⟩ | ⟨inside, -, hout⟩
  · rw [returned] at hout
    cases hout
    rw [hc] at hlen
    exact ⟨c, Int.ofNat_le.mp hlen, holds⟩
  · rw [returned] at hout
    cases hout
  · rw [returned] at hout
    cases hout
    rw [hc, Int.ofNat_lt] at inside
    refine ⟨c + (w.engine.text.dropFrom w.engine.cursor).length, ?_, ?_⟩
    · show w.engine.text.length ≤ c + (w.engine.text.dropFrom w.engine.cursor).length
      rw [hc, Text.dropFrom_natCast, List.length_drop]
      omega
    · refine L.wrote holds _ none (fun _ => hc) ?_ rfl rfl rfl rfl rfl
      rw [hc, Text.dropFrom_natCast]

end Ledger

end Engine

end Needlework
