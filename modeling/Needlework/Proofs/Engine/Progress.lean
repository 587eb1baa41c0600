import Needlework.Proofs.Engine.Comparison
import Needlework.Proofs.Engine.Conduct
import Needlework.Proofs.Engine.Needles
import Needlework.Proofs.Engine.SourcePreservation

/-!
# Progress

However a grammar mixes needles, recoveries and rejections, the scan stays inside the text, and
the counter of needles is bounded by the recoveries and the length of the text.  All that a
grammar has to do for this is to leave cursor, text and origins to the engine.

*The measure.*  Between two recoveries the cursor only moves forward, and every needle moves it
by one code point or more.  A recovery puts the cursor anywhere inside the text, which is paid for
by the length of the text.  So the needles are at most as many as the text is long for each
recovery that pays, and as many as the cursor has passed since the last one (`Place.Paid`).  While
the grammar deals with a needle, the needle is counted and not yet passed, unless a recovery has
put the cursor behind it.

*The limit.*  A recovery looks at the limit before it switches the status, and is counted
afterwards.  A grammar may recover between the two, so that there are more recoveries than the
limit allows.  But no needle is found in between, so it is enough that the first of them to be
counted pays, which has been below the limit when it began.  So no more recoveries pay than the
limit allows, every round adds to one of two bounded counters, and the scan ends.  The recoveries
themselves are no more than the limit allows if no grammar recovers between the two
(`Grammar.Calm`).
-/

namespace Needlework

/-- What compares with an integer compares with a larger one. -/
theorem Value.leInt?_mono {v : Value} {i j : Int} (h : v.leInt? i = some true) (hij : i ≤ j) :
    v.leInt? j = some true := by
  cases v with
  | bool b =>
      simp only [Value.leInt?, Option.some.injEq, decide_eq_true_eq] at h ⊢
      exact Int.le_trans h hij
  | int m =>
      simp only [Value.leInt?, Option.some.injEq, decide_eq_true_eq] at h ⊢
      exact Int.le_trans h hij
  | double x =>
      simp only [Value.leInt?, Option.some.injEq] at h ⊢
      cases x with
      | finite s m e =>
          simp only [Double.leInt, decide_eq_true_eq] at h ⊢
          exact Int.le_trans h (Int.mul_le_mul_of_nonneg_right hij (Int.natCast_nonneg _))
      | _ => exact h
  | _ => cases h

/-- Switching to status zero asks for no recovery, and no switch that comes of it does. -/
def Grammar.Calm {σ : Type} (g : Grammar σ) : Prop :=
  ∃ reached : Int → Prop, reached 0 ∧ ∀ n, reached n →
    (g.setStatus n).Uses fun o => o ≠ .recover ∧ ∀ m, o = .setStatus m → reached m

namespace Engine

open Act

/-! ## The measure -/

namespace Place

/-- The place behind an origin, with one more recovery. -/
def resumed (p : Place) (origin : Int) : Place :=
  { p with cursor := origin + 1, rewound := true, recoveries := p.recoveries + 1 }

/-- The recoveries so far are below a limit. -/
def Below (limit : Value) (p : Place) : Prop :=
  ∀ k : Nat, limit.leInt? k = some true → p.recoveries < k

/-- How much of a needle in hand is ahead of the cursor.  After a recovery this is nothing. -/
def ahead (p : Place) (due : Nat) : Nat := if p.rewound then 0 else due

theorem ahead_zero (p : Place) : p.ahead 0 = 0 := ite_self _

theorem ahead_of_not_rewound {p : Place} (h : p.rewound = false) (due : Nat) : p.ahead due = due := by
  rw [ahead, h]
  rfl

theorem ahead_of_rewound {p : Place} (h : p.rewound = true) (due : Nat) : p.ahead due = 0 := by
  rw [ahead, h]
  rfl

/-- How much the cursor has passed that may have cost a needle.  After a recovery this is
nothing. -/
def passed (p : Place) : Int := if p.rewound then 0 else p.cursor

theorem passed_of_not_rewound {p : Place} (h : p.rewound = false) : p.passed = p.cursor := by
  rw [passed, h]
  rfl

theorem passed_of_rewound {p : Place} (h : p.rewound = true) : p.passed = 0 := by
  rw [passed, h]
  rfl

theorem passed_le {p : Place} (nonneg : 0 ≤ p.cursor) : p.passed ≤ p.cursor := by
  rw [passed]
  split
  · exact nonneg
  · exact Int.le_refl _

/-- The needles and the rounds so far are paid for by `turns` of the recoveries, and by what the
cursor has passed. -/
structure Paid (t : Text) (limit : Value) (due rounds : Nat) (p : Place) (turns : Int) : Prop where
  recovered : turns ≤ p.recoveries
  limited : ∀ k : Nat, limit.leInt? k = some true → turns ≤ k
  needles : p.needles ≤ turns * t.length + p.passed + min (p.ahead due : Int) 1
  rounds : rounds ≤ p.needles + turns

/-- The place of a scan after a number of rounds, with a needle of some length in hand or none.
The cursor is inside the text, and what there was is paid for. -/
structure Metered (calm : Prop) (t : Text) (limit : Value) (due rounds : Nat) (p : Place) : Prop where
  text : p.text = t
  limited : p.limit = limit
  cursor : 0 ≤ p.cursor
  inside : p.cursor + p.ahead due ≤ t.length
  paid : ∃ turns, p.Paid t limit due rounds turns
  recoveries : calm → ∀ k : Nat, limit.leInt? k = some true → p.recoveries ≤ k

namespace Metered

variable {calm : Prop} {t : Text} {limit : Value} {due rounds : Nat} {p : Place} {turns origin : Int}

theorem down (m : Metered calm t limit due (rounds + 1) p) : Metered calm t limit due rounds p where
  text := m.text
  limited := m.limited
  cursor := m.cursor
  inside := m.inside
  paid := by
    obtain ⟨turns, recovered, limited, needles, rounds⟩ := m.paid
    exact ⟨turns, recovered, limited, needles, by omega⟩
  recoveries := m.recoveries

theorem cursor_le (m : Metered calm t limit due rounds p) : p.cursor ≤ t.length := by
  have := m.inside
  omega

/-- Each turn, and the way to the end of the text, pay for as many needles as the text is long. -/
theorem needles_le_of_paid (m : Metered calm t limit due rounds p)
    (paid : p.Paid t limit due rounds turns) : p.needles ≤ (turns + 1) * t.length := by
  have inside := m.inside
  have needles := paid.needles
  have passed := passed_le m.cursor
  rw [Int.add_mul, Int.one_mul]
  omega

theorem needles_le_of_turns {j : Int} (m : Metered calm t limit due rounds p)
    (paid : p.Paid t limit due rounds turns) (le : turns ≤ j) : p.needles ≤ (j + 1) * t.length :=
  (m.needles_le_of_paid paid).trans
    (Int.mul_le_mul_of_nonneg_right (Int.add_le_add_right le 1) (Int.natCast_nonneg _))

/-- The needles are bounded by the recoveries. -/
theorem needles_le (m : Metered calm t limit due rounds p) :
    p.needles ≤ (p.recoveries + 1) * t.length := by
  obtain ⟨turns, paid⟩ := m.paid
  exact m.needles_le_of_turns paid paid.recovered

/-- With nothing ahead of the cursor, all needles have to be paid for. -/
theorem of_passed (ahead : p.ahead due = 0) (text : p.text = t) (limited : p.limit = limit)
    (cursor : 0 ≤ p.cursor) (inside : p.cursor ≤ t.length) (recovered : turns ≤ p.recoveries)
    (below : ∀ k : Nat, limit.leInt? k = some true → turns ≤ k)
    (needles : p.needles ≤ turns * t.length + p.passed) (rounds_le : rounds ≤ p.needles + turns)
    (recoveries : calm → ∀ k : Nat, limit.leInt? k = some true → p.recoveries ≤ k) :
    Metered calm t limit due rounds p := by
  refine ⟨text, limited, cursor, ?_, ⟨turns, recovered, below, ?_, rounds_le⟩, recoveries⟩
  · rw [ahead]
    omega
  · rw [ahead]
    omega

theorem begun (m : Metered calm t limit 0 rounds p) :
    Metered calm t limit 0 rounds { p with rewound := false } := by
  obtain ⟨turns, recovered, below, needles, rounds⟩ := m.paid
  have passed := passed_le m.cursor
  rw [ahead_zero] at needles
  refine .of_passed (ahead_zero _) m.text m.limited m.cursor m.cursor_le recovered below ?_ rounds
    m.recoveries
  rw [passed_of_not_rewound rfl]
  dsimp only
  omega

/-- The text before a needle pays for the needles before, and the needle is in hand. -/
theorem approached (m : Metered calm t limit 0 rounds p) (still : p.rewound = false)
    {needles : List Text} {needle : Text} {position : Nat}
    (found : Text.findNeedle? needles t p.cursor = some (needle, position)) :
    Metered calm t limit needle.length (rounds + 1)
      { p with cursor := position, needles := p.needles + 1 } := by
  obtain ⟨nonempty, le, fits⟩ := Text.findNeedle?_spec m.cursor found
  have long : 0 < needle.length := List.length_pos_iff.mpr nonempty
  have length := fits.length_le
  rw [List.length_drop] at length
  obtain ⟨turns, recovered, below, before, rounds⟩ := m.paid
  rw [ahead_zero, passed_of_not_rewound still] at before
  have inHand : ({ p with cursor := position, needles := p.needles + 1 } : Place).ahead needle.length
      = needle.length := ahead_of_not_rewound still _
  have passed : ({ p with cursor := position, needles := p.needles + 1 } : Place).passed = position :=
    passed_of_not_rewound still
  refine ⟨m.text, m.limited, Int.natCast_nonneg _, ?_, ⟨turns, recovered, below, ?_, ?_⟩,
    m.recoveries⟩
  · rw [inHand]
    dsimp only
    omega
  · rw [inHand, passed]
    dsimp only
    omega
  · dsimp only
    omega

/-- A needle that is passed pays for itself. -/
theorem accepted (m : Metered calm t limit due rounds p) (long : 0 < due)
    (still : p.rewound = false) :
    Metered calm t limit 0 rounds { p with cursor := p.cursor + due } := by
  have cursor := m.cursor
  have inside := m.inside
  obtain ⟨turns, recovered, below, needles, rounds⟩ := m.paid
  rw [ahead_of_not_rewound still] at inside needles
  rw [passed_of_not_rewound still] at needles
  refine .of_passed (ahead_zero _) m.text m.limited ?_ inside recovered below ?_ rounds m.recoveries
  · dsimp only
    omega
  · rw [passed_of_not_rewound (by exact still)]
    dsimp only
    omega

/-- After a recovery there is nothing left to pay. -/
theorem settled (m : Metered calm t limit due rounds p) (rewound : p.rewound = true) :
    Metered calm t limit 0 rounds p := by
  obtain ⟨turns, recovered, below, needles, rounds⟩ := m.paid
  rw [ahead_of_rewound rewound] at needles
  refine .of_passed (ahead_zero _) m.text m.limited m.cursor m.cursor_le recovered below ?_ rounds
    m.recoveries
  omega

/-- The code point that is kept of a rejected needle pays for it. -/
theorem rejected (m : Metered calm t limit due rounds p) (before : p.cursor < t.length) :
    Metered calm t limit 0 rounds { p with cursor := p.cursor + 1 } := by
  have cursor := m.cursor
  obtain ⟨turns, recovered, below, needles, rounds⟩ := m.paid
  refine .of_passed (ahead_zero _) m.text m.limited ?_ before recovered below ?_ rounds m.recoveries
  · dsimp only
    omega
  · rcases p.rewound.eq_false_or_eq_true with rewound | still
    · rw [ahead_of_rewound rewound, passed_of_rewound rewound] at needles
      rw [passed_of_rewound (by exact rewound)]
      dsimp only
      omega
    · rw [passed_of_not_rewound still] at needles
      rw [passed_of_not_rewound (by exact still)]
      dsimp only
      omega

theorem finished (m : Metered calm t limit 0 rounds p) (before : p.cursor < t.length) :
    Metered calm t limit 0 rounds { p with cursor := t.length } := by
  obtain ⟨turns, recovered, below, needles, rounds⟩ := m.paid
  rw [ahead_zero] at needles
  refine .of_passed (ahead_zero _) m.text m.limited (Int.natCast_nonneg _) (Int.le_refl _) recovered
    below ?_ rounds m.recoveries
  have passed : p.passed ≤ ({ p with cursor := t.length } : Place).passed := by
    rw [Place.passed, Place.passed]
    split
    · exact Int.le_refl 0
    · exact Int.le_of_lt before
  dsimp only
  omega

section Resumed

variable (nonneg : 0 ≤ origin) (before : origin < t.length)

include nonneg before

/-- A recovery below the limit pays for all needles so far, wherever it puts the cursor. -/
theorem resumed (m : Metered calm t limit due rounds p) (free : p.Below limit) :
    Metered calm t limit due (rounds + 1) (p.resumed origin) := by
  obtain ⟨turns, paid⟩ := m.paid
  have recovered := paid.recovered
  have rounds := paid.rounds
  have needles := m.needles_le_of_paid paid
  refine .of_passed rfl m.text m.limited ?_ before (Int.add_le_add_right recovered 1)
    (fun k below => ?_) ?_ ?_ fun _ k below => free k below
  · rw [Place.resumed]
    dsimp only
    omega
  · have := free k below
    omega
  · rw [passed_of_rewound rfl]
    exact needles.trans (Int.le_of_eq (Int.add_zero _).symm)
  · rw [Place.resumed]
    dsimp only
    omega

/-- When a recovery has moved the cursor in this round, another one has nothing to pay. -/
theorem resumed_again (m : Metered calm t limit due rounds p) (rewound : p.rewound = true)
    (free : calm → p.Below limit) :
    Metered calm t limit due rounds (p.resumed origin) := by
  obtain ⟨turns, recovered, below, needles, rounds⟩ := m.paid
  rw [ahead_of_rewound rewound, passed_of_rewound rewound] at needles
  refine .of_passed rfl m.text m.limited ?_ before ?_ below ?_ rounds fun quiet k below =>
    free quiet k below
  · rw [Place.resumed]
    dsimp only
    omega
  · rw [Place.resumed]
    dsimp only
    omega
  · rw [passed_of_rewound rfl]
    exact needles.trans (Int.le_of_eq (Int.add_zero _))

end Resumed

end Metered

end Place

variable {σ : Type} {w w' : World σ}

/-! ## Recoveries -/

/-- A recovery that begins well is below the limit, and goes back to where its node began. -/
theorem below_of_withdraw {top : Handle} {origin : Int}
    (h : withdraw.outcome w = (.ok (top, origin), w')) :
    w.engine.limitReached = false ∧ (w'.forest.node top).origin = some origin
      ∧ origin < w.engine.text.length := by
  constructor
  · rw [withdraw, outcome_engine] at h
    cases hs : w.engine.stack with
    | nil =>
        rw [hs] at h
        cases h
    | cons x rest =>
        rw [hs] at h
        cases rest with
        | nil => cases h
        | cons next rest =>
            cases reached : w.engine.limitReached with
            | false => rfl
            | true =>
                rw [reached] at h
                cases h
  · obtain ⟨next, rest, p, c, f, -, -, -, rfl, began, before⟩ := exists_of_withdraw h
    exact ⟨began, before⟩

theorem below_of_not_limitReached (free : w.engine.limitReached = false) :
    w.engine.place.Below w.engine.config.maxRecoveries := by
  intro k limited
  by_contra passed
  have passed : (k : Int) ≤ w.engine.metrics.recoveries := Int.not_lt.mp passed
  rw [limitReached, Value.leInt?_mono limited passed] at free
  cases free

/-! ## Worlds on the way -/

/-- A world whose place is metered, and where no node began before the text. -/
structure Tracked (g : Grammar σ) (t : Text) (limit : Value) (due rounds : Nat) (w : World σ) :
    Prop where
  metered : w.engine.place.Metered g.Calm t limit due rounds
  forward : w.forest.Forward

/-- A world whose place is metered, with whatever is in hand after however many rounds. -/
def OnTrack (g : Grammar σ) (t : Text) (limit : Value) (w : World σ) : Prop :=
  ∃ due rounds, w.engine.place.Metered g.Calm t limit due rounds

section Conduct

variable {g : Grammar σ} {t : Text} {limit : Value} {due s : Nat}

namespace Tracked

theorem still (tracked : Tracked g t limit due s w) (same : w'.engine.place = w.engine.place)
    (kept : w.forest.OriginsKept w'.forest) : Tracked g t limit due s w' where
  metered := by
    rw [same]
    exact tracked.metered
  forward := kept.forward tracked.forward

theorem down (tracked : Tracked g t limit due (s + 1) w) : Tracked g t limit due s w :=
  ⟨tracked.metered.down, tracked.forward⟩

end Tracked

/-- A calm grammar leaves the place alone while a recovery switches the status. -/
theorem place_of_calm (keeps : ∀ n, (g.setStatus n).Uses Op.KeepsPlace) (calm : g.Calm) {n : Nat}
    (h : (switchCourse g n 0).outcome w = (.ok (), w')) : w'.engine.place = w.engine.place := by
  obtain ⟨reached, zero, calm⟩ := calm
  have lasts : Lasts g (fun o => o.KeepsPlace ∧ o ≠ .recover ∧ ∀ m, o = .setStatus m → reached m)
      fun v => v.engine.place = w.engine.place :=
    { uses := fun n asked => (keeps n).and (calm n (asked.2.2 n rfl))
      resets := fun asked => absurd rfl asked.2.1
      plain := fun o v plain asked same => (place_op plain asked.1 v).trans same
      recovery := fun asked => absurd rfl asked.2.1 }
  refine (lasts.switchCourse n 0 w ⟨trivial, nofun, fun m hm => ?_⟩ rfl).ok () w' h
  cases hm
  exact zero

/-- A recovery has moved the cursor in this round. -/
def Turned (g : Grammar σ) (t : Text) (limit : Value) (due s : Nat) (w : World σ) : Prop :=
  w.engine.rewound = true ∧ Tracked g t limit due s w

namespace Turned

theorem still (turned : Turned g t limit due s w) (same : w'.engine.place = w.engine.place)
    (kept : w.forest.OriginsKept w'.forest) : Turned g t limit due s w' :=
  ⟨(congrArg Place.rewound same).trans turned.1, turned.2.still same kept⟩

theorem resumed (turned : Turned g t limit due s w) {origin : Int} (nonneg : 0 ≤ origin)
    (before : origin < t.length) (free : g.Calm → w.engine.place.Below limit)
    (moved : w'.engine.place = w.engine.place.resumed origin)
    (kept : w.forest.OriginsKept w'.forest) : Turned g t limit due s w' := by
  refine ⟨congrArg Place.rewound moved, ?_, kept.forward turned.2.forward⟩
  rw [moved]
  exact turned.2.metered.resumed_again nonneg before turned.1 free

end Turned

/-- The place is as it was when a recovery began, or a recovery has moved the cursor since. -/
def Turning (g : Grammar σ) (t : Text) (limit : Value) (due s : Nat) (w v : World σ) : Prop :=
  v.engine.place = w.engine.place ∧ Tracked g t limit due s v ∨ Turned g t limit due (s + 1) v

namespace Turning

variable {v v' : World σ}

theorem tracked (turning : Turning g t limit due s w v) : Tracked g t limit due s v := by
  rcases turning with ⟨-, tracked⟩ | turned
  · exact tracked
  · exact turned.2.down

theorem still (turning : Turning g t limit due s w v) (same : v'.engine.place = v.engine.place)
    (kept : v.forest.OriginsKept v'.forest) : Turning g t limit due s w v' :=
  turning.imp (fun h => ⟨same.trans h.1, h.2.still same kept⟩) fun turned => turned.still same kept

theorem resumed (turning : Turning g t limit due s w v) (below : w.engine.place.Below limit)
    {origin : Int} (nonneg : 0 ≤ origin) (before : origin < t.length)
    (free : g.Calm → v.engine.place.Below limit)
    (moved : v'.engine.place = v.engine.place.resumed origin)
    (kept : v.forest.OriginsKept v'.forest) : Turned g t limit due (s + 1) v' := by
  rcases turning with ⟨same, tracked⟩ | turned
  · refine ⟨congrArg Place.rewound moved, ?_, kept.forward tracked.forward⟩
    have metered := tracked.metered
    rw [moved]
    rw [same] at metered ⊢
    exact metered.resumed nonneg before below
  · exact turned.resumed nonneg before free moved kept

/-- A recovery around a switch that keeps to this moves the cursor. -/
theorem recovery (keeps : ∀ n, (g.setStatus n).Uses Op.KeepsPlace) {n : Nat}
    (turning : Turning g t limit due s w v)
    (below : v.engine.place.Below limit → w.engine.place.Below limit)
    (switches : w.engine.place.Below limit → ∀ u, Turning g t limit due s w u →
      (switchCourse g n 0).Stays (Turning g t limit due s w) u fun _ => Turning g t limit due s w) :
    (recoverCourse (switchCourse g n)).Stays (Turning g t limit due s w) v
      fun _ => Turned g t limit due (s + 1) := by
  have withdrawn : Turning g t limit due s w (withdraw.outcome v).2 :=
    turning.still (place_withdraw v) (originsKept_withdraw v)
  refine .bind (.ending (.step turning withdrawn) fun _ _ hout =>
    (Course.outcome_take ..).symm.trans hout) fun taken v₁ begun => ?_
  obtain ⟨first, begun⟩ := begun
  change withdraw.outcome v = (.ok (taken.1, taken.2), v₁) at begun
  have place₁ := place_withdraw v
  rw [begun] at place₁
  obtain ⟨free, began, before⟩ := below_of_withdraw begun
  have text : v.engine.text = t := turning.tracked.metered.text
  have limited : v.engine.config.maxRecoveries = limit := turning.tracked.metered.limited
  have free := below_of_not_limitReached free
  rw [text] at before
  rw [limited] at free
  refine .bind (.ending (switches (below free) v₁ first) fun _ v₂ hout calm =>
    place_of_calm keeps calm hout) fun _ v₂ switched => ?_
  obtain ⟨second, quiet⟩ := switched
  refine .advance second ?_ fun _ => .inr
  have kept := originsKept_resume taken.1 taken.2 v₂
  rcases engine_resume taken.1 taken.2 v₂ with ⟨f, failed, same⟩ | ⟨r, moved⟩
  · exact .inl ⟨⟨f, failed⟩, second.still (congrArg place same) kept⟩
  · refine .inr (second.resumed (below free) (first.tracked.forward _ _ began) before
      (fun calm => ?_) (congrArg place moved) kept)
    -- A calm switch has not counted a recovery.
    rw [(quiet calm).trans place₁]
    exact free

end Turning

theorem lasts_turning (keeps : ∀ n, (g.setStatus n).Uses Op.KeepsPlace)
    (below : w.engine.place.Below limit) :
    Lasts g Op.KeepsPlace (Turning g t limit due s w) where
  uses n _ := keeps n
  resets _ := trivial
  plain _ v plain keeps turning :=
    turning.still (place_op plain keeps v) (originsKept_op plain keeps v)
  recovery _ _ _ switches turning :=
    (turning.recovery keeps (fun _ => below) fun _ => switches).imp (fun _ h => h) fun _ _ => .inr

/-- A recovery pays for all needles so far.  The recoveries inside it pay in its place, if there are
any. -/
theorem Tracked.recovery (keeps : ∀ n, (g.setStatus n).Uses Op.KeepsPlace) {n : Nat}
    (tracked : Tracked g t limit due s w) :
    (recoverCourse (switchCourse g n)).Stays (Tracked g t limit due s) w
      fun _ => Tracked g t limit due (s + 1) := by
  have turning : Turning g t limit due s w w := .inl ⟨rfl, tracked⟩
  refine (turning.recovery keeps id fun below u => ?_).imp (fun _ => Turning.tracked)
    fun _ _ turned => turned.2
  exact (lasts_turning keeps below).switchCourse n 0 u trivial

/-- The scan is on track when it has moved to a needle, which is then in hand. -/
theorem Tracked.approach (tracked : Tracked g t limit 0 s w) (rewound : w.engine.rewound = false)
    {needle : Text} {position : Nat}
    (found : Text.findNeedle? w.engine.needles w.engine.text w.engine.cursor
      = some (needle, position)) :
    (∃ f, ((Engine.approach position).outcome w).1 = .error f)
        ∧ Tracked g t limit 0 s ((Engine.approach position).outcome w).2
      ∨ 0 < needle.length
        ∧ Tracked g t limit needle.length (s + 1) ((Engine.approach position).outcome w).2 := by
  have kept := originsKept_approach position w
  have text : w.engine.text = t := tracked.metered.text
  rw [text] at found
  rcases approach_cases position w with ⟨f, failed⟩ | ⟨-, moved⟩
  · rw [failed] at kept ⊢
    exact .inl ⟨⟨f, rfl⟩, tracked.still rfl kept⟩
  · rw [moved] at kept ⊢
    have nonempty := (Text.findNeedle?_spec tracked.metered.cursor found).1
    exact .inr ⟨List.length_pos_iff.mpr nonempty, tracked.metered.approached rewound found,
      kept.forward tracked.forward⟩

theorem Tracked.accept {needle : Text} (tracked : Tracked g t limit needle.length s w)
    (long : 0 < needle.length) :
    Tracked g t limit 0 s ((Engine.accept needle).outcome w).2 := by
  rw [outcome_accept]
  dsimp only
  cases rewound : w.engine.rewound with
  | true => exact ⟨tracked.metered.settled rewound, tracked.forward⟩
  | false => exact ⟨tracked.metered.accepted long rewound, tracked.forward⟩

theorem Tracked.reject (tracked : Tracked g t limit due s w) (needle : Text) (position : Nat) :
    (∃ f, ((Engine.reject needle position).outcome w).1 = .error f)
        ∧ Tracked g t limit due s ((Engine.reject needle position).outcome w).2
      ∨ Tracked g t limit 0 s ((Engine.reject needle position).outcome w).2 := by
  have kept := originsKept_reject needle position w
  rcases place_reject needle position w with ⟨failed, same⟩ | ⟨⟨c, read⟩, moved⟩
  · exact .inl ⟨failed, tracked.still same kept⟩
  · refine .inr ⟨?_, kept.forward tracked.forward⟩
    have before := Text.lt_length_of_at? tracked.metered.cursor read
    have text : w.engine.text = t := tracked.metered.text
    rw [text] at before
    rw [moved]
    exact tracked.metered.rejected before

theorem Tracked.appendRest (tracked : Tracked g t limit 0 s w) :
    Tracked g t limit 0 s (appendRest.outcome w).2 := by
  have kept := originsKept_appendRest w
  have text : w.engine.text = t := tracked.metered.text
  rcases appendRest_cases w with ⟨same, -⟩ | ⟨f, failed⟩ | ⟨before, -, moved⟩
  · rw [same]
    exact tracked
  · rw [failed] at kept ⊢
    exact tracked.still rfl kept
  · rw [moved] at kept ⊢
    refine ⟨?_, kept.forward tracked.forward⟩
    rw [text] at before
    have finished := tracked.metered.finished before
    rw [← text] at finished ⊢
    exact finished

/-- Every hook that leaves cursor, text and origins to the engine keeps track. -/
theorem lasts_tracked (keeps : ∀ n, (g.setStatus n).Uses Op.KeepsPlace) :
    Lasts g Op.KeepsPlace (Tracked g t limit due s) where
  uses n _ := keeps n
  resets _ := trivial
  plain _ w plain keeps tracked := tracked.still (place_op plain keeps w) (originsKept_op plain keeps w)
  recovery _ _ _ _ tracked := (tracked.recovery keeps).imp (fun _ h => h) fun _ _ => Tracked.down

theorem Tracked.onTrack (tracked : Tracked g t limit due s w) : OnTrack g t limit w :=
  ⟨due, s, tracked.metered⟩

/-- The scan keeps track, and every round that is followed by another adds to its counters. -/
theorem rounds_tracked (keeps : ∀ call : HookCall, (call.hook g).Uses Op.KeepsPlace) :
    Rounds g (OnTrack g t limit) (fun s => Tracked g t limit 0 s)
      fun s needle _ w => 0 < needle.length ∧ Tracked g t limit needle.length s w where
  head h := h.onTrack
  hand h := h.2.onTrack
  down := Tracked.down
  hook call h := ((lasts_tracked fun n => keeps (.setStatus n)).callCourse (keeps call) h).imp
    (fun _ => Tracked.onTrack) fun _ _ h => h
  handle {_ needle _ _} status h :=
    ((lasts_tracked fun n => keeps (.setStatus n)).callCourse (keeps (.handleStatus status needle))
      h.2).imp (fun _ => Tracked.onTrack) fun _ _ tracked => ⟨h.1, tracked⟩
  begins h := ⟨h.metered.begun, h.forward⟩
  approach h rewound found :=
    .advance h.onTrack ((h.approach rewound found).imp_left (.imp_right Tracked.onTrack))
      fun _ h => h.2.onTrack
  accept h := .advance h.2.onTrack (.inr (h.2.accept h.1)) fun _ => Tracked.onTrack
  reject h := .advance h.2.onTrack ((h.2.reject _ _).imp_left (.imp_right Tracked.onTrack))
    fun _ => Tracked.onTrack
  recovery h _ := (h.recovery fun n => keeps (.setStatus n)).imp (fun _ => Tracked.onTrack)
    fun _ _ h => h
  rest h := .advance h.onTrack (.inr h.appendRest) fun _ => Tracked.onTrack

end Conduct

/-! ## Whole parses -/

/-- The cursor is inside the text, and the needles are bounded by the recoveries. -/
structure InBounds (e : Engine) : Prop where
  cursor : 0 ≤ e.cursor
  inside : e.cursor ≤ e.text.length
  needles : e.metrics.needles ≤ (e.metrics.recoveries + 1) * e.text.length

section Parse

variable {g : Grammar σ} {t : Text} {limit : Value} {s : Nat}

namespace OnTrack

theorem inBounds (onTrack : OnTrack g t limit w) : InBounds w.engine := by
  obtain ⟨due, s, metered⟩ := onTrack
  have text : w.engine.text = t := metered.text
  refine ⟨metered.cursor, ?_, ?_⟩
  · rw [text]
    exact metered.cursor_le
  · rw [text]
    exact metered.needles_le

variable {k : Nat}

theorem recoveries_le (onTrack : OnTrack g t limit w) (calm : g.Calm)
    (limited : limit.leInt? k = some true) : w.engine.metrics.recoveries ≤ k := by
  obtain ⟨due, s, metered⟩ := onTrack
  exact metered.recoveries calm k limited

theorem needles_le (onTrack : OnTrack g t limit w) (limited : limit.leInt? k = some true) :
    w.engine.metrics.needles ≤ (k + 1) * t.length := by
  obtain ⟨due, s, metered⟩ := onTrack
  obtain ⟨turns, paid⟩ := metered.paid
  exact metered.needles_le_of_turns paid (paid.limited k limited)

end OnTrack

/-- A parse that begins is on track, whatever nodes there were. -/
theorem Begins.tracked {u : World σ} {f : Forest} (begins : Begins w u f)
    (forward : w.forest.Forward) (fresh : w.engine.metrics = {}) :
    Tracked g u.engine.text w.engine.config.maxRecoveries 0 0 u := by
  have metrics := begins.metrics
  rw [fresh] at metrics
  have needles : u.engine.metrics.needles = 0 := by rw [metrics]
  have recoveries : u.engine.metrics.recoveries = 0 := by rw [metrics]
  have passed : u.engine.place.passed = 0 := by
    rw [Place.passed]
    split
    · rfl
    · exact begins.cursor
  have paid : u.engine.place.Paid u.engine.text w.engine.config.maxRecoveries 0 0 0 := by
    refine ⟨Int.le_of_eq recoveries.symm, fun k _ => Int.natCast_nonneg k, ?_, ?_⟩
    · rw [passed, Place.ahead_zero, Int.zero_mul]
      exact Int.le_of_eq needles
    · exact Int.le_of_eq (by rw [Int.add_zero]; exact needles.symm)
  refine ⟨⟨rfl, congrArg Config.maxRecoveries begins.config, Int.le_of_eq begins.cursor.symm, ?_,
    ⟨0, paid⟩, fun _ k _ => ?_⟩, ?_⟩
  · show u.engine.cursor + _ ≤ _
    rw [begins.cursor, Place.ahead_zero]
    exact Int.natCast_nonneg _
  · exact (Int.le_of_eq recoveries).trans (Int.natCast_nonneg k)
  · rw [begins.forest]
    exact (begins.origins.trans (.add _)).forward forward

/-- A building that has begun stays on track to its end. -/
theorem stays_building (keeps : ∀ call : HookCall, (call.hook g).Uses Op.KeepsPlace) (n : Nat)
    (tracked : Tracked g t limit 0 s w) :
    (do workCourse g n; Course.take .handOut : Course σ Unit).Stays (OnTrack g t limit) w
      fun _ => OnTrack g t limit := by
  refine .bind ((rounds_tracked keeps).workCourse n tracked) fun _ v worked => .step worked.onTrack ?_
  show OnTrack g t limit (handOut.outcome v).2
  rw [OnTrack, place_handOut]
  exact worked.onTrack

/-- A scan that ends well has come to the end of the text. -/
theorem cursor_of_scan (keeps : ∀ call : HookCall, (call.hook g).Uses Op.KeepsPlace) {n : Nat}
    (tracked : Tracked g t limit 0 s w) (scanned : (scan g n).outcome w = (.ok (), w')) :
    w'.engine.cursor = w'.engine.text.length := by
  obtain ⟨-, v, head, rest⟩ := ((rounds_tracked keeps).scanCourse n tracked).ok () w'
    ((follows_scanCourse g n w).trans scanned)
  rcases appendRest_cases v with ⟨same, reached⟩ | ⟨f, failed⟩ | ⟨-, -, moved⟩
  · rw [rest] at same
    cases same
    exact Int.le_antisymm head.onTrack.inBounds.inside reached
  · rw [rest] at failed
    cases failed
  · rw [rest] at moved
    cases moved
    rfl

/-- The most rounds that a scan can take with a limit on its recoveries. -/
def enoughRounds (k : Nat) (t : Text) : Nat := (k + 1) * t.length + k + 1

/-- With a limit on the recoveries, the scan ends. -/
theorem endsWithin_of_limited (keeps : ∀ call : HookCall, (call.hook g).Uses Op.KeepsPlace) {k : Nat}
    (limited : limit.leInt? k = some true) (tracked : Tracked g t limit 0 0 w) :
    EndsWithin g (enoughRounds k t) w := by
  refine (rounds_tracked keeps).endsWithin (b := (k + 1) * t.length + k) (fun {s v} head => ?_) tracked
    (by rw [enoughRounds]; omega)
  have needles := head.onTrack.needles_le limited
  obtain ⟨turns, paid⟩ := head.metered.paid
  have few := paid.limited k limited
  have rounds : (s : Int) ≤ v.engine.metrics.needles + turns := paid.rounds
  refine Int.ofNat_le.mp ?_
  push_cast
  omega

/-- If the scan needs no more than a number of rounds, more make no difference to the parse. -/
theorem outcome_parse_of_endsWithin {input : Input} {override : Option Text} {u : World σ} {n k : Nat}
    (loaded : (load input).outcome ((enter override).outcome w).2 = (.ok (), u))
    (ends : ∀ v, (require g .init g.init).outcome u = (.ok (), v) → EndsWithin g n v) (hk : n ≤ k) :
    (parse g k input override).outcome w = (parse g n input override).outcome w := by
  have worked : (work g k).outcome u = (work g n).outcome u := by
    rw [work, work, outcome_bind, outcome_bind]
    cases prepared : (require g .init g.init).outcome u with
    | mk r v =>
        cases r with
        | error f => rfl
        | ok _ =>
            dsimp only
            rw [outcome_bind, outcome_bind, outcome_scan_of_endsWithin (ends v prepared) hk]
  have built : (build g k input).outcome ((enter override).outcome w).2
      = (build g n input).outcome ((enter override).outcome w).2 := by
    rw [build, build, outcome_bind, outcome_bind, loaded]
    dsimp only
    rw [outcome_bind, outcome_bind, worked]
  have entered : (enter override).outcome w = (.ok (), ((enter override).outcome w).2) := rfl
  rw [parse.eq_def, parse.eq_def, outcome_engine, outcome_engine]
  split
  · rfl
  · split
    · rfl
    · rw [outcome_bind, outcome_bind, entered]
      dsimp only
      rw [outcome_bind, outcome_bind, outcome_attempt, outcome_attempt, built]

/-- If the hooks leave cursor, text and origins to the engine, a parse stays in the bounds at every
step, and a scan that ends well has come to the end of the text.  For every integer that the limit on
recoveries does not exceed, needles and rounds are bounded, and if the grammar is calm besides, there
are at most so many recoveries. -/
theorem parse_progresses {input : Input} {override : Option Text} {u : World σ}
    (forward : w.forest.Forward) (keeps : ∀ call : HookCall, (call.hook g).Uses Op.KeepsPlace)
    (loaded : (load input).outcome ((enter override).outcome w).2 = (.ok (), u)) :
    (∀ n, ∀ m ∈ parseMoments g n input override w, m.step ≠ .load input →
        InBounds m.before.engine ∧ InBounds m.after.engine)
      ∧ (∀ n v v', (require g .init g.init).outcome u = (.ok (), v) →
          (scan g n).outcome v = (.ok (), v') → v'.engine.cursor = v'.engine.text.length)
      ∧ ∀ k : Nat, w.engine.config.maxRecoveries.leInt? k = some true →
          (g.Calm → ∀ n, ∀ m ∈ parseMoments g n input override w, m.step ≠ .load input →
              m.before.engine.metrics.recoveries ≤ k ∧ m.after.engine.metrics.recoveries ≤ k)
            ∧ (∀ n, (hookCalls g n input override w).countP HookCall.isHandling
                ≤ (k + 1) * u.engine.text.length)
            ∧ (∀ v, (require g .init g.init).outcome u = (.ok (), v) →
                EndsWithin g (enoughRounds k u.engine.text) v)
            ∧ ∀ n, enoughRounds k u.engine.text ≤ n → (parse g n input override).outcome w
                = (parse g (enoughRounds k u.engine.text) input override).outcome w := by
  obtain ⟨f, begins⟩ := begins_of_load loaded
  have tracked : Tracked g u.engine.text w.engine.config.maxRecoveries 0 0 u :=
    begins.tracked forward rfl
  have prepared : ∀ v, (require g .init g.init).outcome u = (.ok (), v) →
      Tracked g u.engine.text w.engine.config.maxRecoveries 0 0 v := fun v hv =>
    ((rounds_tracked keeps).requireCourse .init .init tracked).ok () v
      ((follows_requireCourse g .init .init u).trans hv)
  have first : (Course.take (.load input)).outcome ((enter override).outcome w).2 = (.ok (), u) :=
    (Course.outcome_take ..).trans loaded
  have onTrack : ∀ n, ∀ m ∈ parseMoments g n input override w, m.step ≠ .load input →
      OnTrack g u.engine.text w.engine.config.maxRecoveries m.before
        ∧ OnTrack g u.engine.text w.engine.config.maxRecoveries m.after := by
    intro n m hm begun
    have stays := stays_building keeps n tracked
    rw [parseMoments, buildCourse, Course.moments_andThen_ok first, Course.moments_take] at hm
    rcases List.mem_append.mp hm with hm | hm
    · rw [List.mem_singleton] at hm
      rw [hm] at begun
      exact absurd rfl begun
    · exact ⟨stays.during m hm, stays.after (fun _ _ h => h) m hm⟩
  refine ⟨fun n m hm begun => ?_, fun n v v' hv scanned => cursor_of_scan keeps (prepared v hv) scanned,
    fun k limited => ⟨fun calm n m hm begun => ?_, fun n => ?_, ?_, ?_⟩⟩
  · obtain ⟨before, after⟩ := onTrack n m hm begun
    exact ⟨before.inBounds, after.inBounds⟩
  · obtain ⟨before, after⟩ := onTrack n m hm begun
    exact ⟨before.recoveries_le calm limited, after.recoveries_le calm limited⟩
  · have counted := needles_buildCourse (g := g) n loaded
    have ended : (buildCourse g n input).outcome ((enter override).outcome w).2 = (do
        workCourse g n
        Course.take .handOut : Course σ Unit).outcome u := Course.outcome_andThen_ok first
    have fresh : ((enter override).outcome w).2.engine.metrics.needles = 0 := rfl
    have bounded := ((stays_building keeps n tracked).last fun _ _ h => h).needles_le limited
    rw [ended, fresh, Int.zero_add] at counted
    rw [counted] at bounded
    exact_mod_cast bounded
  · exact fun v hv => endsWithin_of_limited keeps limited (prepared v hv)
  · exact fun n hn => outcome_parse_of_endsWithin loaded
      (fun v hv => endsWithin_of_limited keeps limited (prepared v hv)) hn

end Parse

/-- An engine with a limit on recoveries, before its first parse. -/
def capped (limit : Value) : World Unit :=
  { engine := .make { maxRecoveries := limit } none, memory := () }

theorem keepsPlace_of_boldAsks {o : Op σ} (asks : BoldAsks o) : o.KeepsPlace := by
  cases o with
  | assign a =>
      cases a with
      | cursor i => exact asks
      | text t => exact asks
      | _ => trivial
  | tamper t => exact asks.elim
  | _ => trivial

theorem calm_treeGrammar : (Bold.treeGrammar σ).Calm :=
  ⟨fun _ => True, trivial, fun n _ => (uses_treeGrammar (.setStatus n)).mono fun o asks =>
    ⟨by rintro rfl; exact asks, fun _ _ => trivial⟩⟩

/-- Two bold texts that are never closed use up a limit of two. -/
theorem parse_progresses_unclosedTwice :
    (∀ m ∈ parseMoments (Bold.treeGrammar Unit) 24 unclosedTwice none (capped (.int 2)),
        m.step ≠ .load unclosedTwice → InBounds m.before.engine ∧ InBounds m.after.engine
          ∧ m.before.engine.metrics.recoveries ≤ 2 ∧ m.after.engine.metrics.recoveries ≤ 2)
      ∧ (hookCalls (Bold.treeGrammar Unit) 24 unclosedTwice none (capped (.int 2))).countP
          HookCall.isHandling ≤ 21
      ∧ ∀ n, 24 ≤ n → (parse (Bold.treeGrammar Unit) n unclosedTwice none).outcome (capped (.int 2))
          = (parse (Bold.treeGrammar Unit) 24 unclosedTwice none).outcome (capped (.int 2)) := by
  have forward : (capped (.int 2)).forest.Forward := fun h o origin => by
    rw [Forest.node_of_size_le (Nat.zero_le h)] at origin
    cases origin
  have loaded : (load unclosedTwice).outcome ((enter none).outcome (capped (.int 2))).2
      = (.ok (), ((load unclosedTwice).outcome ((enter none).outcome (capped (.int 2))).2).2) := rfl
  have length : ((load unclosedTwice).outcome
      ((enter none).outcome (capped (.int 2))).2).2.engine.text.length = 7 := rfl
  obtain ⟨bounds, -, rest⟩ := parse_progresses forward
    (fun call => (uses_treeGrammar call).mono fun _ => keepsPlace_of_boldAsks) loaded
  obtain ⟨recoveries, calls, -, same⟩ := rest 2 rfl
  rw [enoughRounds, length] at same
  rw [length] at calls
  refine ⟨fun m hm begun => ?_, calls 24, same⟩
  exact ⟨(bounds 24 m hm begun).1, (bounds 24 m hm begun).2,
    recoveries calm_treeGrammar 24 m hm begun⟩

/-! ## A limit that is exceeded -/

/-- Open two nodes, one inside the other, and read the inner one again as text. -/
def openTwice : Hook Unit Bool := do
  let outer ← Hook.edit (.create (Bold.boldNode (some (← Hook.look).cursor)))
  let _ ← Hook.push (.node outer)
  let inner ← Hook.edit (.create (Bold.boldNode (some (← Hook.look).cursor)))
  let _ ← Hook.push (.node inner)
  Hook.recover
  return true

/-- Switch the status, but read what is open again as text before. -/
def relapse (status : Int) : Hook Unit Bool := do
  if 1 < (← Hook.look).stack.length then Hook.recover
  Bold.setStatus status

/-- The grammar that does the one at every opening mark, and the other at every switch. -/
def relapsingGrammar : Grammar Unit :=
  { Bold.treeGrammar Unit with setStatus := relapse, handleStatus := fun _ _ => openTwice }

/-- A recovery inside the switch of another one exceeds a limit of one, which neither of them has
reached when it begins. -/
theorem recoveries_exceed_limit :
    (∀ call : HookCall, (call.hook relapsingGrammar).Uses Op.KeepsPlace)
      ∧ ∃ m ∈ parseMoments relapsingGrammar 4 (.text Bold.openMark) none (capped (.int 1)),
          m.after.engine.metrics.recoveries = 2 := by
  have bold : ∀ call : HookCall, (call.hook (Bold.treeGrammar Unit)).Uses Op.KeepsPlace := fun call =>
    (uses_treeGrammar call).mono fun _ => keepsPlace_of_boldAsks
  refine ⟨fun call => ?_, by decide +kernel⟩
  cases call with
  | handleStatus n needle =>
      exact Hook.uses_bind_ask trivial fun _ => Hook.uses_bind_ask trivial fun _ =>
        Hook.uses_bind_ask trivial fun _ => Hook.uses_bind_ask trivial fun _ =>
        Hook.uses_bind_ask trivial fun _ => Hook.uses_bind_ask trivial fun _ =>
        Hook.uses_bind_ask trivial fun _ => trivial
  | setStatus n =>
      refine Hook.uses_bind_ask trivial fun view => ?_
      split
      · exact Hook.uses_bind_ask trivial fun _ => bold (.setStatus n)
      · exact bold (.setStatus n)
  | init => exact bold .init
  | closeRemainingBlocks => exact bold .closeRemainingBlocks
  | modifyTree => exact bold .modifyTree
  | outputTree => exact bold .outputTree

end Engine

end Needlework
