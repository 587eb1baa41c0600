import Needlework.Proofs.Engine.Downgrades
import Needlework.Proofs.Engine.Lockstep
import Needlework.Proofs.Text.Sightings

/-!
# Scans for a list of needles

A grammar that publishes one list of needles and opens nothing makes of every text the same tree: a
root with the text below it (`Sheet`).  What it is handed on the way depends on how it answers.

* If it keeps each needle as text, the scan goes on behind the needle.
* If it rejects each needle, the scan goes on at the next code point.

In both cases the grammar is handed what there is to be seen of the text, for a scan that moves on
like this (`exists_scan`).  The induction is on what is left of the text behind the cursor.  A round
finds the first needle that stands there, and its answer moves the cursor by the reach of the needle.
-/

namespace Needlework

variable {σ α β : Type}

/-! ## Sheets -/

/-- A root in the forest, with one text below it, or nothing if the text is empty. -/
structure Forest.Sheet (f : Forest) (r : Handle) (s : Text) : Prop where
  kind : (f.node r).kind = rootKind
  blank : s = [] → f.children r = []
  written : s ≠ [] → ∃ c, f.children r = [c] ∧ (f.node c).content? = some s ∧ f.children c = []

namespace Forest.Sheet

variable {f f' : Forest} {r : Handle} {s u : Text}

/-- Text that is written below the root goes behind the text that is there. -/
theorem writes (sheet : f.Sheet r s) (wf : f.WellFormed) (known : r < f.size) (more : u ≠ [])
    {origin : Option Int} (writes : f.Writes r u origin f') : f'.Sheet r (s ++ u) := by
  have kept := OriginsKept.writes writes
  refine ⟨(kept.same r known).kind.trans sheet.kind,
    fun empty => absurd (List.append_eq_nil_iff.1 empty).2 more, fun _ => ?_⟩
  by_cases empty : s = []
  · subst empty
    have none := sheet.blank rfl
    cases writes with
    | @last c last _ =>
        rw [lastChild?, none] at last
        cases last
    | new _ =>
        refine ⟨f.size, ?_, content?_growText known u origin, children_growText_size known u origin⟩
        rw [children_growText known, none]
        rfl
  · obtain ⟨c, only, content, leaf⟩ := sheet.written empty
    have last : f.lastChild? r = some c := by rw [lastChild?, only]; rfl
    have text : (f.node c).isText = true := by rw [Node.isText_eq_isSome, content]; rfl
    have parent := wf.parent_of_lastChild? last
    cases writes with
    | new other =>
        rw [other c last] at text
        cases text
    | @last c' last' _ =>
        obtain rfl : c' = c := by
          rw [last] at last'
          exact (Option.some.inj last').symm
        refine ⟨c', (children_update_appendText f c' r u).trans only, ?_,
          (children_update_appendText f c' c' u).trans leaf⟩
        rw [content?_update_appendText (lt_size_of_parent parent), content]
        rfl

end Forest.Sheet

namespace Engine

open Act

/-! ## What a grammar is handed -/

/-- The needle that a hook is called with at a step, and the offset of the scan. -/
def Moment.sighting? (m : Moment σ) : Option (Int × Text) :=
  match m.step with
  | .enter (.handleStatus _ needle) => some (m.before.engine.cursor, needle)
  | _ => none

/-- The needles that a course hands to the grammar, with their offsets. -/
def Course.sightings (p : Course σ α) (w : World σ) : List (Int × Text) :=
  (p.moments w).filterMap Moment.sighting?

namespace Course

variable {w w' : World σ}

theorem sightings_andThen_ok {p : Course σ α} {k : α → Course σ β} {a : α}
    (h : p.outcome w = (.ok a, w')) :
    (p >>= k).sightings w = p.sightings w ++ (k a).sightings w' := by
  rw [sightings, moments_andThen_ok h, List.filterMap_append]
  rfl

theorem sightings_take (s : Step σ) (w : World σ) :
    (take s).sightings w = (Moment.sighting? ⟨s, w⟩).toList := by
  rw [sightings, moments_take]
  cases h : Moment.sighting? ⟨s, w⟩ <;> simp [h]

theorem sightings_attempt (p : Course σ α) (w : World σ) : p.attempt.sightings w = p.sightings w :=
  congrArg (List.filterMap Moment.sighting?) (moments_attempt p w)

end Course

/-! ## The grammar -/

/-- The grammar that looks for some needles in status zero, with an answer to each of them. -/
def listing (needles : List Text) (answer : Text → Hook σ Bool) : Grammar σ :=
  { Grammar.plain σ with
    setStatus := fun n =>
      if n = 0 then do
        Hook.assign (.needles needles)
        Hook.assign (.status 0)
        return true
      else return false
    handleStatus := fun _ needle => answer needle }

/-- Keep a needle as text. -/
def keep (needle : Text) : Hook σ Bool := do
  Hook.appendText needle none
  return true

/-- Reject a needle. -/
def refuse (_ : Text) : Hook σ Bool := return false

/-! ## Where a scan stands -/

variable {needles : List Text} {t needle u : Text} {r : Handle} {d : Int} {p q n : Nat}
  {w w' v : World σ} {answer : Text → Hook σ Bool} {reach : Text → Nat} {cost : Int}

/-- A scan stands at a position of the text.  Everything before it is below the root, and so many
needles were kept as text for want of a better reading. -/
structure Stands (needles : List Text) (t : Text) (r : Handle) (d : Int) (p : Nat) (w : World σ) :
    Prop where
  text : w.engine.text = t
  cursor : w.engine.cursor = p
  stack : w.engine.stack = [r]
  root : w.engine.root = some r
  status : w.engine.status = 0
  needles : w.engine.needles = needles
  lenient : w.engine.isStrict = false
  detached : w.engine.detached = []
  output : w.engine.output = .null
  downgrades : w.engine.metrics.downgrades = d
  wellFormed : w.forest.WellFormed
  known : r < w.forest.size
  sheet : w.forest.Sheet r (t.take p)

/-- What the position of a scan does not depend on. -/
def bearings (e : Engine) :
    Text × List Handle × Option Handle × Int × List Text × Value × List Handle × Value :=
  (e.text, e.stack, e.root, e.status, e.needles, e.strict, e.detached, e.output)

/-- The scan moves behind a text that stands at its position. -/
theorem Stands.forward {d' : Int} (stands : Stands needles t r d p w) (here : u <+: t.drop p)
    (behind : p + u.length = q) (same : w'.engine.bearings = w.engine.bearings)
    (cursor : w'.engine.cursor = q) (downgrades : w'.engine.metrics.downgrades = d')
    (wf : w'.forest.WellFormed) (known : r < w'.forest.size)
    (sheet : w'.forest.Sheet r (t.take p ++ u)) : Stands needles t r d' q w' := by
  simp only [bearings, Prod.mk.injEq] at same
  obtain ⟨text, stack, root, status, published, strict, detached, output⟩ := same
  refine ⟨text.trans stands.text, cursor, stack.trans stands.stack, root.trans stands.root,
    status.trans stands.status, published.trans stands.needles, ?_, detached.trans stands.detached,
    output.trans stands.output, downgrades, wf, known, ?_⟩
  · rw [isStrict, strict]
    exact stands.lenient
  · rw [← behind, Text.take_eq_append_of_prefix here]
    exact sheet

/-- Text goes below the root. -/
theorem Stands.exists_appendText (stands : Stands needles t r d p w) (u : Text)
    (offset : Option Int) : ∃ f, (appendText u offset).outcome w = (.ok (), w.withForest f)
      ∧ f.WellFormed ∧ r < f.size ∧ f.Sheet r (t.take p ++ u) := by
  by_cases empty : u = []
  · subst empty
    refine ⟨w.forest, rfl, stands.wellFormed, stands.known, ?_⟩
    rw [List.append_nil]
    exact stands.sheet
  · obtain ⟨f, run, writes⟩ := stands.wellFormed.run_appendToLastText stands.known empty
      (some (offset.getD w.engine.cursor))
    refine ⟨f, ?_, stands.wellFormed.writes stands.known writes, ?_,
      stands.sheet.writes stands.wellFormed stands.known empty writes⟩
    · rw [outcome_appendText stands.stack, outcome_tree, run]
    · exact Nat.lt_of_lt_of_le stands.known (Forest.OriginsKept.writes writes).size

theorem Stands.begun (stands : Stands needles t r d p w) : Stands needles t r d p (begun w) :=
  { stands with }

/-- The scan looks for the needles in the text, from its position on. -/
theorem Stands.search (stands : Stands needles t r d p w) :
    Text.findNeedle? w.engine.needles w.engine.text w.engine.cursor = Text.findNeedle? needles t p := by
  rw [stands.needles, stands.text, stands.cursor]

/-- The scan moves to a needle. -/
theorem Stands.exists_approach (stands : Stands needles t r d p w) (le : p ≤ q)
    (inside : q ≤ t.length) : ∃ w', (approach q).outcome w = (.ok 0, w')
      ∧ Stands needles t r d q w' ∧ w'.engine.rewound = w.engine.rewound := by
  have piece : w.engine.text.between w.engine.cursor q = t.between p q := by
    rw [stands.text, stands.cursor]
  have behind : p + (t.between p q).length = q := by
    rw [Text.length_between inside, Nat.add_sub_cancel' le]
  obtain ⟨f, appended, wf, known, sheet⟩ := stands.exists_appendText (t.between p q) none
  refine ⟨(w.withForest f).onEngine fun e => count (fun m => { m with needles := m.needles + 1 })
    { e with cursor := q }, ?_, ?_, rfl⟩
  · rw [approach, outcome_engine, piece, outcome_bind, appended, stands.status]
    rfl
  · exact stands.forward (Text.between_prefix p q) behind rfl rfl stands.downgrades wf known sheet

/-! ## Answers -/

/-- An answer to a needle, and what the scan makes of it. -/
def answerCourse (g : Grammar σ) (needle : Text) (position : Nat) : Course σ Unit := do
  if ← callCourse g (.handleStatus 0 needle) then Course.take (.accept needle)
  else Course.take (.reject needle position)

/-- The grammar is handed a needle where the scan stands.  If its hook hands on nothing, this is all. -/
theorem sightings_answerCourse {g : Grammar σ} {accepted : Bool} (stands : Stands needles t r d p w)
    (called : (callCourse g (.handleStatus 0 needle)).outcome w = (.ok accepted, v))
    (quiet : (hookCourse (switchCourse g nestingLimit) (g.handleStatus 0 needle)).sightings w = []) :
    (answerCourse g needle q).sightings w = [((p : Int), needle)] := by
  have handed : (callCourse g (.handleStatus 0 needle)).sightings w = [((p : Int), needle)] := by
    show (w.engine.cursor, needle) :: Course.sightings (hookCourse _ (g.handleStatus 0 needle)) w = _
    rw [quiet, stands.cursor]
  rw [answerCourse, Course.sightings_andThen_ok called, handed]
  cases accepted with
  | true => rw [if_pos rfl, Course.sightings_take]; rfl
  | false => rw [if_neg Bool.false_ne_true, Course.sightings_take]; rfl

/-- A grammar that answers each needle so that the scan moves on by the reach of the needle, with so
many downgrades. -/
structure Moves (answer : Text → Hook σ Bool) (reach : Text → Nat) (cost : Int) : Prop where
  reaches : ∀ needle, needle ≠ [] → 0 < reach needle ∧ reach needle ≤ needle.length
  answers : ∀ {needles t r d p needle} {w : World σ}, Stands needles t r d p w →
    w.engine.rewound = false → needle ≠ [] → needle <+: t.drop p →
    ∃ w', (answerCourse (listing needles answer) needle p).outcome w = (.ok (), w')
      ∧ Stands needles t r (d + cost) (p + reach needle) w'
      ∧ (answerCourse (listing needles answer) needle p).sightings w = [((p : Int), needle)]

/-- A needle that is kept is text, and the scan goes on behind it. -/
theorem moves_keep : Moves (keep : Text → Hook σ Bool) List.length 0 where
  reaches needle nonempty := ⟨List.length_pos_iff.2 nonempty, Nat.le_refl _⟩
  answers {needles t r d p needle w} stands still _ here := by
    obtain ⟨f, appended, wf, known, sheet⟩ := stands.exists_appendText needle none
    have asked : (Course.take (.op (.appendText needle none)) : Course σ _).attempt.outcome w
        = (.ok (.ok ()), w.withForest f) :=
      Course.outcome_attempt_of ((Course.outcome_take _ w).trans appended)
    have called : (callCourse (listing needles keep) (.handleStatus 0 needle)).outcome w
        = (.ok true, w.withForest f) := Course.outcome_andThen_ok asked
    refine ⟨(w.withForest f).onEngine fun e => { e with cursor := e.cursor + needle.length }, ?_, ?_,
      sightings_answerCourse stands called ?_⟩
    · rw [answerCourse, Course.outcome_andThen_ok called, if_pos rfl, Course.outcome_take]
      refine (outcome_accept needle _).trans ?_
      rw [World.engine_withForest, still]
      rfl
    · rw [Int.add_zero]
      refine stands.forward here rfl rfl ?_ stands.downgrades wf known sheet
      show w.engine.cursor + needle.length = _
      rw [stands.cursor]
      rfl
    · refine (Course.sightings_andThen_ok asked).trans ?_
      rw [Course.sightings_attempt, Course.sightings_take]
      rfl

/-- A needle that is rejected loses its first code point to the text. -/
theorem moves_refuse : Moves (refuse : Text → Hook σ Bool) (fun _ => 1) 1 where
  reaches needle nonempty := ⟨Nat.one_pos, List.length_pos_iff.2 nonempty⟩
  answers {needles t r d p needle w} stands still nonempty here := by
    have called : (callCourse (listing needles refuse) (.handleStatus 0 needle)).outcome w
        = (.ok false, w) := rfl
    have nonneg : 0 ≤ w.engine.cursor := by
      rw [stands.cursor]
      exact Int.natCast_nonneg p
    have inside : p < t.length := by
      have fits := here.length_le
      have := List.length_pos_iff.2 nonempty
      rw [List.length_drop] at fits
      omega
    have point : w.engine.text.at? w.engine.cursor = some t[p] := by
      rw [Text.at?_of_nonneg nonneg, stands.text, stands.cursor, Int.toNat_natCast,
        List.getElem?_eq_getElem inside]
    obtain ⟨rep, l, f, writes, ends⟩ := exists_downgrade stands.lenient nonneg point stands.stack
      stands.wellFormed stands.known needle p
    refine ⟨((admonished w rep l).withForest f).onEngine fun e => { e with cursor := e.cursor + 1 },
      ?_, ?_, sightings_answerCourse stands called rfl⟩
    · rw [answerCourse, Course.outcome_andThen_ok called, if_neg Bool.false_ne_true,
        Course.outcome_take]
      exact ends
    · refine stands.forward (u := [t[p]]) ?_ rfl rfl ?_ ?_ ?_ ?_ ?_
      · rw [List.drop_eq_getElem_cons inside]
        exact ⟨_, rfl⟩
      · show w.engine.cursor + 1 = _
        rw [stands.cursor]
        rfl
      · show w.engine.metrics.downgrades + 1 = _
        rw [stands.downgrades]
      · exact stands.wellFormed.writes stands.known writes
      · exact Nat.lt_of_lt_of_le stands.known (Forest.OriginsKept.writes writes).size
      · exact stands.sheet.writes stands.wellFormed stands.known (List.cons_ne_nil _ _) writes

/-! ## Rounds -/

section

variable (moves : Moves answer reach cost) (stands : Stands needles t r d p w)

include stands

/-- What a round of the scan comes to after it has begun. -/
theorem round_of_found {g : Grammar σ}
    (found : Text.findNeedle? needles t p = some (needle, q)) (le : p ≤ q) (inside : q ≤ t.length) :
    ∃ v, Stands needles t r d q v ∧ v.engine.rewound = false
      ∧ (∀ w', (answerCourse g needle q).outcome v = (.ok (), w') →
        (roundCourse g).outcome w = (.ok true, w')
          ∧ (roundCourse g).sightings w = (answerCourse g needle q).sightings v) := by
  obtain ⟨v, near, there, still⟩ := stands.begun.exists_approach le inside
  refine ⟨v, there, still, fun w' answered => ?_⟩
  have begins : (Course.take .beginRound).outcome w = (.ok (begun w).engine, begun w) := rfl
  have search := stands.begun.search.trans found
  have near' := (Course.outcome_take (.approach q) (begun w)).trans near
  have dealt : (needleCourse g needle q).outcome (begun w) = (.ok (), w') := by
    rw [needleCourse, Course.outcome_andThen_ok near']
    exact answered
  have handed : (needleCourse g needle q).sightings (begun w)
      = (answerCourse g needle q).sightings v := by
    rw [needleCourse, Course.sightings_andThen_ok near', Course.sightings_take]
    rfl
  constructor
  · rw [roundCourse, Course.outcome_andThen_ok begins, search]
    exact Course.outcome_andThen_ok dealt
  · rw [roundCourse, Course.sightings_andThen_ok begins, search, Course.sightings_take]
    refine (Course.sightings_andThen_ok dealt).trans ?_
    rw [handed]
    exact List.append_nil _

/-- A scan for needles that are not there is over. -/
theorem round_of_none {g : Grammar σ} (absent : Text.findNeedle? needles t p = none) :
    (roundCourse g).outcome w = (.ok false, begun w) ∧ (roundCourse g).sightings w = [] := by
  have begins : (Course.take .beginRound).outcome w = (.ok (begun w).engine, begun w) := rfl
  have search := stands.begun.search.trans absent
  have status : (begun w).engine.status = 0 := stands.status
  rw [roundCourse, Course.outcome_andThen_ok begins, Course.sightings_andThen_ok begins, search,
    Course.sightings_take]
  dsimp only
  rw [if_pos status]
  exact ⟨rfl, rfl⟩

/-- What is left of the text is appended. -/
theorem exists_appendRest (within : p ≤ t.length) : ∃ w', appendRest.outcome w = (.ok (), w')
    ∧ Stands needles t r d t.length w' := by
  rw [appendRest, outcome_engine, stands.text, stands.cursor, Text.dropFrom_natCast]
  by_cases more : p < t.length
  · obtain ⟨f, appended, wf, known, sheet⟩ := stands.exists_appendText (t.drop p) none
    have behind : p + (t.drop p).length = t.length := by
      rw [List.length_drop]
      omega
    refine ⟨(w.withForest f).onEngine fun e => { e with cursor := e.text.length }, ?_, ?_⟩
    · rw [if_pos (Int.ofNat_lt.2 more), outcome_bind, appended]
      rfl
    · refine stands.forward (List.prefix_refl _) behind rfl ?_ stands.downgrades wf known sheet
      show (w.engine.text.length : Int) = _
      rw [stands.text]
  · rw [if_neg (fun less => more (Int.ofNat_lt.1 less))]
    obtain rfl : p = t.length := by omega
    exact ⟨w, rfl, stands⟩

include moves

/-- A round hands the first needle to the grammar and moves on by its reach. -/
theorem exists_round (found : Text.findNeedle? needles t p = some (needle, q)) : ∃ w',
    (roundCourse (listing needles answer)).outcome w = (.ok true, w')
      ∧ Stands needles t r (d + cost) (q + reach needle) w'
      ∧ (roundCourse (listing needles answer)).sightings w = [((q : Int), needle)] := by
  obtain ⟨le, first, -⟩ := Text.findNeedle?_eq_some_iff.1 found
  have inside : q ≤ t.length := Nat.le_trans (Nat.le_add_right q _) first.le_length
  obtain ⟨v, there, still, round⟩ :=
    round_of_found (g := listing needles answer) stands found le inside
  obtain ⟨w', answered, moved, handed⟩ := moves.answers there still first.nonempty first.stands
  obtain ⟨ends, sees⟩ := round w' answered
  exact ⟨w', ends, moved, sees.trans handed⟩

end

/-- A scan hands the grammar what there is to be seen of the rest of the text, and comes to the end of
the text. -/
theorem exists_scan (moves : Moves answer reach cost) (stands : Stands needles t r d p w)
    (within : p ≤ t.length) (enough : t.length < p + n) : ∃ w' l,
    (scanCourse (listing needles answer) n).outcome w = (.ok (), w')
      ∧ Stands needles t r (d + cost * l.length) t.length w'
      ∧ (scanCourse (listing needles answer) n).sightings w
        = l.map (fun a => ((a.1 : Int), a.2))
      ∧ Text.Sightings needles t reach p l := by
  induction n generalizing d p w with
  | zero => omega
  | succ n ih =>
      cases found : Text.findNeedle? needles t p with
      | none =>
          obtain ⟨ends, sees⟩ := round_of_none (g := listing needles answer) stands found
          obtain ⟨w', rest, atEnd⟩ := exists_appendRest stands.begun within
          refine ⟨w', [], ?_, ?_, ?_, .nil (Text.findNeedle?_eq_none_iff.1 found)⟩
          · rw [scanCourse, Course.outcome_andThen_ok ends, if_neg Bool.false_ne_true]
            exact (Course.outcome_take _ _).trans rest
          · simpa using atEnd
          · rw [scanCourse, Course.sightings_andThen_ok ends, sees, if_neg Bool.false_ne_true,
              Course.sightings_take]
            rfl
      | some sighted =>
          obtain ⟨needle, q⟩ := sighted
          obtain ⟨v, ends, further, sees⟩ := exists_round moves stands found
          obtain ⟨le, first, bare⟩ := Text.findNeedle?_eq_some_iff.1 found
          have fits := first.le_length
          obtain ⟨pos, reaches⟩ := moves.reaches needle first.nonempty
          obtain ⟨w', l, scans, atEnd, later, rest⟩ := ih further (by omega) (by omega)
          refine ⟨w', (q, needle) :: l, ?_, ?_, ?_, .cons le first bare rest⟩
          · rw [scanCourse, Course.outcome_andThen_ok ends, if_pos rfl, scans]
          · have total : d + cost * ((q, needle) :: l).length = d + cost + cost * l.length := by
              rw [List.length_cons, Int.natCast_add, Int.natCast_one, Int.mul_add, Int.mul_one]
              omega
            rw [total]
            exact atEnd
          · rw [scanCourse, Course.sightings_andThen_ok ends, sees, if_pos rfl, later]
            rfl

end Engine

end Needlework
