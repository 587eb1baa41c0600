import Needlework.Proofs.Engine.Counters
import Needlework.Proofs.Engine.Listing
import Needlework.Proofs.Engine.SourcePreservation
import Needlework.Proofs.Engine.StrictMode

/-!
# What a list of needles sees of a text

A parse that looks for one list of needles all the way, and opens nothing, hands the needles of the
text to its grammar (`needles_sighted`).  A grammar that keeps them is handed the tokens of the text:
the leftmost needles that do not overlap, and of several at one position the first listed.  A grammar
that rejects them is handed every position at which a needle stands.  In both cases the parse returns a
root with the text below it.

The scan does all of this.  Before it nothing is handed to the grammar but the status, and after it
nothing is open.
-/

namespace Needlework.Engine

open Act

variable {σ : Type} {needles : List Text} {answer : Text → Hook σ Bool} {reach : Text → Nat}
  {cost : Int} {d : Int} {t : Text} {r : Handle} {p n : Nat} {input : Input} {override : Option Text}
  {w w' u v : World σ}

/-! ## Before the scan -/

/-- What is read is text or bytes. -/
theorem ne_other_of_readText (read : (Likeness.readText input).outcome w = (.ok t, w')) :
    ∀ x, input ≠ .other x := by
  rintro x rfl
  rw [Likeness.readText, outcome_engine] at read
  cases read

/-- The grammar publishes its needles before the scan, and is handed none. -/
theorem outcome_init (needles : List Text) (answer : Text → Hook σ Bool) (w : World σ) :
    (requireCourse (listing needles answer) .init .init).outcome w
        = (.ok (), w.onEngine fun e => { e with needles := needles, status := 0 })
      ∧ (requireCourse (listing needles answer) .init .init).sightings w = [] := ⟨rfl, rfl⟩

/-- A scan begins at the beginning of its text, under a new root. -/
theorem exists_begun (needles : List Text) (idle : w.engine.Idle) (wf : w.forest.WellFormed)
    (lenient : w.engine.isStrict = false)
    (read : (Likeness.readText input).outcome ((enter override).outcome w).2 = (.ok t, w')) :
    ∃ u r, (load input).outcome ((enter override).outcome w).2 = (.ok (), u)
      ∧ Stands needles t r 0 0 (u.onEngine fun e => { e with needles := needles, status := 0 }) := by
  obtain ⟨l, loads⟩ := outcome_load_ok (w := ((enter override).outcome w).2) idle.root idle.detached read
  have node : (w.forest.add .root).2.node w.forest.size = Blueprint.root.build w.forest.nextId := by
    rw [Forest.node_add, if_pos rfl]
  refine ⟨_, w.forest.size, loads, ⟨rfl, rfl, rfl, rfl, rfl, rfl, lenient, rfl, rfl, rfl,
    wf.add .root, ?_, ?_⟩⟩
  · show w.forest.size < (w.forest.add .root).2.size
    rw [Forest.size_add]
    exact Nat.lt_succ_self _
  · rw [List.take_zero]
    refine ⟨?_, fun _ => ?_, fun more => absurd rfl more⟩
    · show ((w.forest.add .root).2.node w.forest.size).kind = rootKind
      rw [node]
      rfl
    · show ((w.forest.add .root).2.node w.forest.size).children = []
      rw [node]
      rfl

/-! ## After the scan -/

/-- Nothing is left open. -/
theorem Stands.outcome_finish (stands : Stands needles t r d p w) (answer : Text → Hook σ Bool) :
    (finishCourse (listing needles answer)).outcome w = (.ok (), w)
      ∧ (finishCourse (listing needles answer)).sightings w = [] := by
  have none : ¬ 0 < w.engine.openCount := by
    rw [openCount, stands.stack]
    exact Int.lt_irrefl 0
  have asked : (Course.take (.op .closeOpen) : Course σ _).attempt.outcome w
      = (.ok (.ok true), w) :=
    Course.outcome_attempt_of ((Course.outcome_take _ w).trans (outcome_closeOpen_of_none none))
  have called : (callCourse (listing needles answer) .closeRemainingBlocks).outcome w
      = (.ok true, w) := Course.outcome_andThen_ok asked
  have quiet : (callCourse (listing needles answer) .closeRemainingBlocks).sightings w = [] := by
    refine (Course.sightings_andThen_ok asked).trans ?_
    rw [Course.sightings_attempt, Course.sightings_take]
    rfl
  constructor
  · rw [finishCourse, Course.outcome_andThen_ok called]
    rfl
  · rw [finishCourse, Course.sightings_andThen_ok called, quiet]
    rfl

/-- The tree is handed out. -/
theorem outcome_handOut_of_null (output : w.engine.output = .null) :
    handOut.outcome w = (.ok (), w.onEngine fun e => { e with
      report := e.report.map fun r => { r with tree := e.root }, root := none, stack := [] }) := by
  rw [handOut, outcome_engine, output]
  rfl

/-! ## Whole parses -/

/-- The needles that a parse hands to the grammar, with their offsets. -/
def sightings (g : Grammar σ) (rounds : Nat) (input : Input) (override : Option Text) (w : World σ) :
    List (Int × Text) :=
  (parseMoments g rounds input override w).filterMap Moment.sighting?

/-- What the grammar has a part in comes to the end of the text, and hands on what the scan sees. -/
theorem exists_work (moves : Moves answer reach cost) (enough : t.length < n)
    (stands : Stands needles t r 0 0 (w.onEngine fun e => { e with needles := needles, status := 0 })) :
    ∃ w' l, (workCourse (listing needles answer) n).outcome w = (.ok (), w')
      ∧ Stands needles t r (cost * l.length) t.length w'
      ∧ (workCourse (listing needles answer) n).sightings w = l.map (fun a => ((a.1 : Int), a.2))
      ∧ Text.Sightings needles t reach 0 l := by
  obtain ⟨begins, quiet⟩ := outcome_init needles answer w
  obtain ⟨w', l, scans, ends, sees, sightings⟩ := exists_scan (n := n) moves stands (Nat.zero_le _)
    (by omega)
  obtain ⟨finishes, still⟩ := ends.outcome_finish answer
  refine ⟨w', l, ?_, ?_, ?_, sightings⟩
  · rw [workCourse, Course.outcome_andThen_ok begins, Course.outcome_andThen_ok scans,
      Course.outcome_andThen_ok finishes]
    rfl
  · rwa [Int.zero_add] at ends
  · rw [workCourse, Course.sightings_andThen_ok begins, quiet, Course.sightings_andThen_ok scans, sees,
      Course.sightings_andThen_ok finishes, still]
    exact List.append_nil _

/-- A report of success with a tree that is a root with one text. -/
structure Literal (t : Text) (report : Report) (w : World σ) : Prop where
  success : report.success = true
  error : report.error = none
  output : report.output = .null
  tree : ∃ r, report.tree = some r ∧ w.forest.Sheet r t

/-- A parse hands the grammar what there is to be seen of the text, and returns the text. -/
theorem exists_parse (moves : Moves answer reach cost) (needles : List Text) (idle : w.engine.Idle)
    (wf : w.forest.WellFormed) (lenient : w.engine.isStrict = false)
    (read : (Likeness.readText input).outcome ((enter override).outcome w).2 = (.ok t, u))
    (enough : t.length < n) :
    ∃ report w' l, (parse (listing needles answer) n input override).outcome w = (.ok report, w')
      ∧ Literal t report w'
      ∧ sightings (listing needles answer) n input override w
        = l.map (fun a => ((a.1 : Int), a.2))
      ∧ Text.Sightings needles t reach 0 l
      ∧ w'.engine.metrics.downgrades = cost * l.length
      ∧ (w.engine.config.collectMetrics.truthy = true →
        report.metrics.downgrades = cost * l.length) := by
  obtain ⟨u, r, loads, begins⟩ := exists_begun needles idle wf lenient read
  obtain ⟨v, l, works, ends, sees, sighted⟩ := exists_work moves enough begins
  have hands := outcome_handOut_of_null ends.output
  generalize handed : World.onEngine v _ = v' at hands
  have loads' := (Course.outcome_take (.load input) ((enter override).outcome w).2).trans loads
  have builds : (build (listing needles answer) n input).outcome ((enter override).outcome w).2
      = (.ok (), v') := by
    rw [← follows_buildCourse, buildCourse, Course.outcome_andThen_ok loads',
      Course.outcome_andThen_ok works]
    exact (Course.outcome_take .handOut v).trans hands
  obtain ⟨config, rep, log, parsed, reported, success, error, -, product⟩ :=
    exists_outcome_parse idle.parsing (ne_other_of_readText read) builds
  have aside : v'.engine.detached = [] := by
    rw [← handed]
    exact ends.detached
  have root : v'.engine.root = none := by
    rw [← handed]
    rfl
  have clear : cleared v' = (.ok (), v'.forest) := by
    rw [cleared, clearing, aside, root]
    rfl
  have tree : rep.tree = some r := by
    have same : v'.engine.report = v.engine.report.map fun r => { r with tree := v.engine.root } := by
      rw [← handed]
      rfl
    rw [same, ends.root] at reported
    obtain ⟨before, -, rfl⟩ := Option.map_eq_some_iff.1 reported
    rfl
  have output : rep.output = .null := by
    rcases product rfl with (⟨-, none⟩ | ⟨-, none⟩) | ⟨-, none, -⟩
    · exact not_not.1 none
    · exact absurd (by rw [tree]; exact Option.some_ne_none r) none
    · rw [tree] at none
      cases none
  have downgrades : v'.engine.metrics.downgrades = cost * l.length := by
    rw [← handed]
    exact ends.downgrades
  have sheet : v'.forest.Sheet r t := by
    have whole := ends.sheet
    rw [List.take_length] at whole
    rw [← handed]
    exact whole
  rw [clear] at parsed
  refine ⟨v'.engine.counted rep, _, l, parsed, ?_, ?_, sighted, downgrades, fun collected => ?_⟩
  · rw [counted]
    split
    · exact ⟨success, error, output, r, tree, sheet⟩
    · exact ⟨success, error, output, r, tree, sheet⟩
  · have handed : (buildCourse (listing needles answer) n input).sightings ((enter override).outcome w).2
        = l.map fun a => ((a.1 : Int), a.2) := by
      rw [buildCourse, Course.sightings_andThen_ok loads', Course.sightings_andThen_ok works, sees,
        Course.sightings_take, Course.sightings_take]
      exact List.append_nil _
    exact handed
  · rw [counted, config, if_pos collected]
    exact downgrades

/-- A parse for a fixed list of needles returns the text under a root.  A grammar that keeps every
needle is handed the leftmost needles that do not overlap, each the first listed of those at its
position, and no needle stands in between.  A grammar that rejects every needle is handed one needle at
each position where one stands, in order, and so many needles are downgraded. -/
theorem needles_sighted (needles : List Text) (idle : w.engine.Idle) (wf : w.forest.WellFormed)
    (lenient : w.engine.isStrict = false)
    (read : (Likeness.readText input).outcome ((enter override).outcome w).2 = (.ok t, u))
    (enough : t.length < n) :
    (∃ report w', ∃ l : List (Nat × Text),
      (parse (listing needles keep) n input override).outcome w = (.ok report, w')
      ∧ Literal t report w'
      ∧ sightings (listing needles keep) n input override w = l.map (fun a => ((a.1 : Int), a.2))
      ∧ l.Pairwise (fun a b => a.1 + a.2.length ≤ b.1)
      ∧ (∀ a ∈ l, Text.FirstAt needles t a.1 a.2)
      ∧ (∀ k, (∀ a ∈ l, k < a.1 ∨ a.1 + a.2.length ≤ k) → Text.Bare needles t k)
      ∧ ∀ l', Text.Sightings needles t List.length 0 l' → l' = l)
    ∧ ∃ report w', ∃ l : List (Nat × Text),
      (parse (listing needles refuse) n input override).outcome w = (.ok report, w')
      ∧ Literal t report w'
      ∧ sightings (listing needles refuse) n input override w = l.map (fun a => ((a.1 : Int), a.2))
      ∧ l.Pairwise (fun a b => a.1 < b.1)
      ∧ (∀ q needle, (q, needle) ∈ l ↔ Text.FirstAt needles t q needle)
      ∧ w'.engine.metrics.downgrades = l.length
      ∧ (w.engine.config.collectMetrics.truthy = true → report.metrics.downgrades = l.length) := by
  constructor
  · obtain ⟨report, w', l, parsed, literal, sees, sighted, -⟩ :=
      exists_parse moves_keep needles idle wf lenient read enough
    exact ⟨report, w', l, parsed, literal, sees, sighted.apart, sighted.first,
      fun k => sighted.gaps k (Nat.zero_le k), fun l' other => sighted.unique other⟩
  · obtain ⟨report, w', l, parsed, literal, sees, sighted, downgrades, reported⟩ :=
      exists_parse moves_refuse needles idle wf lenient read enough
    rw [Int.one_mul] at downgrades reported
    exact ⟨report, w', l, parsed, literal, sees, sighted.apart, fun q needle => sighted.mem_iff,
      downgrades, reported⟩

/-- Needles of which one begins with another, or is empty. -/
def nestedNeedles : List Text := [[0x61, 0x62], [0x61], [], [0x62]]

/-- A text in which they overlap. -/
def nestedText : Text := [0x61, 0x62, 0x61, 0x61, 0x62]

theorem needles_sighted_nested :
    (∃ report w', (parse (listing nestedNeedles keep) 6 (.text nestedText) none).outcome
        ({ memory := () } : World Unit) = (.ok report, w') ∧ Literal nestedText report w')
    ∧ sightings (listing nestedNeedles keep) 6 (.text nestedText) none ({ memory := () } : World Unit)
      = [(0, [0x61, 0x62]), (2, [0x61]), (3, [0x61, 0x62])]
    ∧ ∃ report w', (parse (listing nestedNeedles refuse) 6 (.text nestedText) none).outcome
        ({ memory := () } : World Unit) = (.ok report, w') ∧ Literal nestedText report w'
      ∧ w'.engine.metrics.downgrades = 5 := by
  have read : (Likeness.readText (.text nestedText)).outcome
      ((enter none).outcome ({ memory := () } : World Unit)).2 = (.ok nestedText, _) := rfl
  obtain ⟨⟨report, w', _, parsed, literal, -⟩, report', w'', l, parsed', literal', sees, -, -,
    downgrades, -⟩ := needles_sighted nestedNeedles (atRest_make {} none).idle
      (.of_size_eq_zero rfl) rfl read (show nestedText.length < 6 by decide)
  refine ⟨⟨report, w', parsed, literal⟩, by decide +kernel, report', w'', parsed', literal', ?_⟩
  have five : (sightings (listing nestedNeedles refuse) 6 (.text nestedText) none
      ({ memory := () } : World Unit)).length = 5 := by decide +kernel
  rw [sees, List.length_map] at five
  rw [downgrades, five]
  rfl

end Needlework.Engine
