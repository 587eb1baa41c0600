import Needlework.Proofs.Engine.Disposal

/-!
# What a failed parse leaves behind

A parse that fails gives its tree to nobody.  The teardown discards what was put aside first and
destroys the tree below the root afterwards, in one go.  So whether the tree goes depends on
nodes that do not belong to it.

* If everything put aside can be discarded, the tree goes as well.
* If one of these teardowns fails, the teardown ends there.  The tree is *stranded*: each of its
  nodes stays as it was when the grammar had done its part, and nobody holds the tree any more.
  It does not matter whether the building had failed before, or whether its tree had been handed
  out already and is taken back by the report of the failure.

A tree that has been made into an output is gone before anything is discarded.
-/

namespace Needlework

namespace Engine

open Act

variable {σ : Type} {w w' : World σ} {r x : Handle}

/-- A tree that the teardown does not come to: it was not made into an output, and what was put
aside cannot be discarded. -/
def Stranded (ended : Except Fault Unit) (w : World σ) : Prop :=
  (ended = .ok () → w.engine.output.isNull = true)
    ∧ ∃ e f, (discardAll w.engine.detached.reverse).run w.forest = .error e f

/-! ## Discarding -/

/-- What is gone stays gone, even if the discarding fails. -/
theorem released_discardAll : ∀ (hs : List Handle) {f : Forest}, f.WellFormed → f.Released x →
    (f.after (discardAll hs)).Released x
  | [], _, _, gone => gone
  | h :: hs, f, wf, gone => by
      rw [discardAll, Forest.after_bind, EStateM.run_get]
      dsimp only
      split
      case isFalse => exact released_discardAll hs wf gone
      case isTrue free =>
        rw [Bool.and_eq_true] at free
        obtain ⟨top, alive⟩ := free
        have apart : ¬ f.Over h x := by
          intro hover
          rw [hover.eq_of_parent_none gone.parent, gone.destroyed] at alive
          cases alive
        have gone' : (f.after (Forest.destroy h)).Released x :=
          gone.of_node_eq (wf.node_destroy (Option.isNone_iff_eq_none.mp top) apart)
        have wf' := wf.after_destroy h
        refine Forest.after_bind_of (P := fun f' => f'.Released x) (fun e f' hf' => ?_) (fun u f' hf' => ?_)
        · rw [Forest.after_of_error hf'] at gone'
          exact gone'
        · rw [Forest.after_of_ok hf'] at gone' wf'
          exact released_discardAll hs wf' gone'

/-- A teardown whose discarding fails leaves the tree below the root alone. -/
theorem Orderly.node_clearing_of_error (orderly : Orderly w) (root : w.engine.root = some r)
    {e : Fault} {f : Forest} (failed : (discardAll w.engine.detached.reverse).run w.forest = .error e f)
    (below : w.forest.Over r x) : (w.forest.after w.engine.clearing).node x = w.forest.node x := by
  have same := node_discardAll w.engine.detached.reverse orderly.wellFormed
    (orderly.root_parent root) (fun hm => orderly.root_notAside root (List.mem_reverse.mp hm)) x below
  rw [Forest.after_of_error failed] at same
  rw [clearing, Forest.after_bind, failed]
  exact same

/-! ## The end of the grammar's part -/

section Parse

variable {g : Grammar σ} {rounds : Nat} {input : Input} {override : Option Text}
  {ended : Except Fault Unit} {u v : World σ}

/-- What lawful hooks leave behind is in order. -/
theorem orderly_of_lawful (wf : w.forest.WellFormed)
    (lawful : ∀ m ∈ (buildCourse g rounds input).moments w, m.Lawful)
    (loaded : (load input).outcome w = (.ok (), u)) (worked : (work g rounds).outcome u = (ended, v)) :
    Orderly v := by
  obtain ⟨f, begins⟩ := begins_of_load loaded
  have first : (Course.take (.load input)).outcome w = (.ok (), u) :=
    (Course.outcome_take ..).trans loaded
  have runs := runs_moments (workCourse g rounds) u
  rw [follows_workCourse, worked] at runs
  refine runs.orderly (begins.orderly wf).1 (fun m hm => lawful m ?_)
    (workSteps_isWork.workCourse g rounds u)
  rw [buildCourse, Course.moments_andThen_ok first, Course.moments_andThen]
  exact List.mem_append_right _ (List.mem_append_left _ hm)

/-- A building ends where the grammar's part fails. -/
theorem outcome_build_of_error {f : Fault} (loaded : (load input).outcome w = (.ok (), u))
    (worked : (work g rounds).outcome u = (.error f, v)) :
    (build g rounds input).outcome w = (.error f, v) := by
  rw [build, outcome_bind, loaded]
  dsimp only
  rw [outcome_bind, worked]

/-- A building ends by handing out when the grammar has done its part. -/
theorem outcome_build_of_ok (loaded : (load input).outcome w = (.ok (), u))
    (worked : (work g rounds).outcome u = (.ok (), v)) :
    (build g rounds input).outcome w = handOut.outcome v := by
  rw [build, outcome_bind, loaded]
  dsimp only
  rw [outcome_bind, worked]

/-- A parse that has handed out its tree fails only if something put aside cannot be
discarded. -/
theorem exists_error_of_failed {report : Report} {w₁ : World σ} (idle : w.engine.parsing = false)
    (built : (build g rounds input).outcome ((enter override).outcome w).2 = (.ok (), w₁))
    (root : w₁.engine.root = none)
    (parsed : (parse g rounds input override).outcome w = (.ok report, w'))
    (failed : report.success = false) :
    ∃ e f, (discardAll w₁.engine.detached.reverse).run w₁.forest = .error e f := by
  obtain ⟨-, rep, l, ends, -, success, error, entries, product⟩ :=
    exists_outcome_parse idle (accepted_of_parse idle parsed) built
  rw [ends] at parsed
  rcases shape_of_concluded success error (product rfl) entries (congrArg Prod.fst parsed :) with
    succeeds | ⟨f, down, -⟩
  · rw [succeeds.1.success] at failed
    cases failed
  · rw [cleared, clearing, root, EStateM.run_bind] at down
    cases discarded : (discardAll w₁.engine.detached.reverse).run w₁.forest with
    | error e f => exact ⟨e, f, rfl⟩
    | ok _ f =>
        rw [discarded] at down
        cases down

end Parse

/-- When a parse has failed and no teardown below its root does, the tree is gone, node by node,
unless something that was put aside could not be discarded.  Then the tree is as it was. -/
theorem failed_parse_releases {g : Grammar σ} {rounds : Nat} {input : Input} {override : Option Text}
    {report : Report} {ended : Except Fault Unit} {u v : World σ} (idle : w.engine.Idle)
    (wf : w.forest.WellFormed) (lawful : ∀ m ∈ parseMoments g rounds input override w, m.Lawful)
    (parsed : (parse g rounds input override).outcome w = (.ok report, w'))
    (failed : report.success = false)
    (loaded : (load input).outcome ((enter override).outcome w).2 = (.ok (), u))
    (worked : (work g rounds).outcome u = (ended, v)) (root : v.engine.root = some r)
    (sturdy : ∀ x, v.forest.Over r x → (v.forest.node x).teardown? = none) :
    (¬ Stranded ended v → ∀ x, v.forest.Over r x → w'.forest.Released x)
      ∧ (Stranded ended v → ∀ x, v.forest.Over r x → w'.forest.node x = v.forest.node x) := by
  have orderly := orderly_of_lawful (w := ((enter override).outcome w).2) wf lawful loaded worked
  have accepted := accepted_of_parse idle.parsing parsed
  cases ended with
  | error fault =>
      have built := outcome_build_of_error loaded worked
      rw [forest_of_parse idle.parsing accepted built parsed]
      refine ⟨fun saved x hx => ?_, fun stranded x hx => ?_⟩
      · cases discarded : (discardAll v.engine.detached.reverse).run v.forest with
        | error e f => exact absurd ⟨nofun, e, f, discarded⟩ saved
        | ok _ f =>
            obtain ⟨f', clears, below, -⟩ := orderly.exists_clearing_of_root root sturdy discarded
            rw [Forest.after_of_ok clears]
            exact below x hx
      · obtain ⟨-, e, f, discarded⟩ := stranded
        exact orderly.node_clearing_of_error root discarded hx
  | ok _ =>
      have built := outcome_build_of_ok loaded worked
      cases output : v.engine.output.isNull with
      | true =>
          rw [handOut, outcome_engine, if_pos output] at built
          change (build g rounds input).outcome _ = (.ok (), _) at built
          have forest := forest_of_parse idle.parsing accepted built parsed
          rw [after_clearing_of_none rfl] at forest
          refine ⟨fun saved => ?_, fun _ x hx => ?_⟩
          · obtain ⟨e, f, discarded⟩ := exists_error_of_failed idle.parsing built rfl parsed failed
            exact absurd ⟨fun _ => output, e, f, discarded⟩ saved
          · rw [forest]
            exact node_discardAll _ orderly.wellFormed (orderly.root_parent root)
              (fun hm => orderly.root_notAside root (List.mem_reverse.mp hm)) x hx
      | false =>
          obtain ⟨f, destroyed, below, -⟩ := orderly.wellFormed.exists_destroy
            (orderly.root_parent root) (orderly.root r root).1 sturdy
          have wf' := orderly.wellFormed.after_destroy r
          rw [Forest.after_of_ok destroyed] at wf'
          rw [outcome_handOut_of_output output root destroyed] at built
          have forest := forest_of_parse idle.parsing accepted built parsed
          rw [after_clearing_of_none rfl] at forest
          refine ⟨fun _ x hx => ?_, fun stranded => ?_⟩
          · rw [forest]
            exact released_discardAll _ wf' (below x hx)
          · have null := stranded.1 rfl
            rw [output] at null
            cases null

/-- The bold node of a failed parse is gone, and so is the root. -/
theorem failed_parse_releases_unclosedPair : ∃ report w',
    (parse (Bold.treeGrammar Unit) 8 unclosedPair none).outcome strictStart = (.ok report, w')
      ∧ report.success = false ∧ w'.forest.Released 0 ∧ w'.forest.Released 1 := by
  obtain ⟨report, w', parsed, failed⟩ : ∃ report w', (parse (Bold.treeGrammar Unit) 8 unclosedPair
      none).outcome strictStart = (.ok report, w') ∧ report.success = false :=
    exists_of_report (by decide +kernel)
  have loaded : (load unclosedPair).outcome ((enter none).outcome strictStart).2
      = (.ok (), ((load unclosedPair).outcome ((enter none).outcome strictStart).2).2) := rfl
  generalize hu : ((load unclosedPair).outcome ((enter none).outcome strictStart).2).2 = u at loaded
  obtain ⟨⟨ended, v⟩, worked⟩ : ∃ out, (work (Bold.treeGrammar Unit) 8).outcome u = out := ⟨_, rfl⟩
  have facts : v.forest.Sturdy ∧ v.engine.root = some 0 ∧ v.engine.detached = []
      ∧ v.forest.parent 1 = some 0 := by
    rw [← show ((work (Bold.treeGrammar Unit) 8).outcome u).2 = v from congrArg Prod.snd worked, ← hu]
    decide +kernel
  obtain ⟨sturdy, root, aside, parent⟩ := facts
  have gone := (failed_parse_releases (atRest_make .strictMode none).idle (.of_size_eq_zero rfl)
    (by decide +kernel) parsed failed loaded worked root fun x _ => sturdy x).1 (by
      rintro ⟨-, e, f, discarded⟩
      rw [aside] at discarded
      cases discarded)
  exact ⟨report, w', parsed, failed, gone 0 (.refl _ 0), gone 1 (.of_parent parent)⟩

/-! ## A tree that is stranded -/

/-- Open a node whose teardown fails, and read it again as text. -/
def openFragile : Hook Unit Bool := do
  let form : Form := .custom { teardown := some (.raised .runtime "stuck" []) }
  let origin := some (← Hook.look).cursor
  let h ← Hook.edit (.create { typeName := "Element", kind := 40, form := form, origin := origin })
  let _ ← Hook.push (.node h)
  Hook.recover
  return true

/-- The grammar that does so at every opening mark, and refuses the finished tree. -/
def strandingGrammar : Grammar Unit :=
  { Bold.treeGrammar Unit with handleStatus := fun _ _ => openFragile, modifyTree := return false }

/-- The world when that grammar has done its part on one opening mark. -/
def strandedWorld : World Unit :=
  ((work strandingGrammar 4).outcome
    ((load (.text Bold.openMark)).outcome ((enter none).outcome { memory := () }).2).2).2

/-- No teardown below the root fails, and the parse does, and yet its whole tree survives it. -/
theorem failed_parse_strands_tree : strandedWorld.engine.root = some 0
    ∧ (∀ x, strandedWorld.forest.Over 0 x → (strandedWorld.forest.node x).teardown? = none)
    ∧ strandedWorld.forest.Over 0 2
    ∧ ∃ report w', (parse strandingGrammar 4 (.text Bold.openMark) none).outcome { memory := () }
        = (.ok report, w') ∧ report.success = false
      ∧ (w'.forest.node 0).destroyed = false ∧ (w'.forest.node 2).destroyed = false := by
  have aside : strandedWorld.forest.parent 1 = none := by decide +kernel
  have others : ∀ x < strandedWorld.forest.size, x ≠ 1 →
      (strandedWorld.forest.node x).teardown? = none := by decide +kernel
  refine ⟨by decide +kernel, fun x hx => ?_, .of_parent (by decide +kernel), ?_⟩
  · by_cases known : x < strandedWorld.forest.size
    · refine others x known ?_
      rintro rfl
      cases hx.eq_of_parent_none aside
    · rw [Forest.node_of_size_le (Nat.le_of_not_lt known)]
      rfl
  · have alive : ∀ x ∈ [0, 2], (((parse strandingGrammar 4 (.text Bold.openMark) none).outcome
        { memory := () }).2.forest.node x).destroyed = false := by decide +kernel
    obtain ⟨report, w', parsed, failed⟩ : ∃ report w', (parse strandingGrammar 4
        (.text Bold.openMark) none).outcome { memory := () } = (.ok report, w')
        ∧ report.success = false := exists_of_report (by decide +kernel)
    rw [parsed] at alive
    exact ⟨report, w', parsed, failed, alive 0 (by decide), alive 2 (by decide)⟩

end Engine

end Needlework
