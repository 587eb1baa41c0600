import Needlework.Proofs.Engine.Comparison
import Needlework.Proofs.Engine.Custody
import Needlework.Proofs.Engine.Lifecycle

/-!
# How a parse disposes of its nodes

When the hooks of a parse are over, every node in the engine's care is either handed out or
gone.

* A parse that hands out its tree leaves it as it is, node by node.  What was put aside and has
  no parent is destroyed, with everything below it.
* Any other parse destroys the tree as well.

*Order.*  The nodes put aside are destroyed one after the other, and a list of them may name a
node twice, or a node and another one below it.  A node that is gone stays gone, and two trees
without a common node do not touch each other, so the order does not matter
(`exists_discardAll`).
-/

namespace Needlework

namespace Engine

open Act

variable {σ : Type} {w w' : World σ} {r x : Handle}

/-! ## What is put aside -/

/-- Nothing is below two nodes without parents. -/
theorem not_over_of_over {f : Forest} {a b : Handle} (ha : f.parent a = none)
    (hb : f.parent b = none) (ne : a ≠ b) (below : f.Over a x) : ¬ f.Over b x := by
  intro also
  rcases below.total also with h | h
  · exact ne (h.eq_of_parent_none hb)
  · exact ne (h.eq_of_parent_none ha).symm

theorem steady_clearing (e : Engine) : Forest.Steady e.clearing := by
  refine .bind (steady_discardAll _) fun _ => ?_
  cases e.root with
  | none => exact .pure ()
  | some r => exact Forest.steady_destroy r

/-- When no teardown fails, what is put aside is destroyed.  Everything below a node that has no
parent and is not destroyed is released, and what is gone stays gone. -/
theorem exists_discardAll {f : Forest} (hs : List Handle) (wf : f.WellFormed) (sturdy : f.Sturdy)
    (known : ∀ d ∈ hs, d < f.size) :
    ∃ f', (discardAll hs).run f = .ok () f' ∧ (∀ x, f.Released x → f'.Released x)
      ∧ ∀ d ∈ hs, f.parent d = none → (f.node d).destroyed = false →
          ∀ x, f.Over d x → f'.Released x := by
  induction hs generalizing f with
  | nil => exact ⟨f, rfl, fun _ h => h, fun d hd => absurd hd List.not_mem_nil⟩
  | cons h hs ih =>
      have rest : ∀ d ∈ hs, d < f.size := fun d hd => known d (List.mem_cons_of_mem _ hd)
      rw [discardAll, EStateM.run_bind, EStateM.run_get]
      dsimp only
      by_cases free : ((f.node h).parent.isNone && !(f.node h).destroyed) = true
      case neg =>
        rw [if_neg free]
        obtain ⟨f', ended, stays, released⟩ := ih wf sturdy rest
        refine ⟨f', ended, stays, fun d hd top alive => ?_⟩
        rcases List.mem_cons.mp hd with rfl | hd
        · refine absurd ?_ free
          have top : (f.node d).parent = none := top
          rw [top, alive]
          rfl
        · exact released d hd top alive
      case pos =>
        have top : f.parent h = none := by
          rw [Bool.and_eq_true] at free
          exact Option.isNone_iff_eq_none.mp free.1
        obtain ⟨g, destroyed, below, others⟩ :=
          wf.exists_destroy top (known h List.mem_cons_self) fun x _ => sturdy x
        have origins := Forest.steady_destroy h f
        have wg := wf.after_destroy h
        rw [Forest.after_of_ok destroyed] at origins wg
        have sturdy' : g.Sturdy := sturdy.destroyed (known h List.mem_cons_self) origins others
        obtain ⟨f', ended, stays, released⟩ := ih wg sturdy' fun d hd =>
          Nat.lt_of_lt_of_le (rest d hd) origins.size
        rw [if_pos free, EStateM.run_bind, destroyed]
        refine ⟨f', ended, fun x gone => stays x ?_, fun d hd parent alive x hx => ?_⟩
        · by_cases hover : f.Over h x
          · exact below x hover
          · exact gone.of_node_eq (others x hover)
        · by_cases same : d = h
          · rw [same] at hx
            exact stays x (below x hx)
          -- The tree of another node without a parent has not been touched.
          have apart : ∀ y, f.Over d y → g.node y = f.node y := fun y hy =>
            others y (not_over_of_over parent top same hy)
          have hd := (List.mem_cons.mp hd).resolve_left same
          refine released d hd ?_ ?_ x ((wf.over_iff_of_node_eq wg apart).mpr hx)
          · rw [Forest.parent, apart d (.refl f d)]
            exact parent
          · rw [apart d (.refl f d)]
            exact alive

/-! ## Clearing -/

/-- A node is in the engine's care, or gone. -/
def Due (w : World σ) (x : Handle) : Prop := Owned w x ∨ w.forest.Released x

theorem Orderly.root_parent (orderly : Orderly w) (root : w.engine.root = some r) :
    w.forest.parent r = none :=
  orderly.wellFormed.rootFree r (orderly.root r root).2

theorem Orderly.root_notAside (orderly : Orderly w) (root : w.engine.root = some r) :
    r ∉ w.engine.detached := fun aside =>
  (orderly.aside r aside).2 (orderly.root r root).2

/-- What is put aside is alive, or gone altogether. -/
def Intact (w : World σ) : Prop :=
  ∀ d ∈ w.engine.detached, (w.forest.node d).destroyed = false ∨ w.forest.Released d

theorem Unharmed.intact (unharmed : Unharmed w) : Intact w := fun d hd => .inl (unharmed.aside d hd)

/-- Once what was put aside is discarded, the tree below the root goes, if none of its teardowns
fails.  The rest stays as the discarding has left it. -/
theorem exists_clearing_of_root (wf : w.forest.WellFormed) (root : w.engine.root = some r)
    (known : r < w.forest.size) (top : w.forest.parent r = none) (apart : r ∉ w.engine.detached)
    (sturdy : ∀ x, w.forest.Over r x → (w.forest.node x).teardown? = none) {g : Forest}
    (discarded : (discardAll w.engine.detached.reverse).run w.forest = .ok () g) :
    ∃ f, w.engine.clearing.run w.forest = .ok () f ∧ (∀ x, w.forest.Over r x → f.Released x)
      ∧ ∀ x, ¬ w.forest.Over r x → f.node x = g.node x := by
  have wg := wellFormed_discardAll w.engine.detached.reverse wf
  have same := node_discardAll w.engine.detached.reverse wf top fun hm =>
    apart (List.mem_reverse.mp hm)
  have origins := steady_discardAll w.engine.detached.reverse w.forest
  rw [Forest.after_of_ok discarded] at wg same origins
  have hover : ∀ {y}, g.Over r y ↔ w.forest.Over r y := wf.over_iff_of_node_eq wg same
  obtain ⟨f, destroyed, below, others⟩ := wg.exists_destroy (h := r)
    (by rw [Forest.parent, same r (.refl _ r)]; exact top) (Nat.lt_of_lt_of_le known origins.size)
    (fun y hy => by rw [same y (hover.mp hy)]; exact sturdy y (hover.mp hy))
  rw [clearing, EStateM.run_bind, discarded, root]
  exact ⟨f, destroyed, fun x hx => below x (hover.mpr hx), fun x hx => others x fun h => hx (hover.mp h)⟩

theorem Orderly.exists_clearing_of_root (orderly : Orderly w) (root : w.engine.root = some r)
    (sturdy : ∀ x, w.forest.Over r x → (w.forest.node x).teardown? = none) {g : Forest}
    (discarded : (discardAll w.engine.detached.reverse).run w.forest = .ok () g) :
    ∃ f, w.engine.clearing.run w.forest = .ok () f ∧ (∀ x, w.forest.Over r x → f.Released x)
      ∧ ∀ x, ¬ w.forest.Over r x → f.node x = g.node x :=
  Engine.exists_clearing_of_root orderly.wellFormed root (orderly.root r root).1
    (orderly.root_parent root) (orderly.root_notAside root) sturdy discarded

/-- When no teardown fails, everything that is due is gone in the end. -/
theorem Orderly.exists_clearing (orderly : Orderly w) (intact : Intact w)
    (sturdy : w.forest.Sturdy) : ∃ f, w.engine.clearing.run w.forest = .ok () f
      ∧ ∀ x, Due w x → f.Released x := by
  have wf := orderly.wellFormed
  obtain ⟨g, discarded, stays, released⟩ := exists_discardAll w.engine.detached.reverse wf sturdy
    fun d hd => (orderly.aside d (List.mem_reverse.mp hd)).1
  have aside : ∀ d ∈ w.engine.detached, w.forest.parent d = none → ∀ x, w.forest.Over d x →
      g.Released x := by
    intro d hd top x hx
    rcases intact d hd with alive | gone
    · exact released d (List.mem_reverse.mpr hd) top alive x hx
    · rw [wf.eq_of_over_childless gone.children hx]
      exact stays d gone
  have rest : ∀ x, (∀ r, w.engine.root = some r → ¬ w.forest.Over r x) → Due w x → g.Released x := by
    rintro x off ((⟨r, root, hx⟩ | ⟨d, hd, top, hx⟩) | gone)
    · exact absurd hx (off r root)
    · exact aside d hd top x hx
    · exact stays x gone
  cases root : w.engine.root with
  | none =>
      rw [clearing, EStateM.run_bind, discarded, root]
      refine ⟨g, rfl, fun x => rest x fun r hr => ?_⟩
      rw [root] at hr
      cases hr
  | some r =>
      obtain ⟨f, clears, below, others⟩ := orderly.exists_clearing_of_root root
        (fun x _ => sturdy x) discarded
      refine ⟨f, clears, fun x due => ?_⟩
      by_cases hx : w.forest.Over r x
      · exact below x hx
      · refine (rest x (fun r' hr' => ?_) due).of_node_eq (others x hx)
        rw [root] at hr'
        cases hr'
        exact hx

/-! ## Handing out -/

/-- An output is put into the report before the tree is destroyed. -/
theorem outcome_handOut (output : w.engine.output.isNull = false) :
    handOut.outcome w = (do
        destroyTree
        modifyEngine fun e => { e with root := none, stack := [] } : Act σ Unit).outcome
      (w.onEngine fun e => { e with report := e.report.map fun r => { r with output := e.output } }) := by
  rw [handOut, outcome_engine, output]
  rfl

/-- Handing out an output destroys the tree. -/
theorem outcome_handOut_of_output {f : Forest} (output : w.engine.output.isNull = false)
    (root : w.engine.root = some r) (destroyed : (Forest.destroy r).run w.forest = .ok () f) :
    handOut.outcome w = (.ok (), (w.withForest f).onEngine fun e => { e with
      report := e.report.map fun r => { r with output := e.output }, root := none, stack := [] }) := by
  rw [outcome_handOut output, outcome_bind, destroyTree, outcome_engine, World.engine_onEngine, root]
  dsimp only
  rw [outcome_tree, World.forest_onEngine, destroyed]
  rfl

/-- Without a tree behind the output nothing is handed out. -/
theorem after_handOut_of_none (output : w.engine.output.isNull = false)
    (root : w.engine.root = none) :
    (handOut.outcome w).2 = w.onEngine fun e =>
      { e with report := e.report.map fun r => { r with output := e.output } } := by
  rw [outcome_handOut output, outcome_bind, destroyTree, outcome_engine, World.engine_onEngine, root]
  rfl

/-- Handing out is lawful in itself: it lets go of the root or leaves everything as it was, but for
a destruction below the root. -/
theorem tends_handOut (tidy : Tidy w) : Tends w (handOut.outcome w).2 := by
  have wf := tidy.wellFormed
  rw [handOut, outcome_engine]
  split
  · exact .of_release wf (.refl _) rfl rfl rfl
  rw [modifyReport, outcome_modifyEngine, outcome_bind, destroyTree, outcome_engine,
    World.engine_onEngine]
  cases root : w.engine.root with
  | none => exact .of_forest tidy wf (.refl _) rfl rfl rfl
  | some r =>
      have wf' := wf.after_destroy r
      have origins := Forest.steady_destroy r w.forest
      dsimp only
      rw [outcome_tree, World.forest_onEngine]
      cases destroyed : (Forest.destroy r).run w.forest with
      | ok _ f =>
          rw [Forest.after_of_ok destroyed] at wf' origins
          exact .of_release wf' origins rfl rfl rfl
      | error e f =>
          rw [Forest.after_of_error destroyed] at wf' origins
          exact .of_forest tidy wf' origins rfl rfl rfl

/-- When no teardown fails, handing out an output releases the tree and keeps what is put aside
in care. -/
theorem Orderly.handOut_of_output (orderly : Orderly w) (unharmed : Unharmed w)
    (sturdy : w.forest.Sturdy) (output : w.engine.output.isNull = false)
    (ended : (handOut.outcome w).2 = w') : Intact w' ∧ ∀ x, Owned w x → Due w' x := by
  have wf := orderly.wellFormed
  cases root : w.engine.root with
  | none =>
      rw [after_handOut_of_none output root] at ended
      subst ended
      exact ⟨unharmed.intact, fun x owned => .inl owned⟩
  | some r =>
  obtain ⟨f, destroyed, below, others⟩ := wf.exists_destroy (orderly.root_parent root)
    (orderly.root r root).1 fun x _ => sturdy x
  have wg := wf.after_destroy r
  rw [Forest.after_of_ok destroyed] at wg
  rw [outcome_handOut_of_output output root destroyed] at ended
  subst ended
  refine ⟨fun d hd => ?_, fun x owned => ?_⟩
  · by_cases under : w.forest.Over r d
    · exact .inr (below d under)
    · left
      rw [World.forest_onEngine, World.forest_withForest, others d under]
      exact unharmed.aside d hd
  · rcases owned with ⟨r', root', hx⟩ | ⟨d, hd, top, hx⟩
    · rw [root] at root'
      cases root'
      exact .inr (below x hx)
    · -- The tree below the node put aside has no node in common with the tree below the root.
      have apart : ∀ y, w.forest.Over d y → f.node y = w.forest.node y := by
        intro y hy
        refine others y (not_over_of_over top (orderly.root_parent root) (fun same => ?_) hy)
        exact orderly.root_notAside root (same ▸ hd)
      refine .inl (.inr ⟨d, hd, ?_, (wf.over_iff_of_node_eq wg apart).mpr hx⟩)
      rw [World.forest_onEngine, World.forest_withForest, Forest.parent, apart d (.refl _ d)]
      exact top

theorem Unharmed.handOut_of_null (unharmed : Unharmed w) (output : w.engine.output.isNull = true)
    (ended : (handOut.outcome w).2 = w') : Intact w' := by
  rw [handOut, outcome_engine, if_pos output] at ended
  subst ended
  exact unharmed.intact

/-! ## Whole parses -/

theorem Runs.eq_of_nil (h : Runs w [] w') : w' = w := by
  cases h
  rfl

theorem Runs.after_head {m : Moment σ} {ms : List (Moment σ)} (h : Runs w (m :: ms) w') :
    Runs m.after ms w' := by
  cases h with
  | cons h => exact h

theorem Runs.unique {ms : List (Moment σ)} {v v' : World σ} (h : Runs w ms v) (h' : Runs w ms v') :
    v' = v := by
  induction h with
  | nil => exact h'.eq_of_nil
  | cons _ ih => exact ih h'.after_head

/-- A run in two parts, of which hooks have no part in the second. -/
theorem Runs.owned_of_split {u v v' : World σ} {past rest : List (Moment σ)}
    (runs : Runs u (past ++ rest) v') (first : Runs u past v) (orderly : Orderly u)
    (gentle : ∀ m ∈ past ++ rest, m.Gentle) (isWork : ∀ m ∈ past ++ rest, m.step.IsWork)
    (silent : ∀ m ∈ rest, m.step.IsSilent) (owned : Owned v x) : Owned v' x := by
  obtain ⟨v₁, first', second⟩ := runs.exists_of_append
  cases first.unique first'
  have middle := first.orderly orderly (fun m hm => (gentle m (List.mem_append_left _ hm)).1)
    fun m hm => isWork m (List.mem_append_left _ hm)
  exact second.owned middle silent (fun m hm => isWork m (List.mem_append_right _ hm)) owned

/-- The forest that a parse leaves behind is the one that its teardown leaves. -/
theorem forest_of_parse {g : Grammar σ} {rounds : Nat} {input : Input} {override : Option Text}
    {out : Except Fault Report} {ended : Except Fault Unit} {w₁ : World σ}
    (idle : w.engine.parsing = false) (accepted : ∀ x, input ≠ .other x)
    (built : (build g rounds input).outcome ((enter override).outcome w).2 = (ended, w₁))
    (parsed : (parse g rounds input override).outcome w = (out, w')) :
    w'.forest = w₁.forest.after w₁.engine.clearing := by
  obtain ⟨-, r, l, ends, -⟩ := exists_outcome_parse idle accepted built
  rw [ends] at parsed
  cases parsed
  show (cleared w₁).2 = _
  rw [cleared, Forest.after]
  cases w₁.engine.clearing.run w₁.forest <;> rfl

theorem after_clearing_of_none {e : Engine} (root : e.root = none) (f : Forest) :
    f.after e.clearing = f.after (discardAll e.detached.reverse) := by
  rw [clearing, root, Forest.after_bind, Forest.after]
  cases (discardAll e.detached.reverse).run f <;> rfl

theorem accepted_of_load {input : Input} {u : Unit} (h : (load input).outcome w = (.ok u, w')) :
    ∀ x, input ≠ .other x := by
  rintro x rfl
  cases h

theorem not_owned (root : w.engine.root = none) (aside : w.engine.detached = []) : ¬ Owned w x := by
  rintro (⟨r, hr, -⟩ | ⟨d, hd, -⟩)
  · rw [root] at hr
    cases hr
  · rw [aside] at hd
    cases hd

section Parse

variable {g : Grammar σ} {rounds : Nat} {input : Input} {override : Option Text}
  {out : Except Fault Report} {u v : World σ}

/-- A building that has handed out a tree is reported with that tree, when no teardown fails. -/
theorem tree_of_handOut {ended : Except Fault Unit} {w₁ : World σ}
    (idle : w.engine.parsing = false) (accepted : ∀ x, input ≠ .other x)
    (built : (build g rounds input).outcome ((enter override).outcome w).2 = (ended, w₁))
    (parsed : (parse g rounds input override).outcome w = (out, w'))
    (handed : handOut.outcome v = (ended, w₁)) (output : v.engine.output.isNull = true)
    {f : Forest} (clears : w₁.engine.clearing.run w₁.forest = .ok () f) :
    ∃ report, out = .ok report ∧ report.tree = v.engine.root := by
  obtain ⟨-, rep, l, ends, hrep, -⟩ := exists_outcome_parse idle accepted built
  rw [handOut, outcome_engine, if_pos output] at handed
  cases handed
  have tree : rep.tree = v.engine.root := by
    obtain ⟨r, -, rfl⟩ := Option.map_eq_some_iff.mp hrep
    rfl
  rw [ends] at parsed
  cases parsed
  rw [cleared, clears, concluded, settledBy]
  refine ⟨_, rfl, ?_⟩
  rw [counted]
  split
  · exact tree
  · exact tree

/-- The work of gentle hooks leaves the world in order. -/
theorem orderly_of_work {ms : List (Moment σ)} (wf : w.forest.WellFormed)
    (loaded : (load input).outcome w = (.ok (), u)) (runs : Runs u ms v)
    (gentle : ∀ m ∈ ms, m.Gentle) (isWork : ∀ m ∈ ms, m.step.IsWork) :
    Orderly v ∧ Unharmed v := by
  obtain ⟨f, begins⟩ := begins_of_load loaded
  obtain ⟨orderly, unharmed⟩ := begins.orderly wf
  exact ⟨runs.orderly orderly (fun m hm => (gentle m hm).1) isWork,
    runs.unharmed orderly unharmed gentle isWork⟩

/-- Every node that is in care when the hooks are over is due when the building ends, unless a
tree is handed out. -/
theorem due_of_owned {ended : Except Fault Unit} (root : w.engine.root = none)
    (aside : w.engine.detached = []) (wf : w.forest.WellFormed)
    (built : (build g rounds input).outcome w = (ended, w'))
    (sturdy : (∀ y, input ≠ .other y) → w'.forest.Sturdy)
    {past rest : List (Moment σ)} (moments : (buildCourse g rounds input).moments w = past ++ rest)
    (gentle : ∀ m ∈ past ++ rest, m.Gentle) (first : Runs w past v)
    (silent : ∀ m ∈ rest, m.step.IsSilent) (owned : Owned v x) :
    (∀ y, input ≠ .other y) ∧ Orderly w' ∧ Intact w' ∧ (Due w' x ∨ ∃ u, handOut.outcome u = (ended, w')
      ∧ u.engine.output.isNull = true ∧ u.engine.root.isSome = true) := by
  have stages := stages_of_build built
  rw [moments] at stages
  -- Nothing is in care before the text is set, so that a first step has been taken.
  cases past with
  | nil =>
      rw [first.eq_of_nil] at owned
      exact absurd owned (not_owned root aside)
  | cons m past =>
  have first := first.after_head
  rw [List.cons_append] at stages gentle
  have gentle' : ∀ k ∈ past ++ rest, k.Gentle := fun k hk => gentle k (List.mem_cons_of_mem _ hk)
  generalize hms : past ++ rest = ms at stages gentle'
  cases stages with
  | unread failed =>
      obtain ⟨rfl, rfl⟩ := List.append_eq_nil_iff.mp hms
      have still : Unmoved w v := by
        rw [first.eq_of_nil, show Moment.after ⟨.load input, w⟩ = w' from congrArg Prod.snd failed]
        exact unmoved_of_load root aside failed
      exact absurd owned (not_owned (still.root.trans root) (still.detached.trans aside))
  | @broken f u _ loaded worked =>
      rw [show Moment.after ⟨.load input, w⟩ = u from congrArg Prod.snd loaded] at first
      have runs := runs_moments (workCourse g rounds) u
      have isWork := workSteps_isWork.workCourse g rounds u
      obtain ⟨orderly, unharmed⟩ := orderly_of_work wf loaded runs gentle' isWork
      rw [worked] at runs orderly unharmed
      refine ⟨accepted_of_load loaded, orderly, unharmed.intact, .inl (.inl ?_)⟩
      obtain ⟨f, begins⟩ := begins_of_load loaded
      rw [← hms] at runs gentle' isWork
      exact runs.owned_of_split first (begins.orderly wf).1 gentle' isWork silent owned
  | @worked _ u v₂ _ loaded worked handed =>
      rw [show Moment.after ⟨.load input, w⟩ = u from congrArg Prod.snd loaded] at first
      have runs := runs_moments (workCourse g rounds) u
      have isWork := workSteps_isWork.workCourse g rounds u
      have gentle₂ : ∀ k ∈ (workCourse g rounds).moments u, k.Gentle := fun k hk =>
        gentle' k (List.mem_append_left _ hk)
      obtain ⟨orderly, unharmed⟩ := orderly_of_work wf loaded runs gentle₂ isWork
      rw [worked] at runs orderly unharmed
      have tends := tends_handOut orderly.toTidy
      rw [handed] at tends
      have sturdy₂ := (sturdy (accepted_of_load loaded)).of_originsKept tends.origins
      refine ⟨accepted_of_load loaded, orderly.tends tends, ?_⟩
      cases output : v₂.engine.output.isNull with
      | true =>
          have intact := unharmed.handOut_of_null output (congrArg Prod.snd handed)
          refine ⟨intact, .inr ⟨v₂, handed, output, ?_⟩⟩
          obtain ⟨f, begins⟩ := begins_of_load loaded
          have rooted := isSome_root_work (w := u) g rounds (by rw [begins.root]; rfl)
            fun m hm => Moment.Lawful.ne_rootless (gentle₂ m hm).1
          rw [← follows_workCourse, worked] at rooted
          exact rooted
      | false =>
          obtain ⟨intact, due⟩ := orderly.handOut_of_output unharmed sturdy₂ output
            (congrArg Prod.snd handed)
          refine ⟨intact, .inl ?_⟩
          rcases List.eq_nil_or_concat rest with rfl | ⟨rest, m', rfl⟩
          · rw [← hms] at gentle'
            rw [List.append_nil] at hms
            rw [hms] at first
            obtain ⟨v₁, before, last⟩ := first.exists_of_append
            cases runs.unique before
            rw [last.after_head.eq_of_nil, show Moment.after ⟨.handOut, v₂⟩ = w' from
              congrArg Prod.snd handed] at owned
            exact .inl owned
          · rw [List.concat_eq_append, ← List.append_assoc] at hms
            have front := (List.append_inj' hms rfl).1
            rw [← front] at runs gentle₂ isWork
            obtain ⟨f, begins⟩ := begins_of_load loaded
            refine due x (runs.owned_of_split first (begins.orderly wf).1 gentle₂ isWork ?_ owned)
            intro k hk
            refine silent k ?_
            rw [List.concat_eq_append]
            exact List.mem_append_left _ hk

/-- If no tree is handed out, every node that is in care when the hooks are over is gone in the
end. -/
theorem released_of_owned (idle : w.engine.Idle) (wf : w.forest.WellFormed)
    (gentle : ∀ m ∈ parseMoments g rounds input override w, m.Gentle)
    (parsed : (parse g rounds input override).outcome w = (out, w')) (sturdy : w'.forest.Sturdy)
    {past rest : List (Moment σ)} (split : parseMoments g rounds input override w = past ++ rest)
    (first : Runs ((enter override).outcome w).2 past v) (silent : ∀ m ∈ rest, m.step.IsSilent)
    (noTree : ∀ report, out = .ok report → report.tree = none) (owned : Owned v x) :
    w'.forest.Released x := by
  obtain ⟨⟨ended, w₁⟩, built⟩ : ∃ out, (build g rounds input).outcome ((enter override).outcome w).2
      = out := ⟨_, rfl⟩
  have sturdy₁ : (∀ y, input ≠ .other y) → w₁.forest.Sturdy := by
    intro accepted
    rw [forest_of_parse idle.parsing accepted built parsed] at sturdy
    exact sturdy.of_originsKept (steady_clearing _ w₁.forest)
  rw [parseMoments] at split gentle
  rw [split] at gentle
  obtain ⟨accepted, orderly, intact, due⟩ := due_of_owned (w := ((enter override).outcome w).2)
    idle.root idle.detached wf built sturdy₁ split gentle first silent owned
  obtain ⟨f, clears, released⟩ := orderly.exists_clearing intact (sturdy₁ accepted)
  rw [forest_of_parse idle.parsing accepted built parsed, Forest.after_of_ok clears]
  rcases due with due | ⟨u, handed, output, rooted⟩
  · exact released x due
  · obtain ⟨report, returned, tree⟩ := tree_of_handOut idle.parsing accepted built parsed handed output
      clears
    rw [← tree, noTree report returned] at rooted
    cases rooted

/-- A building that leaves a tree in the report has done its work and handed out its root. -/
theorem exists_of_tree_build {ended : Except Fault Unit} {rep rep' : Report}
    (hrep : w.engine.report = some rep) (blank : Blank rep)
    (built : (build g rounds input).outcome w = (ended, w'))
    (hrep' : w'.engine.report = some rep') (tree : rep'.tree = some r) :
    ∃ u v, (load input).outcome w = (.ok (), u) ∧ (workCourse g rounds).outcome u = (.ok (), v)
      ∧ (buildCourse g rounds input).moments w
        = (⟨.load input, w⟩ :: (workCourse g rounds).moments u) ++ [⟨.handOut, v⟩]
      ∧ ended = .ok () ∧ v.engine.root = some r ∧ w' = v.onEngine fun e => { e with
        report := e.report.map fun r => { r with tree := e.root }, root := none, stack := [] } := by
  have stages := stages_of_build built
  generalize (buildCourse g rounds input).moments w = ms at stages ⊢
  obtain ⟨r₁, hr₁, blank₁⟩ := (sameVerdict_load input w).exists_blank hrep blank
  have untouched : ∀ {rep : Report} {v : World σ}, v.engine.report = some rep → Blank rep →
      v.engine.report ≠ some rep' := by
    intro rep v hv blank hv'
    rw [hv] at hv'
    cases hv'
    rw [show rep'.tree = none from blank.2.2.1] at tree
    cases tree
  cases stages with
  | unread failed =>
      rw [failed] at hr₁
      exact absurd hrep' (untouched hr₁ blank₁)
  | @broken f u _ loaded worked =>
      rw [loaded] at hr₁
      obtain ⟨r₂, hr₂, blank₂⟩ := (sameVerdict_work g rounds u).exists_blank hr₁ blank₁
      rw [← follows_workCourse, worked] at hr₂
      exact absurd hrep' (untouched hr₂ blank₂)
  | @worked _ u v _ loaded worked handed =>
      rw [loaded] at hr₁
      obtain ⟨r₂, hr₂, blank₂⟩ := (sameVerdict_work g rounds u).exists_blank hr₁ blank₁
      rw [← follows_workCourse, worked] at hr₂
      have reported := report_handOut hr₂
      rw [handed, hrep'] at reported
      refine ⟨u, v, loaded, worked, rfl, ?_⟩
      cases output : v.engine.output.isNull with
      | false =>
          rw [output] at reported
          cases reported
          rw [show r₂.tree = none from blank₂.2.2.1] at tree
          cases tree
      | true =>
          rw [output] at reported
          cases reported
          rw [handOut, outcome_engine, if_pos output] at handed
          cases handed
          exact ⟨rfl, tree, rfl⟩

/-- A tree that is handed out was the engine's when the hooks were over, and after that only what
was put aside has been destroyed. -/
theorem exists_of_tree {report : Report} (idle : w.engine.Idle) (wf : w.forest.WellFormed)
    (gentle : ∀ m ∈ parseMoments g rounds input override w, m.Gentle)
    (parsed : (parse g rounds input override).outcome w = (.ok report, w'))
    (tree : report.tree = some r) :
    ∃ past v, parseMoments g rounds input override w = past ++ [⟨.handOut, v⟩]
      ∧ v.engine.root = some r ∧ Orderly v ∧ Unharmed v
      ∧ w'.forest = v.forest.after (discardAll v.engine.detached.reverse) := by
  obtain ⟨⟨ended, w₁⟩, built⟩ : ∃ out, (build g rounds input).outcome ((enter override).outcome w).2
      = out := ⟨_, rfl⟩
  have accepted := accepted_of_parse idle.parsing parsed
  have forest := forest_of_parse idle.parsing accepted built parsed
  obtain ⟨-, rep, l, ends, hrep, -⟩ := exists_outcome_parse idle.parsing accepted built
  rw [ends] at parsed
  have handed := tree_of_concluded (congrArg Prod.fst parsed :) tree
  obtain ⟨u, v, loaded, worked, moments, -, root, rfl⟩ :=
    exists_of_tree_build (w := ((enter override).outcome w).2) rfl ⟨rfl, rfl, rfl, rfl⟩ built hrep handed
  rw [parseMoments, moments] at gentle
  have runs := runs_moments (workCourse g rounds) u
  obtain ⟨orderly, unharmed⟩ := orderly_of_work (w := ((enter override).outcome w).2) wf loaded runs
    (fun m hm => gentle m (List.mem_append_left _ (List.mem_cons_of_mem _ hm)))
    (workSteps_isWork.workCourse g rounds u)
  rw [worked] at orderly unharmed
  refine ⟨_, v, moments, root, orderly, unharmed, forest.trans ?_⟩
  exact after_clearing_of_none rfl v.forest

end Parse

/-- When the hooks of a parse are over, what is in the engine's care is handed out or gone.  If no
tree is handed out, every node in care is destroyed and linked to nothing in the end.  A tree
that is handed out is as it was, with every node and link, and whatever is below a node that
is put aside and has no parent is destroyed. -/
theorem parse_disposes {g : Grammar σ} {rounds : Nat} {input : Input} {override : Option Text}
    {out : Except Fault Report} (idle : w.engine.Idle) (wf : w.forest.WellFormed)
    (gentle : ∀ m ∈ parseMoments g rounds input override w, m.Gentle)
    (parsed : (parse g rounds input override).outcome w = (out, w')) (sturdy : w'.forest.Sturdy) :
    (∀ past rest v, parseMoments g rounds input override w = past ++ rest →
        Runs ((enter override).outcome w).2 past v → (∀ m ∈ rest, m.step.IsSilent) →
        (∀ report, out = .ok report → report.tree = none) →
        ∀ x, Owned v x → w'.forest.Released x)
      ∧ ∀ report r, out = .ok report → report.tree = some r →
          ∃ past v, parseMoments g rounds input override w = past ++ [⟨.handOut, v⟩]
            ∧ v.engine.root = some r ∧ (∀ x, w'.forest.Over r x ↔ v.forest.Over r x)
            ∧ (∀ x, v.forest.Over r x → w'.forest.node x = v.forest.node x
              ∧ (w'.forest.node x).destroyed = false)
            ∧ w'.forest.violations r = []
            ∧ ∀ d ∈ v.engine.detached, v.forest.parent d = none → ∀ x, v.forest.Over d x →
                w'.forest.Released x := by
  refine ⟨fun past rest v split first silent noTree x owned => ?_, fun report r returned tree => ?_⟩
  · exact released_of_owned idle wf gentle parsed sturdy split first silent noTree owned
  subst returned
  obtain ⟨past, v, moments, root, orderly, unharmed, forest⟩ := exists_of_tree idle wf gentle parsed tree
  have aside : r ∉ v.engine.detached.reverse := fun hm =>
    orderly.root_notAside root (List.mem_reverse.mp hm)
  have same := node_discardAll v.engine.detached.reverse orderly.wellFormed
    (orderly.root_parent root) aside
  have wf' := wellFormed_discardAll v.engine.detached.reverse orderly.wellFormed
  have origins := steady_discardAll v.engine.detached.reverse v.forest
  rw [← forest] at same wf' origins
  have known : r < w'.forest.size := Nat.lt_of_lt_of_le (orderly.root r root).1 origins.size
  refine ⟨past, v, moments, root, fun x => orderly.wellFormed.over_iff_of_node_eq wf' same,
    fun x hx => ⟨same x hx, ?_⟩, wf'.violations_eq_nil known, fun d hd top x hx => ?_⟩
  · rw [same x hx]
    rcases Forest.over_iff.mp hx with rfl | ⟨p, hp, -⟩
    · exact unharmed.root r root
    · rw [← Bool.not_eq_true]
      intro destroyed
      rw [orderly.wellFormed.destroyedFree x destroyed] at hp
      cases hp
  · obtain ⟨f, discarded, -, released⟩ := exists_discardAll v.engine.detached.reverse
      orderly.wellFormed (sturdy.of_originsKept origins)
      fun d hd => (orderly.aside d (List.mem_reverse.mp hd)).1
    rw [forest, Forest.after_of_ok discarded]
    exact released d (List.mem_reverse.mpr hd) top (unharmed.aside d hd) x hx

/-! ## Two bold texts, put aside and nested -/

/-- Put the newest of the nodes put aside below the one before it. -/
def nestAside : Hook Unit Bool := do
  match (← Hook.look).detached with
  | newest :: before :: _ =>
      let _ ← Hook.edit (.append before (.node newest))
      return true
  | _ => return true

/-- The grammar of bold text that nests what was put aside. -/
def nestingGrammar : Grammar Unit := { Bold.treeGrammar Unit with modifyTree := nestAside }

/-- Two bold texts in a row that are never closed. -/
def unclosedPair : Input := .text (Text.ofChars ['[', 'b', ']', 'x', '[', 'b', ']', 'y'])

/-- The lenient parse hands out its tree, and both bold nodes are gone although one is below the
other.  The strict parse fails, and its root and its bold node are gone. -/
theorem parse_disposes_nested :
    (∃ report w', (parse nestingGrammar 8 unclosedPair none).outcome { memory := () }
        = (.ok report, w') ∧ report.tree = some 0 ∧ w'.forest.violations 0 = []
        ∧ (w'.forest.node 0).destroyed = false ∧ w'.forest.Released 1 ∧ w'.forest.Released 3)
      ∧ ∃ report w', (parse nestingGrammar 8 unclosedPair none).outcome strictStart
        = (.ok report, w') ∧ report.success = false ∧ w'.forest.Released 0
        ∧ w'.forest.Released 1 := by
  constructor
  · obtain ⟨report, w', parsed, tree⟩ : ∃ report w', (parse nestingGrammar 8 unclosedPair none).outcome
        { memory := () } = (.ok report, w') ∧ report.tree = some 0 := exists_of_report (by decide +kernel)
    have sturdy : ((parse nestingGrammar 8 unclosedPair none).outcome
        { memory := () }).2.forest.Sturdy := by decide +kernel
    rw [parsed] at sturdy
    obtain ⟨past, v, moments, -, -, same, violations, aside⟩ := (parse_disposes (atRest_make {} none).idle
      (.of_size_eq_zero rfl) (by decide +kernel) parsed sturdy).2 report 0 rfl tree
    have last : (parseMoments nestingGrammar 8 unclosedPair none { memory := () }).getLast?.map
        (fun m => (m.before.engine.detached, m.before.forest.parent 1, m.before.forest.parent 3))
        = some ([3, 1], none, some 1) := by decide +kernel
    rw [moments, List.getLast?_concat, Option.map_some] at last
    obtain ⟨detached, top, nested⟩ : v.engine.detached = [3, 1] ∧ v.forest.parent 1 = none
        ∧ v.forest.parent 3 = some 1 := by simpa using last
    have gone := aside 1 (by rw [detached]; decide) top
    exact ⟨report, w', parsed, tree, violations, (same 0 (.refl _ 0)).2, gone 1 (.refl _ 1),
      gone 3 (.of_parent nested)⟩
  · obtain ⟨report, w', parsed, read⟩ : ∃ report w', (parse nestingGrammar 8 unclosedPair none).outcome
        strictStart = (.ok report, w') ∧ (report.success, report.tree) = (false, none) :=
      exists_of_report (by decide +kernel)
    obtain ⟨failed, noTree⟩ := Prod.mk.inj read
    have sturdy : ((parse nestingGrammar 8 unclosedPair none).outcome strictStart).2.forest.Sturdy := by
      decide +kernel
    rw [parsed] at sturdy
    have gone := (parse_disposes (atRest_make .strictMode none).idle (.of_size_eq_zero rfl)
      (by decide +kernel) parsed sturdy).1 _ [] _ (List.append_nil _).symm
      (runs_moments (buildCourse nestingGrammar 8 unclosedPair) ((enter none).outcome strictStart).2)
      (by simp) (by rintro _ ⟨⟩; exact noTree)
    refine ⟨report, w', parsed, failed, gone 0 (.inl ⟨0, ?_, .refl _ 0⟩),
      gone 1 (.inl ⟨0, ?_, .of_parent ?_⟩)⟩
    · decide +kernel
    · decide +kernel
    · decide +kernel

end Engine

end Needlework
