import Needlework.Proofs.Engine.Disposal
import Needlework.Proofs.Engine.Lifecycle
import Needlework.Proofs.Engine.SourcePreservation
import Needlework.Proofs.Forest.Seclusion

/-!
# What a parse leaves alone

A parse grows the forest at its end.  When the hooks handle no nodes but those that came up in
their own parse, no node from before is touched, however the parse ends
(`parse_leaves_older_nodes`).  So a tree that was handed out stays as it is while other parses
follow, by this engine or another (`Parsed`).

*In scope.*  An idle engine refers to no node but those that an interrupted teardown has left
open, and these are forgotten when the text is set.  A step goes on from what the engine and the hook
refer to, and it stays among the nodes that are secluded there.  That the scope is kept is what
a likeness says of two worlds.  Here both are the same world (`keeping`).

*The tree.*  The root is a new node, and a hook may put no other in its place than a node of this
parse.  So the tree of a report is in the forest and was made in its parse (`made_of_tree`).
-/

namespace Needlework

namespace Engine

open Act Relation

variable {σ : Type} {w w' : World σ} {P : Forest → Prop} {In : Handle → Prop}

/-! ## Steps in scope -/

/-- The operations of a hook that names nodes in scope only, and makes no other root than one of
the forest.  Status switches and recoveries do not come as operations. -/
def ScopedOp (f : Forest) (In : Handle → Prop) : Op σ → Prop
  | .push n => n.Scoped In
  | .edit e => e.Scoped In
  | .tamper t => t.Scoped In
  | .assign (.root r) => ∀ h ∈ r, In h ∧ h < f.size
  | .assign (.stack hs) => ∀ h ∈ hs, In h
  | .setStatus _ | .recover => False
  | _ => True

/-- A step of a parse whose hooks name nodes in scope only. -/
def Moment.Scoped (In : Handle → Prop) (m : Moment σ) : Prop :=
  match m.step with
  | .op o => ScopedOp m.before.forest In o
  | _ => True

instance (f : Forest) [DecidablePred In] : DecidablePred (ScopedOp f In : Op σ → Prop)
  | .push n => inferInstanceAs (Decidable (n.Scoped In))
  | .edit e => inferInstanceAs (Decidable (e.Scoped In))
  | .tamper t => inferInstanceAs (Decidable (t.Scoped In))
  | .assign (.root r) => inferInstanceAs (Decidable (∀ h ∈ r, In h ∧ h < f.size))
  | .assign (.stack hs) => inferInstanceAs (Decidable (∀ h ∈ hs, In h))
  | .setStatus _ | .recover => inferInstanceAs (Decidable False)
  | .look | .strictness | .memory | .remember _ | .pop | .appendText _ _ | .closeOpen
  | .assign (.strict _) | .assign (.output _) | .assign (.cursor _) | .assign (.status _)
  | .assign (.needles _) | .assign (.text _) | .assign .newRoot | .assign .dropTop
  | .postfilter _ | .parse _ _ => inferInstanceAs (Decidable True)

instance [DecidablePred In] : DecidablePred (Moment.Scoped In : Moment σ → Prop)
  | ⟨.op o, w⟩ => inferInstanceAs (Decidable (ScopedOp w.forest In o))
  | ⟨.enter _, _⟩ | ⟨.withdraw, _⟩ | ⟨.resume _ _, _⟩ | ⟨.beginRound, _⟩ | ⟨.approach _, _⟩
  | ⟨.accept _, _⟩ | ⟨.reject _ _, _⟩ | ⟨.appendRest, _⟩ | ⟨.load _, _⟩ | ⟨.reportOpen, _⟩
  | ⟨.handOut, _⟩ => inferInstanceAs (Decidable True)

theorem ScopedOp.isPlain {f : Forest} {o : Op σ} (within : ScopedOp f In o) : IsPlain o := by
  cases o with
  | setStatus n => exact within.elim
  | recover => exact within.elim
  | _ => trivial

/-- Without a scope there is hardly a condition. -/
theorem Moment.Scoped.anywhere {m : Moment σ} (within : m.Scoped In) :
    m.Scoped fun _ => True := by
  obtain ⟨step, w⟩ := m
  cases step with
  | op o =>
      change ScopedOp w.forest In o at within
      cases o with
      | push n => exact Arg.scoped_of_forall (fun _ => trivial) n
      | edit e => exact Edit.scoped_of_forall (fun _ => trivial) e
      | tamper t => exact Tamper.scoped_of_forall (fun _ => trivial) t
      | setStatus n => exact within.elim
      | recover => exact within.elim
      | assign a =>
          cases a with
          | root r => exact fun h hh => ⟨trivial, (within h hh).2⟩
          | stack hs => exact fun _ _ => trivial
          | _ => trivial
      | _ => trivial
  | _ => trivial

/-! ## One world beside itself -/

/-- A forest has a property, and the engine refers to nodes in scope only. -/
structure Kept (P : Forest → Prop) (In : Handle → Prop) (w : World σ) : Prop where
  forest : P w.forest
  inScope : w.engine.Scoped In

/-- The likeness of every world with itself, as long as its forest has a property. -/
def keeping (twins : Forest.Twins (fun f f' => f' = f ∧ P f) In fun _ => True) : Likeness σ :=
  .across twins fun s s' => s' = s

section Keeping

variable (twins : Forest.Twins (fun f f' => f' = f ∧ P f) In fun _ => True)

include twins

theorem Kept.twin (kept : Kept P In w) : (keeping twins).Twin w w :=
  ⟨⟨rfl, kept.forest⟩, rfl, rfl, rfl, kept.inScope⟩

theorem Kept.of_twin {v : World σ} (twin : (keeping twins).Twin w v) : Kept P In w :=
  ⟨twin.forest.2, twin.inScope⟩

theorem ScopedOp.permits {f : Forest} {o : Op σ} (within : ScopedOp f In o) :
    (keeping twins).Permits o := by
  cases o with
  | strictness => exact Likeness.across_fair
  | closeOpen => exact Likeness.across_fair
  | remember s => rfl
  | push n => exact within
  | edit e => exact ⟨within, e.raises_of_forall fun _ => trivial⟩
  | tamper t => exact within
  | assign a =>
      cases a with
      | strict s => exact fun e e' h => (congrArg (fun e : Engine => { e with strict := s }) h :)
      | root r => exact fun h hh => (within h hh).1
      | stack hs => exact within
      | _ => trivial
  | _ => trivial

/-- When the text is set, the engine refers to its new root only. -/
theorem ready_of_load {input : Input} {out : Except Fault Unit} (ready : (keeping twins).Ready w w)
    (loaded : (Engine.load input).outcome w = (out, w')) :
    (keeping twins).Ready w' w' ∧ (out = .ok () → Kept P In w') := by
  rw [Likeness.outcome_load, outcome_bind] at loaded
  rcases (Likeness.agree_readText input ready).cases
    with ⟨text, _, v, v', read, read', -, ready⟩ | ⟨f, v, v', failed, failed', -, ready⟩
  · rw [read] at loaded read'
    cases read'
    change (Likeness.setText text).outcome v = _ at loaded
    have twin := (Likeness.agree_setText text ready).worlds
    rw [loaded] at twin
    exact ⟨twin.ready, fun _ => .of_twin twins twin⟩
  · rw [failed] at loaded failed'
    cases failed'
    cases loaded
    exact ⟨ready, nofun⟩

/-- A step whose nodes are in scope keeps a property that goes with the scope. -/
theorem Kept.after {m : Moment σ} (kept : Kept P In m.before) (isWork : m.step.IsWork)
    (within : m.Scoped In) : Kept P In m.after := by
  have twin := kept.twin twins
  have fair : (keeping twins : Likeness σ).Fair := Likeness.across_fair
  obtain ⟨step, w⟩ := m
  cases step with
  | enter call => exact kept
  | op o =>
      change ScopedOp w.forest In o at within
      exact .of_twin twins (Likeness.agree_op within.isPlain (within.permits twins) twin).worlds
  | withdraw => exact .of_twin twins (Likeness.agree_withdraw twin).worlds
  | resume top origin =>
      refine .of_twin twins (Likeness.agree_resume_of_idOf (fun h => ?_) origin twin).worlds
      rw [h.1]
  | beginRound => exact .of_twin twins (Likeness.agree_beginRound twin).worlds
  | approach position => exact .of_twin twins (Likeness.agree_approach position twin).worlds
  | accept needle => exact .of_twin twins (Likeness.agree_accept needle twin).worlds
  | reject needle position =>
      exact .of_twin twins (Likeness.agree_reject fair needle position twin).worlds
  | appendRest => exact .of_twin twins (Likeness.agree_appendRest twin).worlds
  | load input => exact isWork.elim
  | reportOpen => exact .of_twin twins (Likeness.agree_reportOpen fair twin).worlds
  | handOut => exact isWork.elim

theorem Runs.kept {ms : List (Moment σ)} (runs : Runs w ms w') (kept : Kept P In w)
    (isWork : ∀ m ∈ ms, m.step.IsWork) (within : ∀ m ∈ ms, m.Scoped In) : Kept P In w' := by
  induction runs with
  | nil => exact kept
  | cons _ ih =>
      exact ih (kept.after twins (isWork _ List.mem_cons_self) (within _ List.mem_cons_self))
        (fun m hm => isWork m (List.mem_cons_of_mem _ hm))
        fun m hm => within m (List.mem_cons_of_mem _ hm)

end Keeping

/-! ## The root -/

theorem kept_size (w : World σ) : Kept (w.forest.size ≤ ·.size) (fun _ => True) w :=
  ⟨Nat.le_refl _, fun _ _ => trivial, fun _ _ => trivial, fun _ _ => trivial, fun _ _ _ _ => trivial⟩

theorem Moment.size_le {m : Moment σ} (isWork : m.step.IsWork) (within : m.Scoped In) :
    m.before.forest.size ≤ m.after.forest.size :=
  ((kept_size m.before).after (Forest.twins_size_le _) isWork within.anywhere).forest

/-- The root is in the forest. -/
def Rooted (w : World σ) : Prop := ∀ r, w.engine.root = some r → r < w.forest.size

theorem Begins.rooted {f : Forest} (begins : Begins w w' f) : Rooted w' := by
  intro r hr
  rw [begins.root] at hr
  cases hr
  rw [begins.forest, Forest.size_add]
  exact Nat.lt_succ_self _

theorem Rooted.after {m : Moment σ} (rooted : Rooted m.before) (isWork : m.step.IsWork)
    (within : m.Scoped In) : Rooted m.after := by
  have kept : m.after.engine.root = m.before.engine.root → Rooted m.after := fun same r hr =>
    Nat.lt_of_lt_of_le (rooted r (same.symm.trans hr)) (m.size_le isWork within)
  by_cases noOp : ∀ o, m.step ≠ .op o
  · exact kept (root_after m isWork noOp)
  · obtain ⟨step, w⟩ := m
    obtain ⟨o, rfl⟩ := not_forall_not.mp noOp
    change ScopedOp w.forest In o at within
    by_cases old : SetsRoot o
    case neg => exact kept (root_op within.isPlain old)
    cases o with
    | assign a =>
        cases a with
        | newRoot =>
            intro r hr
            change ((assign .newRoot).outcome w).2.engine.root = _ at hr
            show r < ((assign .newRoot).outcome w).2.forest.size
            rw [outcome_newRoot] at hr ⊢
            cases hr
            rw [World.forest_onEngine, World.forest_withForest, Forest.size_add]
            exact Nat.lt_succ_self _
        | root r => exact fun h hh => (within h hh).2
        | _ => exact old.elim
    | _ => exact old.elim

theorem Runs.rooted {ms : List (Moment σ)} (runs : Runs w ms w') (rooted : Rooted w)
    (isWork : ∀ m ∈ ms, m.step.IsWork) (within : ∀ m ∈ ms, m.Scoped In) : Rooted w' := by
  induction runs with
  | nil => exact rooted
  | cons _ ih =>
      have next := rooted.after (isWork _ List.mem_cons_self) (within _ List.mem_cons_self)
      exact ih next (fun m hm => isWork m (List.mem_cons_of_mem _ hm))
        fun m hm => within m (List.mem_cons_of_mem _ hm)

/-! ## Parses -/

section Parse

variable {g : Grammar σ} {rounds : Nat} {input : Input} {override : Option Text}
  {out : Except Fault Report}

/-- However a building ends, the engine refers to new nodes, and these to each other. -/
theorem ready_build {ended : Except Fault Unit} (idle : w.engine.Idle)
    (own : ∀ m ∈ parseMoments g rounds input override w, m.Scoped (w.forest.size ≤ ·))
    (built : (build g rounds input).outcome ((enter override).outcome w).2 = (ended, w')) :
    (keeping (Forest.twins_secluded w.forest.size w.forest)).Ready w' w' := by
  have twins := Forest.twins_secluded w.forest.size w.forest
  have start : (keeping twins).Ready ((enter override).outcome w).2
      ((enter override).outcome w).2 :=
    ⟨⟨rfl, .refl w.forest⟩, rfl, rfl, rfl, idle.scoped override⟩
  have stages := stages_of_build built
  rw [parseMoments] at own
  generalize (buildCourse g rounds input).moments _ = ms at stages own
  have worked : ∀ {u v : World σ} {ended : Except Fault Unit},
      (load input).outcome ((enter override).outcome w).2 = (.ok (), u) →
      (workCourse g rounds).outcome u = (ended, v) →
      (∀ m ∈ (workCourse g rounds).moments u, m.Scoped (w.forest.size ≤ ·)) →
      Kept (Forest.Secluded w.forest.size w.forest) (w.forest.size ≤ ·) v := by
    intro u v ended loaded works own
    have runs := runs_moments (workCourse g rounds) u
    rw [works] at runs
    exact runs.kept twins ((ready_of_load twins start loaded).2 rfl)
      (workSteps_isWork.workCourse g rounds u) own
  cases stages with
  | unread failed => exact (ready_of_load twins start failed).1
  | broken loaded works =>
      exact ((worked loaded works fun m hm => own m (List.mem_cons_of_mem _ hm)).twin twins).ready
  | worked loaded works handed =>
      have kept := worked loaded works fun m hm =>
        own m (List.mem_cons_of_mem _ (List.mem_append_left _ hm))
      have twin := (Likeness.agree_handOut (kept.twin twins)).worlds
      rw [handed] at twin
      exact twin.ready

/-- The nodes of a parse are secluded from all that was before. -/
theorem secluded_parse (idle : w.engine.Idle)
    (own : ∀ m ∈ parseMoments g rounds input override w, m.Scoped (w.forest.size ≤ ·))
    (parsed : (parse g rounds input override).outcome w = (out, w')) :
    Forest.Secluded w.forest.size w.forest w'.forest := by
  by_cases accepted : ∀ x, input ≠ .other x
  · obtain ⟨⟨ended, w₁⟩, built⟩ : ∃ out, (build g rounds input).outcome
        ((enter override).outcome w).2 = out := ⟨_, rfl⟩
    obtain ⟨-, r, l, ends, -⟩ := exists_outcome_parse idle.parsing accepted built
    rw [ends] at parsed
    cases parsed
    exact (ready_build idle own built).cleared.2.1.2
  · obtain ⟨x, rfl⟩ := not_forall_not.mp accepted
    rw [outcome_parse_other g rounds x override idle.parsing] at parsed
    cases parsed
    exact .refl w.forest

/-- A tree that is returned was made in its parse. -/
theorem made_of_tree {report : Report} {r : Handle} (idle : w.engine.Idle)
    (own : ∀ m ∈ parseMoments g rounds input override w, m.Scoped (w.forest.size ≤ ·))
    (parsed : (parse g rounds input override).outcome w = (.ok report, w'))
    (tree : report.tree = some r) : w.forest.size ≤ r ∧ r < w'.forest.size := by
  obtain ⟨⟨ended, w₁⟩, built⟩ : ∃ out, (build g rounds input).outcome
      ((enter override).outcome w).2 = out := ⟨_, rfl⟩
  have accepted := accepted_of_parse idle.parsing parsed
  obtain ⟨-, rep, l, ends, reported, -⟩ := exists_outcome_parse idle.parsing accepted built
  rw [ends] at parsed
  have concludes := congrArg Prod.fst parsed
  have forest : (cleared w₁).2 = w'.forest := congrArg (fun out => out.2.forest) parsed
  have tree' := tree_of_concluded concludes tree
  have larger := ((kept_size w₁).twin (Forest.twins_size_le _)).ready.cleared.2.1.2
  refine ⟨(ready_build idle own built).inScope.tree rep r reported tree', ?_⟩
  rw [← forest]
  obtain ⟨u, v, loaded, worked, moments, -, root, rfl⟩ :=
    exists_of_tree_build (w := ((enter override).outcome w).2) rfl ⟨rfl, rfl, rfl, rfl⟩ built reported
      tree'
  obtain ⟨f, begins⟩ := begins_of_load loaded
  have runs := runs_moments (workCourse g rounds) u
  rw [worked] at runs
  rw [parseMoments, moments] at own
  have rooted' : Rooted v := runs.rooted begins.rooted (workSteps_isWork.workCourse g rounds u)
    fun m hm => own m (List.mem_append_left _ (List.mem_cons_of_mem _ hm))
  exact Nat.lt_of_lt_of_le (rooted' r root) larger

end Parse

/-- One parse on some forest, on an engine with any history.  The hooks handle nodes of this
parse only. -/
inductive Parsed : Forest → Forest → Prop where
  | intro {σ : Type} {g : Grammar σ} {w : World σ} (rounds : Nat) (input : Input)
      (override : Option Text) : History g w →
      (∀ m ∈ parseMoments g rounds input override w, m.Scoped (w.forest.size ≤ ·)) →
      Parsed w.forest ((parse g rounds input override).outcome w).2.forest

theorem Parsed.secluded {f f' : Forest} (parsed : Parsed f f') : Forest.Secluded f.size f f' := by
  cases parsed with
  | intro rounds input override history own =>
      exact secluded_parse history.atRest.1.idle own rfl

/-- Later parses leave a forest alone. -/
theorem secluded_of_parses {f f' : Forest} (parses : ReflTransGen Parsed f f') :
    Forest.Secluded f.size f f' := by
  induction parses with
  | refl => exact .refl f
  | tail _ last ih => exact ih.trans last.secluded

/-- A parse whose hooks handle nodes of this parse only leaves every older node as it is, however
it ends.  A tree that it returns is new, and it stays as it is in all parses to come. -/
theorem parse_leaves_older_nodes {g : Grammar σ} {out : Except Fault Report} (rounds : Nat)
    (input : Input) (override : Option Text) (history : History g w)
    (own : ∀ m ∈ parseMoments g rounds input override w, m.Scoped (w.forest.size ≤ ·))
    (parsed : (parse g rounds input override).outcome w = (out, w')) :
    (∀ h, h < w.forest.size → h < w'.forest.size ∧ w'.forest.node h = w.forest.node h)
      ∧ ∀ report r, out = .ok report → report.tree = some r →
          w.forest.size ≤ r ∧ r < w'.forest.size
            ∧ ∀ f, ReflTransGen Parsed w'.forest f → w'.forest.SameTree f r := by
  have idle := history.atRest.1.idle
  have secluded := secluded_parse idle own parsed
  refine ⟨fun h hh => ⟨Nat.lt_of_lt_of_le hh secluded.base_le, secluded.node h hh⟩, ?_⟩
  rintro report r rfl tree
  obtain ⟨new, known⟩ := made_of_tree idle own parsed tree
  exact ⟨new, known, fun f later => (secluded_of_parses later).sameTree known⟩

/-- A bold text that is closed. -/
def boldText : Input := .text (Text.ofChars ['[', 'b', ']', 'x', '[', '/', 'b', ']'])

/-- How a parse of the bold text ends on an engine that has failed before. -/
def boldOutcome : Except Fault Report × World Unit :=
  (parse (Bold.treeGrammar Unit) 8 boldText none).outcome strictEnd

/-- The tree of the bold text outlives a parse by another engine, which fails. -/
theorem parse_leaves_older_nodes_bold : boldOutcome.2.forest.node 0 = strictEnd.forest.node 0
    ∧ ∃ report r, boldOutcome.1 = .ok report ∧ report.tree = some r
      ∧ boldOutcome.2.forest.SameTree ((parse (Bold.treeGrammar Unit) 8 (.text Bold.openMark) none).outcome
          { boldOutcome.2 with engine := .make .strictMode none }).2.forest r := by
  have history : History (Bold.treeGrammar Unit) strictEnd :=
    .parse 8 (.text Bold.openMark) none (.start .strictMode none .standard rfl rfl)
  have own : ∀ m ∈ parseMoments (Bold.treeGrammar Unit) 8 boldText none strictEnd,
      m.Scoped (strictEnd.forest.size ≤ ·) := by decide +kernel
  have start : 0 < strictEnd.forest.size := by decide +kernel
  have ended : boldOutcome.1.toOption.bind Report.tree = some 2 := by
    decide +kernel
  have later : ∀ m ∈ parseMoments (Bold.treeGrammar Unit) 8 (.text Bold.openMark) none
      { boldOutcome.2 with engine := .make .strictMode none },
      m.Scoped (boldOutcome.2.forest.size ≤ ·) := by decide +kernel
  have parsed : (parse (Bold.treeGrammar Unit) 8 boldText none).outcome strictEnd = boldOutcome := rfl
  generalize boldOutcome = out at ended later parsed ⊢
  obtain ⟨result, w⟩ := out
  obtain ⟨older, returned⟩ := parse_leaves_older_nodes 8 boldText none history own parsed
  have counted := (history.parse 8 boldText none).atRest.2
  rw [parsed] at counted
  refine ⟨(older 0 start).2, ?_⟩
  cases result with
  | error f => cases ended
  | ok report =>
      obtain ⟨-, -, same⟩ := returned report _ rfl ended
      refine ⟨report, _, rfl, ended, same _ (.single ?_)⟩
      exact .intro (w := { w with engine := .make .strictMode none }) 8 (.text Bold.openMark) none
        (.start .strictMode none .standard rfl counted) later

end Engine

end Needlework
