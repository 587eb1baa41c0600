import Needlework.Proofs.Bold.Ground
import Needlework.Proofs.Engine.Books

/-!
# The scan of bold markup

A scan of bold markup stands in one of two places.

* *Outside* of bold text nothing but the root is open, and the opening mark is looked for.
* *Inside* bold text a new bold node is open, and the closing mark is looked for.

In both places the children of the root render to what the text before them stands for.  A round
leads from one place to the other.  The first opening mark leads inside (`exists_open`), and the
first closing mark leads outside (`exists_close`).  Where no closing mark follows, strict mode fails.
Lenient mode puts the bold node aside and goes back outside, with the first code point of the mark as
text (`exists_recover`).  Where no opening mark follows, the rest is text (`exists_appendRest`).

So a scan follows the description of its text (`scanned`).  The induction is on the length of what is
left of the text.  Two rounds take a bold text away from it, or one code point of a mark.
-/

namespace Needlework.Bold

open Engine Act Relation

variable {σ α : Type} {w w' : World σ} {f f' : Forest} {p r b d : Handle} {aside : List Handle}

/-! ## Text -/

/-- Text goes behind what is below the innermost open node. -/
theorem exists_appendText {rest : List Handle} {n : Nat} {s : Text} (wf : w.forest.WellFormed)
    (stack : w.engine.stack = p :: rest) (hp : p < w.forest.size)
    (rendered : Renders w.forest (n + 1) (w.forest.children p) s) (t : Text) (offset : Option Int) :
    ∃ f, (appendText t offset).outcome w = (.ok (), w.withForest f) ∧ Adds w.forest p f
      ∧ Renders f (n + 1) (f.children p) (s ++ escape t) := by
  by_cases empty : t = []
  · subst empty
    refine ⟨w.forest, rfl, .refl wf p, ?_⟩
    rw [escape, List.flatMap_nil, List.append_nil]
    exact rendered
  · obtain ⟨f, run, writes⟩ :=
      wf.run_appendToLastText hp empty (some (offset.getD w.engine.cursor))
    refine ⟨f, ?_, .of_writes wf hp writes, rendered.writes wf hp writes⟩
    rw [outcome_appendText stack, outcome_tree, run]

/-! ## Hooks -/

section Hooks

variable {perform : (op : Op σ) → Act σ op.Reply}

theorem outcome_run_ask {o : Op σ} {a : o.Reply} (k : o.Reply → Hook σ α)
    (h : (perform o).outcome w = (.ok a, w')) :
    ((Hook.ask o >>= k).run perform).outcome w = ((k a).run perform).outcome w' := by
  show outcome (attempt (perform o) >>= _) w = _
  rw [outcome_bind, outcome_attempt, h]
  rfl

theorem outcome_run_last {o : Op σ} {a : o.Reply} (h : (perform o).outcome w = (.ok a, w')) :
    ((Hook.ask o).run perform).outcome w = (.ok a, w') := by
  show outcome (attempt (perform o) >>= _) w = _
  rw [outcome_bind, outcome_attempt, h]
  rfl

end Hooks

/-- An engine in one of the two statuses. -/
def switched (status : Int) (needle : Text) (e : Engine) : Engine :=
  { e with needles := [needle], status := status }

theorem outcome_switch_inText (w : World σ) : (switchStatus (grammar σ) inText).outcome w
    = (.ok (), w.onEngine (switched inText openMark)) := rfl

theorem outcome_switch_inBold (w : World σ) : (switchStatus (grammar σ) inBold).outcome w
    = (.ok (), w.onEngine (switched inBold closeMark)) := rfl

/-- A bold node is opened below the innermost open node, as its last child. -/
theorem outcome_push_new {rest : List Handle} (wf : w.forest.WellFormed)
    (stack : w.engine.stack = p :: rest) (hp : p < w.forest.size) {bp : Blueprint}
    (kind : bp.kind ≠ rootKind) :
    (push (.node w.forest.size)).outcome (w.withForest (w.forest.add bp).2)
      = (.ok w.forest.size, (w.withForest (w.forest.grow p bp)).onEngine fun e =>
          count (fun m => { m with pushed := m.pushed + 1 })
            { e with stack := w.forest.size :: e.stack }) := by
  have appended : (Edit.append p (.node w.forest.size)).run.run (w.forest.add bp).2
      = .ok w.forest.size (w.forest.grow p bp) := by
    rw [Edit.run, Arg.asChild, pure_bind, EStateM.run_bind, wf.run_append_new hp kind]
    rfl
  rw [push, outcome_engine, World.engine_withForest, stack]
  dsimp only
  rw [outcome_bind, outcome_tree, World.forest_withForest, appended]
  rfl

/-- At an opening mark a bold node is opened, and the closing mark is looked for. -/
theorem outcome_handle_openMark {rest : List Handle} (wf : w.forest.WellFormed)
    (stack : w.engine.stack = p :: rest) (hp : p < w.forest.size) :
    (callHook (grammar σ) (handleStatus openMark)).outcome w
      = (.ok true, (w.withForest (w.forest.grow p (boldNode (some w.engine.cursor)))).onEngine fun e =>
          switched inBold closeMark (count (fun m => { m with pushed := m.pushed + 1 })
            { e with stack := w.forest.size :: e.stack })) := by
  rw [handleStatus, if_pos rfl, callHook]
  refine (outcome_run_ask (o := .look) _ rfl).trans ?_
  refine (outcome_run_ask (o := .edit (.create _)) _ rfl).trans ?_
  refine (outcome_run_ask _ (outcome_push_new wf stack hp ?_)).trans ?_
  · exact show customKindMin ≠ rootKind by decide
  · exact outcome_run_ask _ (outcome_switch_inBold _)

/-- At a closing mark the bold node is closed, and the opening mark is looked for. -/
theorem outcome_handle_closeMark {rest : List Handle} (stack : w.engine.stack = b :: p :: rest) :
    (callHook (grammar σ) (handleStatus closeMark)).outcome w
      = (.ok true, w.onEngine fun e =>
          switched inText openMark { e with stack := p :: rest }) := by
  have popped : pop.outcome w = (.ok b, w.onEngine fun e => { e with stack := p :: rest }) := by
    rw [pop, outcome_engine, stack]
    rfl
  rw [handleStatus, if_neg (by decide), callHook]
  refine (outcome_run_ask (o := .pop) _ popped).trans ?_
  exact outcome_run_ask _ (outcome_switch_inText _)

/-! ## Where a scan stands -/

variable {c : Config} {strict : Bool} {k : Nat} {hs : List Handle} {before u x rest behind html : Text}

/-- What a scan has come to, wherever it stands: its settings, its nodes, and as many warnings as
recoveries. -/
structure Scene (c : Config) (strict : Bool) (r : Handle) (k : Nat) (w : World σ) : Prop where
  ground : Ground w.forest r w.engine.detached
  config : w.engine.config = c
  strict : w.engine.isStrict = strict
  filters : w.engine.filters = {}
  root : w.engine.root = some r
  recoveries : w.engine.metrics.recoveries = k
  warned : ∃ rep, w.engine.report = some rep ∧ (c.enableDiagnostics.truthy = true →
    (Diagnostic.ofSeverity .warning rep.entries).length = k)

/-- A scan stands outside of bold text, with a part of the text before it. -/
structure Outside (r : Handle) (before u html : Text) (w : World σ) : Prop where
  text : w.engine.text = before ++ u
  cursor : w.engine.cursor = before.length
  stack : w.engine.stack = [r]
  status : w.engine.status = inText
  needles : w.engine.needles = [openMark]
  rendered : Renders w.forest 2 (w.forest.children r) html

/-- A scan stands behind an opening mark, and the bold node is new. -/
structure Inside (r b : Handle) (hs : List Handle) (before u html : Text) (w : World σ) : Prop where
  text : w.engine.text = before ++ openMark ++ u
  cursor : w.engine.cursor = (before ++ openMark).length
  stack : w.engine.stack = [b, r]
  status : w.engine.status = inBold
  needles : w.engine.needles = [closeMark]
  children : w.forest.children r = hs ++ [b]
  rendered : Renders w.forest 2 hs html
  fresh : ∃ id, w.forest.node b
    = { (boldNode (some before.length)).build id with parent := some r }

/-- The bold node that is open is torn down without a failure, and so is the rest of the tree. -/
theorem Inside.firm {hs : List Handle} {before u html : Text} (here : Inside r b hs before u html w)
    {c : Config} {strict : Bool} {k : Nat} (scene : Scene c strict r k w) :
    ∀ x, w.forest.Over r x → (w.forest.node x).teardown? = none := by
  have wf := scene.ground.wellFormed
  obtain ⟨id, fresh⟩ := here.fresh
  intro x below
  rcases ReflTransGen.cases_tail below with rfl | ⟨d, above, parent⟩
  · exact scene.ground.firm
  have listed := (wf.linked r d).1 parent
  rw [here.children] at listed
  rcases List.mem_append.1 listed with old | new
  · exact here.rendered.sturdy wf d old x above
  · cases List.mem_singleton.1 new
    have leaf : w.forest.children b = [] := by
      rw [Forest.children, fresh]
      rfl
    rw [wf.eq_of_over_childless leaf above, fresh]
    rfl

/-- What a round of the scan leaves alone, unless it recovers. -/
def fixture (e : Engine) : Config × Value × Pipeline × Option Handle × Int × Option Report :=
  (e.config, e.strict, e.filters, e.root, e.metrics.recoveries, e.report)

theorem Scene.keep (scene : Scene c strict r k w) (ground : Ground w'.forest r w'.engine.detached)
    (same : fixture w'.engine = fixture w.engine) : Scene c strict r k w' := by
  simp only [fixture, Prod.mk.injEq] at same
  obtain ⟨config, stays, filters, root, recoveries, report⟩ := same
  refine ⟨ground, config.trans scene.config, ?_, filters.trans scene.filters, root.trans scene.root,
    recoveries.trans scene.recoveries, ?_⟩
  · rw [← scene.strict, isStrict, isStrict, stays]
  · rw [report]
    exact scene.warned

theorem Scene.begun (scene : Scene c strict r k w) : Scene c strict r k (begun w) :=
  scene.keep scene.ground rfl

/-- Outside of bold text the first opening mark is found. -/
theorem Outside.findNeedle? (here : Outside r before u html w) :
    Text.findNeedle? w.engine.needles w.engine.text w.engine.cursor
      = (Text.split? openMark u).map fun cut => (openMark, before.length + cut.1.length) := by
  rw [here.needles, here.text, here.cursor, Text.findNeedle?_append (by decide)]

theorem Outside.begun (here : Outside r before u html w) : Outside r before u html (begun w) :=
  ⟨here.text, here.cursor, here.stack, here.status, here.needles, here.rendered⟩

/-! ## Rounds -/

theorem outcome_round (g : Grammar σ) (w : World σ) : (round g).outcome w = outcome
    (match Text.findNeedle? w.engine.needles w.engine.text w.engine.cursor with
      | some (needle, position) => do
          handleNeedle g needle position
          return true
      | none => do
          if w.engine.status = 0 then return false
          if w.engine.isStrict then
            throw (.strict (.unterminated w.engine.status w.engine.openCount))
          recover (switchStatus g)
          return true) (begun w) := rfl

/-- A needle is found and accepted. -/
theorem outcome_round_of_handled {g : Grammar σ} {v v' : World σ} {mark : Text} {position : Nat}
    {status : Int}
    (found : Text.findNeedle? w.engine.needles w.engine.text w.engine.cursor = some (mark, position))
    (near : (approach position).outcome (begun w) = (.ok status, v))
    (handled : (callHook g (g.handleStatus status mark)).outcome v = (.ok true, v'))
    (still : v'.engine.rewound = false) :
    (round g).outcome w
      = (.ok true, v'.onEngine fun e => { e with cursor := e.cursor + mark.length }) := by
  have dealt : (handleNeedle g mark position).outcome (begun w)
      = (.ok (), v'.onEngine fun e => { e with cursor := e.cursor + mark.length }) := by
    rw [handleNeedle, outcome_bind, near]
    dsimp only
    rw [outcome_bind, handled]
    dsimp only
    rw [if_pos rfl, outcome_accept, still]
    rfl
  rw [outcome_round, found]
  dsimp only
  rw [outcome_bind, dealt]
  rfl

/-- The text before a needle goes behind what is below the innermost open node. -/
theorem exists_approach {stack : List Handle} {n : Nat} {s y z : Text} (wf : w.forest.WellFormed)
    (opened : w.engine.stack = p :: stack) (hp : p < w.forest.size)
    (rendered : Renders w.forest (n + 1) (w.forest.children p) s)
    (text : w.engine.text = x ++ (y ++ z)) (cursor : w.engine.cursor = x.length) :
    ∃ f, (approach (x.length + y.length)).outcome w = (.ok w.engine.status,
        (w.withForest f).onEngine fun e => count (fun m => { m with needles := m.needles + 1 })
          { e with cursor := (x.length + y.length : Nat) })
      ∧ Adds w.forest p f ∧ Renders f (n + 1) (f.children p) (s ++ escape y) := by
  have piece : w.engine.text.between w.engine.cursor (x.length + y.length) = y := by
    rw [text, cursor, Text.between, Text.start_of_nonneg (Int.natCast_nonneg _), Int.toNat_natCast,
      List.drop_left, Nat.add_sub_cancel_left, List.take_left]
  obtain ⟨f, appended, adds, rendered⟩ := exists_appendText wf opened hp rendered y none
  refine ⟨f, ?_, adds, rendered⟩
  rw [approach, outcome_engine, piece, outcome_bind, appended]
  rfl

/-- The first opening mark opens bold text. -/
theorem exists_open (scene : Scene c strict r k w) (here : Outside r before u html w)
    (found : Text.split? openMark u = some (x, rest)) : ∃ w' b hs,
    (round (grammar σ)).outcome w = (.ok true, w') ∧ Scene c strict r k w'
      ∧ Inside r b hs (before ++ x) rest (html ++ escape x) w' := by
  have ground := scene.ground
  have text : w.engine.text = before ++ (x ++ (openMark ++ rest)) := by
    rw [here.text, Text.eq_of_split? found, List.append_assoc]
  have needle := here.findNeedle?
  rw [found, Option.map_some] at needle
  obtain ⟨f, near, adds, rendered⟩ := exists_approach (w := begun w) ground.wellFormed here.stack
    ground.known here.rendered text here.cursor
  have ground' : Ground f r w.engine.detached := ground.addsToRoot adds
  have handled := outcome_handle_openMark (w := (World.withForest (begun w) f).onEngine fun e =>
    count (fun m => { m with needles := m.needles + 1 })
      { e with cursor := (before.length + x.length : Nat) }) ground'.wellFormed here.stack ground'.known
  obtain ⟨w', ended, forest, engine⟩ : ∃ w', (round (grammar σ)).outcome w = (.ok true, w')
      ∧ w'.forest = f.grow r (boldNode (some (before.length + x.length : Nat)))
      ∧ w'.engine = { w.engine with
          cursor := (before.length + x.length : Nat) + (openMark.length : Int)
          stack := f.size :: w.engine.stack, status := inBold, needles := [closeMark], rewound := false
          metrics := { w.engine.metrics with
            needles := w.engine.metrics.needles + 1, pushed := w.engine.metrics.pushed + 1 } } :=
    ⟨_, outcome_round_of_handled needle near handled rfl, rfl, rfl⟩
  refine ⟨w', f.size, f.children r, ended, ?_, ?_⟩
  · refine scene.keep ?_ (by rw [engine]; rfl)
    rw [forest, engine]
    exact ground'.grow (show customKindMin ≠ rootKind by decide)
  · refine ⟨?_, ?_, ?_, by rw [engine], by rw [engine], ?_, ?_, ?_⟩
    · rw [engine, text, List.append_assoc, List.append_assoc]
    · rw [engine]
      simp only [List.length_append]
      omega
    · rw [engine, here.stack]
    · rw [forest, Forest.children, Forest.node_grow ground'.known,
        if_neg (Nat.ne_of_lt ground'.known), if_pos rfl]
    · rw [forest]
      exact rendered.congr ground'.wellFormed fun d hd y below =>
        ground'.wellFormed.node_grow_of_over hd below _
    · refine ⟨f.nextId, ?_⟩
      rw [forest, Forest.node_grow ground'.known, if_pos rfl, List.length_append]

namespace Inside

variable (here : Inside r b hs before u html w)

include here

/-- Inside bold text the first closing mark is found. -/
theorem findNeedle? : Text.findNeedle? w.engine.needles w.engine.text w.engine.cursor
    = (Text.split? closeMark u).map fun cut =>
      (closeMark, (before ++ openMark).length + cut.1.length) := by
  rw [here.needles, here.text, here.cursor, Text.findNeedle?_append (by decide)]

theorem leaf : w.forest.children b = [] := by
  obtain ⟨id, fresh⟩ := here.fresh
  rw [Forest.children, fresh]
  rfl

theorem parent : w.forest.parent b = some r := by
  obtain ⟨id, fresh⟩ := here.fresh
  rw [Forest.parent, fresh]

theorem ne (wf : w.forest.WellFormed) : b ≠ r := (wf.parent_ne here.parent).symm

theorem begun : Inside r b hs before u html (begun w) :=
  ⟨here.text, here.cursor, here.stack, here.status, here.needles, here.children, here.rendered,
    here.fresh⟩

/-- What stands before the bold node renders as before, if only that node and the root change. -/
theorem rendered_of_same (wf : w.forest.WellFormed) (same : ∀ y, y < w.forest.size → y ≠ b → y ≠ r →
    f'.node y = w.forest.node y) : Renders f' 2 hs html := by
  refine here.rendered.congr wf fun d hd y below => ?_
  have parent := wf.parent_of_mem_front here.children hd
  refine same y ?_ ?_ ?_
  · rcases Forest.over_iff.1 below with rfl | ⟨q, hq, -⟩
    · exact Forest.lt_size_of_parent parent
    · exact Forest.lt_size_of_parent hq
  · rintro rfl
    exact wf.not_over_last here.children hd below (.refl _ y)
  · rintro rfl
    exact wf.not_over_parent parent below

end Inside

/-- The first closing mark closes the bold text. -/
theorem exists_close (scene : Scene c strict r k w) (here : Inside r b hs before rest html w)
    (found : Text.split? closeMark rest = some (x, behind)) : ∃ w',
    (round (grammar σ)).outcome w = (.ok true, w') ∧ Scene c strict r k w'
      ∧ Outside r (before ++ openMark ++ x ++ closeMark) behind
        (html ++ (strongStart ++ escape x ++ strongEnd)) w' := by
  have ground := scene.ground
  have wf := ground.wellFormed
  have text : w.engine.text = before ++ openMark ++ (x ++ (closeMark ++ behind)) := by
    rw [here.text, Text.eq_of_split? found, List.append_assoc x]
  have needle := here.findNeedle?
  rw [found, Option.map_some] at needle
  have blank : Renders w.forest 1 (w.forest.children b) [] := by
    rw [here.leaf]
    exact .nil
  obtain ⟨f, near, adds, inner⟩ := exists_approach (w := begun w) wf here.stack
    (Forest.lt_size_of_parent here.parent) blank text here.cursor
  replace adds : Adds w.forest b f := adds
  have others : ∀ y, y < w.forest.size → y ≠ b → f.node y = w.forest.node y := fun y hy ne =>
    adds.others y hy ne (by rw [here.leaf]; exact List.not_mem_nil)
  have handled := outcome_handle_closeMark (w := (World.withForest (begun w) f).onEngine fun e =>
    count (fun m => { m with needles := m.needles + 1 })
      { e with cursor := ((before ++ openMark).length + x.length : Nat) }) here.stack
  obtain ⟨w', ended, forest, engine⟩ : ∃ w', (round (grammar σ)).outcome w = (.ok true, w')
      ∧ w'.forest = f
      ∧ w'.engine = { w.engine with
          cursor := ((before ++ openMark).length + x.length : Nat) + (closeMark.length : Int)
          stack := [r], status := inText, needles := [openMark], rewound := false
          metrics := { w.engine.metrics with needles := w.engine.metrics.needles + 1 } } :=
    ⟨_, outcome_round_of_handled needle near handled rfl, rfl, rfl⟩
  refine ⟨w', ended, ?_, ?_, ?_, by rw [engine], by rw [engine], by rw [engine], ?_⟩
  · refine scene.keep ?_ (by rw [engine]; rfl)
    rw [forest, engine]
    exact ground.adds adds (ground.apart here.parent)
  · rw [engine, text]
    simp only [List.append_assoc]
  · rw [engine]
    simp only [List.length_append]
    omega
  · obtain ⟨id, fresh⟩ := here.fresh
    have itself := adds.itself
    rw [fresh] at itself
    have content : (f.node b).content? = none := by rw [itself]; rfl
    have firm : (f.node b).teardown? = none := by rw [itself]; rfl
    have strong := Renders.bold content firm inner .nil
    rw [List.nil_append, List.append_nil] at strong
    rw [forest, Forest.children, others r ground.known (here.ne wf).symm, ← Forest.children,
      here.children]
    exact (here.rendered_of_same wf fun y hy hb _ => others y hy hb).append strong

/-! ## Marks that are never closed -/

/-- A round that finds no mark inside bold text recovers, or fails in strict mode. -/
theorem outcome_round_of_dangling (here : Inside r b hs before rest html w)
    (dangling : Text.split? closeMark rest = none) (g : Grammar σ) : (round g).outcome w
      = outcome (do
          if w.engine.isStrict then
            throw (.strict (.unterminated w.engine.status w.engine.openCount))
          recover (switchStatus g)
          return true) (begun w) := by
  have needle := here.findNeedle?
  rw [dangling, Option.map_none] at needle
  rw [outcome_round, needle, here.status]
  rfl

theorem outcome_originOf {o : Int} (began : (w.forest.node b).origin = some o)
    (inside : o < w.engine.text.length) : (originOf b).outcome w = (.ok o, w) := by
  rw [originOf, outcome_get]
  dsimp only
  rw [began]
  dsimp only
  rw [outcome_engine, if_neg (Int.not_le.2 inside)]
  rfl

/-- A world whose bold node is put aside, and where the opening mark is looked for again. -/
def putBack (r b : Handle) (w : World σ) : World σ :=
  (w.withForest (w.forest.unlink r b)).onEngine fun e =>
    switched inText openMark { e with detached := b :: e.detached, stack := [r] }

/-- The first half of a recovery puts the bold node aside. -/
theorem outcome_recover (scene : Scene c strict r k w) (here : Inside r b hs before rest html w)
    (allowed : (c.maxRecoveries.leInt? k).getD false = false) :
    (recover (switchStatus (grammar σ))).outcome w
      = (resume b before.length).outcome (putBack r b w) := by
  have below : w.engine.limitReached = false := by
    rw [limitReached, scene.config, scene.recoveries]
    exact allowed
  have aside : (w.withForest (w.forest.unlink r b)).onEngine (fun e =>
      { e with detached := b :: e.detached, stack := e.stack.tail })
      = (w.withForest (w.forest.unlink r b)).onEngine fun e =>
        { e with detached := b :: e.detached, stack := [r] } := by
    rw [World.onEngine, World.onEngine, World.engine_withForest, here.stack]
    rfl
  have began : ((w.forest.unlink r b).node b).origin = some (before.length : Int) := by
    obtain ⟨id, fresh⟩ := here.fresh
    rw [Forest.node_unlink scene.ground.known (Forest.lt_size_of_parent here.parent), fresh]
    show (some (before.length : Int)).filter (0 ≤ ·) = some (before.length : Int)
    exact Option.filter_eq_some_iff.2 ⟨rfl, decide_eq_true (Int.natCast_nonneg _)⟩
  have inside : (before.length : Int) < w.engine.text.length := by
    rw [here.text, List.length_append, List.length_append]
    exact Int.ofNat_lt.2 (by show _ < _ + 3 + _; omega)
  have origin : (originOf b).outcome ((w.withForest (w.forest.unlink r b)).onEngine fun e =>
      { e with detached := b :: e.detached, stack := [r] }) = (.ok (before.length : Int), _) :=
    outcome_originOf began inside
  -- The node knows where it began, and this lies in the text.
  have withdrawn : withdraw.outcome w = (.ok (b, before.length),
      (w.withForest (w.forest.unlink r b)).onEngine fun e =>
        { e with detached := b :: e.detached, stack := [r] }) := by
    rw [withdraw, outcome_engine, here.stack]
    dsimp only
    rw [below, if_neg Bool.false_ne_true, outcome_get, here.parent]
    dsimp only
    rw [outcome_bind, outcome_putAside, scene.ground.wellFormed.run_removeNode here.parent]
    dsimp only
    rw [outcome_bind, aside, origin]
    rfl
  rw [recover, outcome_bind, withdrawn]
  dsimp only
  rw [outcome_bind]
  exact congrArg (fun v => (resume b before.length).outcome v) rfl

/-- A node that is put aside is spare, and the root renders to what stood before it. -/
theorem Scene.putBack (scene : Scene c strict r k w) (here : Inside r b hs before rest html w) :
    Scene c strict r k (putBack r b w)
      ∧ Renders (w.forest.unlink r b) 2 ((w.forest.unlink r b).children r) html := by
  have wf := scene.ground.wellFormed
  have firm : (w.forest.node b).teardown? = none := by
    obtain ⟨id, fresh⟩ := here.fresh
    rw [fresh]
    rfl
  refine ⟨scene.keep (scene.ground.putAside here.parent here.leaf firm) rfl, ?_⟩
  rw [wf.children_unlink_last here.children]
  exact here.rendered_of_same wf fun y _ hb hr =>
    Forest.node_unlink_of_ne scene.ground.known (Forest.lt_size_of_parent here.parent) hr hb

theorem exists_diagnose_warning {rep : Report} (hr : w.engine.report = some rep) {message : Text}
    (worded : message.isEmpty = false) {offset : Value}
    (inside : Diagnostic.checkOffset offset = .ok ()) (details : Value) : ∃ rep',
    (diagnose .warning message offset details).outcome w
        = (.ok (), w.onEngine fun e => { e with report := some rep' })
      ∧ (w.engine.diagnosing = true → (Diagnostic.ofSeverity .warning rep'.entries).length
        = (Diagnostic.ofSeverity .warning rep.entries).length + 1) := by
  by_cases on : w.engine.diagnosing = true
  · have one := Diagnostic.ofSeverity_cons_of_eq (s := .warning)
      (d := ⟨.warning, message, component, offset, details, rep.correlation⟩) rfl rep.entries
    exact ⟨_, outcome_diagnose_noted hr on .warning worded inside details,
      fun _ => congrArg List.length one⟩
  · refine ⟨rep, ?_, fun other => absurd other on⟩
    rw [diagnose, outcome_engine, hr]
    dsimp only
    rw [if_neg (show ¬ w.engine.config.enableDiagnostics.truthy = true from on), ← hr]
    rfl

/-- The second half of a recovery makes one code point text, and a warning tells of it. -/
theorem exists_resume {cp : CodePoint} {o : Nat} (scene : Scene c strict r k w)
    (stack : w.engine.stack = [r]) (rendered : Renders w.forest 2 (w.forest.children r) html)
    (text : w.engine.text.at? o = some cp) : ∃ w' rep,
    (resume b o).outcome w = (.ok (), w') ∧ Scene c strict r (k + 1) w'
      ∧ Renders w'.forest 2 (w'.forest.children r) (html ++ escape [cp])
      ∧ w'.engine = count (fun m => { m with recoveries := m.recoveries + 1 })
        { w.engine with cursor := o + 1, rewound := true, report := some rep } := by
  have ground := scene.ground
  obtain ⟨rep, reported, warnings⟩ := scene.warned
  obtain ⟨f, appended, adds, rendered⟩ :=
    exists_appendText ground.wellFormed stack ground.known rendered [cp] (some o)
  have point : (appendPoint o).outcome w = (.ok (), w.withForest f) := by
    rw [appendPoint, outcome_engine, text]
    exact appended
  have worded := isEmpty_ofString
    (show "Unterminated construct reinterpreted as literal text" ≠ "" by decide)
  rw [resume, outcome_bind, point]
  dsimp only
  rw [outcome_modifyEngine, outcome_get, outcome_log]
  generalize moved : World.mk _ _ _ _ = v
  have reported' : v.engine.report = some rep := by rw [← moved]; exact reported
  obtain ⟨rep', warned, more⟩ := exists_diagnose_warning reported' worded
    (Diagnostic.checkOffset_of_nonneg (Int.natCast_nonneg o)) (.object [("node_id", .int (f.idOf b))])
  refine ⟨_, rep', warned, ?_, ?_, ?_⟩
  · rw [← moved]
    refine ⟨ground.addsToRoot adds, scene.config, scene.strict,
      scene.filters, scene.root, ?_, rep', rfl, fun on => ?_⟩
    · show w.engine.metrics.recoveries + 1 = _
      rw [scene.recoveries]
      rfl
    · have still : v.engine.diagnosing = true := by
        rw [← moved]
        show w.engine.config.enableDiagnostics.truthy = true
        rw [scene.config]
        exact on
      rw [more still, warnings on]
  · rw [← moved]
    exact rendered
  · rw [← moved]
    rfl

/-- A mark that is never closed is read again as text, from its second code point on. -/
theorem exists_recover (scene : Scene c strict r k w) (here : Inside r b hs before rest html w)
    (dangling : Text.split? closeMark rest = none) (lenient : strict = false)
    (allowed : (c.maxRecoveries.leInt? k).getD false = false) : ∃ w',
    (round (grammar σ)).outcome w = (.ok true, w') ∧ Scene c strict r (k + 1) w'
      ∧ Outside r (before ++ [0x5B]) (openMark.tail ++ rest) (html ++ escape [0x5B]) w' := by
  have text : w.engine.text = before ++ (0x5B :: (openMark.tail ++ rest)) := by
    rw [here.text, List.append_assoc]
    rfl
  have point : w.engine.text.at? before.length = some 0x5B := by
    rw [text, Text.at?_of_nonneg (Int.natCast_nonneg _), Int.toNat_natCast,
      List.getElem?_append_right (Nat.le_refl _), Nat.sub_self]
    rfl
  obtain ⟨back, rendered⟩ := scene.begun.putBack here.begun
  obtain ⟨w', rep, resumed, scene', rendered', engine⟩ := exists_resume (b := b) back rfl rendered point
  have recovered := (outcome_recover scene.begun here.begun allowed).trans resumed
  refine ⟨w', ?_, scene', ?_, ?_, by rw [engine]; rfl, by rw [engine]; rfl, by rw [engine]; rfl,
    rendered'⟩
  · rw [outcome_round_of_dangling here dangling, scene.strict, lenient]
    show outcome (recover (switchStatus (grammar σ)) >>= fun _ => _) (begun w) = _
    rw [outcome_bind, recovered]
    rfl
  · rw [engine]
    refine text.trans ?_
    rw [List.append_assoc]
    rfl
  · rw [engine, List.length_append]
    rfl

/-! ## The end of the text -/

/-- The tree of a scan that has come to the end of the text. -/
structure Done (r : Handle) (html : Text) (w : World σ) : Prop where
  stack : w.engine.stack = [r]
  rendered : Renders w.forest 2 (w.forest.children r) html

theorem outcome_round_of_rest (here : Outside r before u html w)
    (absent : Text.split? openMark u = none) (g : Grammar σ) :
    (round g).outcome w = (.ok false, begun w) := by
  have needle := here.findNeedle?
  rw [absent, Option.map_none] at needle
  rw [outcome_round, needle, here.status]
  rfl

/-- What is left of the text is text. -/
theorem exists_appendRest (scene : Scene c strict r k w) (here : Outside r before u html w) : ∃ w',
    appendRest.outcome w = (.ok (), w') ∧ Scene c strict r k w' ∧ Done r (html ++ escape u) w' := by
  have ground := scene.ground
  rw [appendRest, outcome_engine, here.text, here.cursor, Text.dropFrom_natCast, List.drop_left]
  by_cases empty : u = []
  · subst empty
    rw [if_neg (by rw [List.append_nil]; exact Int.lt_irrefl _), escape, List.flatMap_nil,
      List.append_nil]
    exact ⟨w, rfl, scene, here.stack, here.rendered⟩
  · have more : (before.length : Int) < (before ++ u).length := by
      rw [List.length_append]
      have := List.length_pos_iff.2 empty
      omega
    obtain ⟨f, appended, adds, rendered⟩ :=
      exists_appendText ground.wellFormed here.stack ground.known here.rendered u none
    rw [if_pos more, outcome_bind, appended]
    exact ⟨_, rfl, scene.keep (ground.addsToRoot adds) rfl, here.stack,
      rendered⟩

/-! ## The whole scan -/

/-- How a scan ends.  It comes to the end of the text, unless a mark is left open in strict mode. -/
inductive Scanned (c : Config) (strict : Bool) (r : Handle) (recoveries left : Nat) (html : Text) :
    Except Fault Unit × World σ → Prop where
  | done {w : World σ} : (strict = true → left = 0) → Scene c strict r recoveries w → Done r html w →
      Scanned c strict r recoveries left html (.ok (), w)
  | failed {w : World σ} {cause : StrictFault} {j : Nat} : strict = true → 0 < left →
      Scene c strict r j w → (∀ x, w.forest.Over r x → (w.forest.node x).teardown? = none) →
      Scanned c strict r recoveries left html (.error (.strict cause), w)

theorem outcome_scan_of_round {g : Grammar σ} (n : Nat) (h : (round g).outcome w = (.ok true, w')) :
    (scan g (n + 1)).outcome w = (scan g n).outcome w' := by
  rw [scan, outcome_bind, h]
  rfl

/-- A scan makes of the rest of the text what the description makes of it. -/
theorem scanned {n : Nat} (enough : 2 * u.length + 1 ≤ n) (scene : Scene c strict r k w)
    (here : Outside r before u html w) (allowed : strict = false → ∀ j, k ≤ j → j < k + unclosed u →
      (c.maxRecoveries.leInt? (j : Nat)).getD false = false) :
    Scanned c strict r (k + unclosed u) (unclosed u) (html ++ reference u)
      ((scan (grammar σ) n).outcome w) := by
  induction length : u.length using Nat.strong_induction_on generalizing u before html k w n with
  | _ size ih =>
  subst length
  cases opening : Text.split? openMark u with
  | none =>
      obtain ⟨n, rfl⟩ : ∃ m, n = m + 1 := ⟨n - 1, by omega⟩
      obtain ⟨w', ended, scene', done⟩ := exists_appendRest scene.begun here.begun
      have last : (scan (grammar σ) (n + 1)).outcome w = (.ok (), w') := by
        rw [scan, outcome_bind, outcome_round_of_rest here opening]
        exact ended
      have none : firstBold? u = none := by rw [firstBold?, opening]
      rw [last, unclosed_of_split?_none opening, reference_of_none none]
      exact .done (fun _ => rfl) scene' done
  | some cut =>
      obtain ⟨x, rest⟩ := cut
      have cut := congrArg List.length (Text.eq_of_split? opening)
      have three : openMark.length = 3 := rfl
      rw [List.length_append, List.length_append, three] at cut
      obtain ⟨n, rfl⟩ : ∃ m, n = m + 2 := ⟨n - 2, by omega⟩
      obtain ⟨v, b, hs, opens, scene₁, inside⟩ := exists_open scene here opening
      rw [outcome_scan_of_round (n + 1) opens]
      cases closing : Text.split? closeMark rest with
      | some cut =>
          obtain ⟨y, behind⟩ := cut
          have found : firstBold? u = some (x, y, behind) := by
            rw [firstBold?_of_split? opening, closing]
            rfl
          have shorter := length_of_firstBold? found
          have same : unclosed u = unclosed behind := by
            rw [unclosed, remainder_of_some found, unclosed]
          obtain ⟨w', closes, scene', outside⟩ := exists_close scene₁ inside closing
          rw [outcome_scan_of_round n closes, reference_of_some found, same]
          rw [same] at allowed
          have later := ih behind.length (by omega) (n := n) (by omega) scene' outside allowed rfl
          simpa only [List.append_assoc] using later
      | none =>
          have fewer := unclosed_resumed opening closing
          cases strict with
          | true =>
              have failed : (scan (grammar σ) (n + 1)).outcome v
                  = (.error (.strict (.unterminated v.engine.status v.engine.openCount)), begun v) := by
                rw [scan, outcome_bind, outcome_round_of_dangling inside closing, scene₁.strict]
                rfl
              rw [failed]
              exact .failed rfl (by omega) scene₁.begun (inside.firm scene₁)
          | false =>
              obtain ⟨w', recovers, scene', outside⟩ := exists_recover scene₁ inside closing rfl
                (allowed rfl k (Nat.le_refl k) (by omega))
              rw [outcome_scan_of_round n recovers]
              have shorter : (openMark.tail ++ rest).length = rest.length + 2 := by
                rw [List.length_append, Nat.add_comm]
                rfl
              have later := ih (openMark.tail ++ rest).length (by omega) (n := n) (by omega) scene'
                outside (fun _ j low high => allowed rfl j (by omega) (by omega)) rfl
              have total : k + 1 + unclosed (openMark.tail ++ rest) = k + unclosed u := by omega
              have whole : html ++ escape x ++ escape [0x5B] ++ reference (openMark.tail ++ rest)
                  = html ++ reference u := by
                rw [reference_resumed opening closing]
                simp only [List.append_assoc]
              rw [total, whole] at later
              -- One mark more is left open than later, which is of no account in lenient mode.
              generalize (scan (grammar σ) n).outcome w' = out at later ⊢
              cases later with
              | done _ scene done => exact .done (fun other => by cases other) scene done
              | failed other _ _ _ => cases other

end Needlework.Bold
