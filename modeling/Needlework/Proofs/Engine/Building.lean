import Needlework.Proofs.Engine.Parallel

/-!
# Buildings side by side

A parse sets its text before it calls the grammar.  Two worlds that are about to start a
parse may therefore differ in what the last scan has left behind: the text, the cursor, the
status and the needles, and the open nodes and the output if it was interrupted.  Such worlds are
*ready*.  From ready worlds the reading of the
input fails in both or in neither, and when the text is set the worlds are twins.

So two buildings from ready worlds keep step to the end, or the strict one fails and the
lenient one fails or repairs (`built`).
-/

namespace Needlework

namespace Engine

open Act

variable {σ α : Type} {w v : World σ}

/-- An engine without what a scan leaves behind. -/
def unread (e : Engine) : Engine :=
  { e with text := [], cursor := 0, stack := [], status := 0, needles := [], output := .null }

namespace Likeness

variable {L : Likeness σ}

/-- Two worlds are alike apart from what a scan has left behind. -/
structure Ready (L : Likeness σ) (w v : World σ) : Prop where
  forest : L.forest w.forest v.forest
  memory : L.memory w.memory v.memory
  kin : v.engine.impartial.unread = w.engine.impartial.unread
  standing : L.standing w.engine.standing v.engine.standing
  inScope : w.engine.unread.Scoped L.In

theorem Twin.ready (t : L.Twin w v) : L.Ready w v :=
  ⟨t.forest, t.memory, congrArg unread t.kin, t.standing,
    ⟨List.forall_mem_nil _, t.inScope.root, t.inScope.detached, t.inScope.tree⟩⟩

theorem Ready.withLog (r : L.Ready w v) (l l' : List Record) :
    L.Ready { w with log := l } { v with log := l' } :=
  ⟨r.forest, r.memory, r.kin, r.standing, r.inScope⟩

/-! ## Taking down -/

theorem alike_discardAll {hs : List Handle} (inScope : ∀ h ∈ hs, L.In h) :
    Forest.Alike L.forest L.fault (fun _ => True) (discardAll hs) := by
  induction hs with
  | nil => exact .pure trivial
  | cons h hs ih =>
      have hh := inScope h List.mem_cons_self
      have rest := ih fun k hk => inScope k (List.mem_cons_of_mem h hk)
      refine .get fun f f' hf => ?_
      dsimp only
      rw [L.twins.node hf hh]
      split
      · exact Forest.Alike.bind (L.twins.alike_destroy hh) (fun _ _ => rest) f f' hf
      · exact rest f f' hf

theorem agree_discardDetached (t : L.Twin w v) :
    L.Agrees Both discardDetached discardDetached w v := by
  rw [Agrees, discardDetached, outcome_engine, outcome_engine, t.detached]
  have discarded : Forest.Alike L.forest L.fault (fun _ => True)
      (discardAll w.engine.detached.reverse) :=
    alike_discardAll fun h hh => t.inScope.detached h (List.mem_reverse.mp hh)
  refine (agree_tree discarded t).bind fun _ _ w v _ t => ?_
  exact .ok trivial (t.onEngine (c := fun e => { e with detached := [] }) (fun _ => rfl) t.standing
    ⟨t.inScope.stack, t.inScope.root, List.forall_mem_nil _, t.inScope.tree⟩)

theorem agree_destroyRoot (t : L.Twin w v) : L.Agrees Both destroyRoot destroyRoot w v := by
  rw [Agrees, destroyRoot, outcome_engine, outcome_engine, t.root]
  cases hr : w.engine.root with
  | none => exact .ok trivial t
  | some r =>
      exact (agree_tree (L.twins.alike_destroy (t.inScope.root r hr)) t).imp fun _ _ _ => trivial

theorem agree_destroyTree (t : L.Twin w v) : L.Agrees Both destroyTree destroyTree w v := by
  rw [Agrees, destroyTree, outcome_engine, outcome_engine, t.root]
  cases hr : w.engine.root with
  | none => exact .error (L.own _ trivial) t
  | some r =>
      exact (agree_tree (L.twins.alike_destroy (t.inScope.root r hr)) t).imp fun _ _ _ => trivial

/-! ## The text -/

/-- The first half of loading: decode and filter the input. -/
def readText (input : Input) : Act σ Text := do
  let e ← engine
  applyFilters .pre (← ofExcept (inputText e.codecs e.config input))

/-- The second half of loading: set the text and forget the scan before. -/
def setText (text : Text) : Act σ Unit := do
  modifyEngine fun e =>
    { e with text := text, cursor := 0, stack := [], status := 0, needles := [], output := .null }
  discardDetached
  destroyRoot
  assign .newRoot
  modifyEngine (count fun m => { m with characters := text.length })
  let e ← engine
  log .info "Starting parse"
    [("parser_name", e.config.name), ("text_length", .int text.length), ("strict", e.strict)]

theorem outcome_load (input : Input) (w : World σ) :
    (load input).outcome w = (readText input >>= setText).outcome w := by
  rw [load, readText, outcome_engine, bind_assoc, outcome_engine]
  cases inputText w.engine.codecs w.engine.config input with
  | ok t => rfl
  | error f => rfl

/-- An input that does not decode is the library's own finding. -/
theorem isOwn_of_inputText {codecs : Codecs} {c : Config} {input : Input} {f : Fault}
    (h : inputText codecs c input = .error f) : f.IsOwn := by
  cases input with
  | text t => cases h
  | other v => cases h; trivial
  | bytes bs =>
      rw [inputText] at h
      repeat' split at h
      all_goals first | cases h; trivial | cases h

theorem agree_readText (input : Input) (r : L.Ready w v) :
    Agree L.Ready L.fault (fun a b => b = a) ((readText input).outcome w)
      ((readText input).outcome v) := by
  have decoded : inputText v.engine.codecs v.engine.config input
      = inputText w.engine.codecs w.engine.config input := by
    have same := congrArg (fun e : Engine => inputText e.codecs e.config input) r.kin
    cases input with
    | _ => exact same
  have filters : v.engine.filters = w.engine.filters := (congrArg Engine.filters r.kin :)
  have correlation : v.engine.correlation = w.engine.correlation :=
    (congrArg Engine.correlation r.kin :)
  rw [readText, outcome_engine, outcome_engine, decoded]
  cases hi : inputText w.engine.codecs w.engine.config input with
  | error f => exact .error (L.own f (isOwn_of_inputText hi)) r
  | ok text =>
      show Agree L.Ready L.fault _ ((applyFilters .pre text).outcome w)
        ((applyFilters .pre text).outcome v)
      rw [applyFilters, outcome_engine, outcome_engine, filters, correlation]
      dsimp only
      rw [outcome_bind, outcome_bind]
      cases hr : (w.engine.filters.apply (Pipeline.logger w.engine.correlation) .pre text).1 with
      | ok u => exact .ok rfl (r.withLog _ _)
      | error f =>
          obtain ⟨c, hc, u, hu⟩ := exists_of_applyAll hr
          exact .error (L.filters r.standing .pre c hc u f hu) (r.withLog _ _)

theorem agree_setText (text : Text) (r : L.Ready w v) :
    L.Agrees Both (setText text) (setText text) w v := by
  rw [Agrees, setText, outcome_modifyEngine, outcome_modifyEngine]
  have loaded : L.Twin
      (w.onEngine fun e => { e with
        text := text, cursor := 0, stack := [], status := 0, needles := [], output := .null })
      (v.onEngine fun e => { e with
        text := text, cursor := 0, stack := [], status := 0, needles := [], output := .null }) := by
    refine ⟨r.forest, r.memory, ?_, r.standing, ⟨List.forall_mem_nil _, r.inScope.root, r.inScope.detached,
      r.inScope.tree⟩⟩
    exact congrArg (fun e : Engine => { e with
      text := text, cursor := 0, stack := [], status := 0, needles := [], output := .null }) r.kin
  refine (agree_discardDetached loaded).bind fun _ _ w v _ t => ?_
  refine (agree_destroyRoot t).bind fun _ _ w v _ t => ?_
  refine (agree_assign (a := .newRoot) trivial t).bind fun _ _ w v _ t => ?_
  rw [outcome_modifyEngine, outcome_modifyEngine, outcome_engine, outcome_engine]
  have counted := t.onEngine (c := count fun m => { m with characters := text.length })
    (fun _ => rfl) t.standing t.inScope
  exact .ok trivial (counted.withLog _ _)

/-! ## Handing out -/

theorem agree_handOut (t : L.Twin w v) : L.Agrees Both handOut handOut w v := by
  have close : ∀ {w v : World σ}, L.Twin w v →
      L.Twin (w.onEngine fun e => { e with root := none, stack := [] })
        (v.onEngine fun e => { e with root := none, stack := [] }) := fun t =>
    t.onEngine (c := fun e => { e with root := none, stack := [] }) (fun _ => rfl) t.standing
      ⟨nofun, nofun, t.inScope.detached, t.inScope.tree⟩
  have gist : ∀ (r : Option Report) (h : Option Handle),
      (r.map fun r => { r with tree := h }).map Report.gist = r.map Report.gist := fun r h => by
    cases r <;> rfl
  have gist' : ∀ (r : Option Report) (u : Value),
      (r.map fun r => { r with output := u }).map Report.gist = r.map Report.gist := fun r u => by
    cases r <;> rfl
  rw [Agrees, handOut, outcome_engine, outcome_engine, t.output, t.root]
  split
  · rw [modifyReport, outcome_modifyEngine, outcome_modifyEngine]
    refine .ok trivial (close (t.onEngine (c := fun e =>
      { e with report := e.report.map fun r => { r with tree := w.engine.root } })
      (fun _ => rfl) ?_ ⟨t.inScope.stack, t.inScope.root, t.inScope.detached, ?_⟩))
    · simp only [Engine.standing, gist]
      exact t.standing
    · intro r h hr htree
      obtain ⟨r', -, rfl⟩ := Option.map_eq_some_iff.mp hr
      exact t.inScope.root h htree
  · rw [modifyReport, outcome_modifyEngine, outcome_modifyEngine]
    have reported := t.onEngine (c := fun e =>
      { e with report := e.report.map fun r => { r with output := w.engine.output } })
      (fun _ => rfl) (by simp only [Engine.standing, gist']; exact t.standing)
      ⟨t.inScope.stack, t.inScope.root, t.inScope.detached, fun r h hr htree => by
        obtain ⟨r', hr', rfl⟩ := Option.map_eq_some_iff.mp hr
        exact t.inScope.tree r' h hr' htree⟩
    exact (agree_destroyTree reported).bind fun _ _ w v _ t => .ok trivial (close t)

/-! ## Buildings -/

/-- Two buildings keep step, or the strict one fails and the lenient one fails or repairs. -/
inductive Built (L : Likeness σ) (g : Grammar σ) (n : Nat) (input : Input) (w v : World σ) :
    Prop where
  | together : Agree L.Ready L.ending Both
        ((build g n input).outcome w) ((build g n input).outcome v) →
      (buildCourse g n input).calls v = (buildCourse g n input).calls w → L.Built g n input w v
  | apart : L.Opposed → (∃ f, ((build g n input).outcome w).1 = .error f) →
      ((∃ f, ((build g n input).outcome v).1 = .error f)
        ∨ Mended 1 ((build g n input).outcome v).2.engine) → L.Built g n input w v

theorem outcome_take_load (input : Input) (w : World σ) :
    (Course.take (.load input) : Course σ Unit).outcome w
      = (readText input >>= setText).outcome w := by
  rw [Course.outcome_take]
  exact outcome_load input w

/-- Once the text is set, the rest runs in parallel. -/
theorem parallel_rest {g : Grammar σ} (suits : L.Suits g) (n : Nat) (t : L.Twin w v) :
    L.Parallel Both (workCourse g n >>= fun _ => Course.take .handOut)
      (workCourse g n >>= fun _ => Course.take .handOut) w v := by
  refine .bind (suits.parallel_workCourse n t) (fun _ => .take fun u _ => ?_)
    fun _ _ w v _ t => .locked (.take .handOut (agree_handOut t))
  exact staysMended_of_agree agree_handOut

theorem built {g : Grammar σ} (suits : L.Suits g) (n : Nat) (input : Input) (r : L.Ready w v) :
    L.Built g n input w v := by
  have follows := follows_buildCourse g n input
  have loads : ∀ u : World σ, (Course.take (.load input) : Course σ Unit).outcome u
      = (readText input >>= setText).outcome u := outcome_take_load input
  have fails : ∀ {f : Fault} {w v w' v' : World σ},
      (readText input >>= setText).outcome w = (.error f, w') →
      (readText input >>= setText).outcome v = (.error f, v') → L.fault f → L.Ready w' v' →
      L.Built g n input w v := by
    intro f w v w' v' hw hv hf r'
    rw [← loads] at hw hv
    refine .together ?_ ?_
    · rw [← follows, ← follows, buildCourse, Course.outcome_andThen_error hw,
        Course.outcome_andThen_error hv]
      exact .error (.inl hf) r'
    · rw [buildCourse, Course.calls_andThen, Course.calls_andThen, hw, hv, Course.calls_take,
        Course.calls_take]
  rcases (agree_readText input r).cases with
    ⟨text, text', w₁, v₁, hw, hv, same, r₁⟩ | ⟨f, w₁, v₁, hw, hv, hf, r₁⟩
  case inr =>
    exact fails (by rw [outcome_bind, hw]) (by rw [outcome_bind, hv]) hf r₁
  subst same
  rcases (agree_setText text' r₁).cases with
    ⟨_, _, w₂, v₂, hw₂, hv₂, -, t⟩ | ⟨f, w₂, v₂, hw₂, hv₂, hf, t⟩
  case inr =>
    exact fails (by rw [outcome_bind, hw]; exact hw₂) (by rw [outcome_bind, hv]; exact hv₂) hf t.ready
  have hw₃ : (Course.take (.load input) : Course σ Unit).outcome w = (.ok (), w₂) := by
    rw [loads, outcome_bind, hw]
    exact hw₂
  have hv₃ : (Course.take (.load input) : Course σ Unit).outcome v = (.ok (), v₂) := by
    rw [loads, outcome_bind, hv]
    exact hv₂
  cases parallel_rest suits n t with
  | together locked =>
      have whole : L.Locked L.ending Both (buildCourse g n input) (buildCourse g n input) w v := by
        refine .of_ok hw₃ hv₃ ?_ locked
        rw [Course.calls_take, Course.calls_take]
      refine .together ?_ whole.calls
      rw [← follows, ← follows]
      exact ⟨whole.agree.answers, whole.agree.worlds.ready⟩
  | apart opposed failed other =>
      refine .apart opposed ?_ ?_
      · rw [← follows, buildCourse, Course.outcome_andThen_ok hw₃]
        exact failed
      · rw [← follows, buildCourse, Course.outcome_andThen_ok hv₃]
        exact other

/-- A likeness that is fair knows no two engines of different strictness. -/
theorem Fair.not_opposed (fair : L.Fair) {e e' : Engine} (h : L.standing e e') : ¬ L.Opposed := by
  intro opposed
  obtain ⟨strict, lenient, -⟩ := opposed _ _ h
  rw [Engine.isStrict, fair.strict h] at lenient
  rw [Engine.isStrict, lenient] at strict
  cases strict

/-- Under a fair likeness, buildings keep step to the end. -/
theorem Fair.built (fair : L.Fair) {g : Grammar σ} (blind : ∀ call : HookCall, L.Blind (call.hook g))
    (n : Nat) (input : Input) (r : L.Ready w v) :
    Agree L.Ready L.ending Both ((build g n input).outcome w) ((build g n input).outcome v)
      ∧ (buildCourse g n input).calls v = (buildCourse g n input).calls w := by
  cases Likeness.built (fair.suits blind) n input r with
  | together agree calls => exact ⟨agree, calls⟩
  | apart opposed => exact absurd opposed (fair.not_opposed r.standing)

end Likeness

namespace Invariant

variable {I : Invariant}

theorem ready (h : I.holds w.engine.standing) (teardowns : w.forest.Raises I.fault) :
    I.likeness.Ready w w := (twin h teardowns).ready

/-- An invariant holds after the work of a grammar, however it ends. -/
theorem work {g : Grammar σ} (uses : ∀ call : HookCall, (call.hook g).Uses I.likeness.Permits)
    (raises : ∀ call : HookCall, (call.hook g).Raises I.fault)
    (teardowns : w.forest.Raises I.fault) (n : Nat) (h : I.holds w.engine.standing) :
    I.holds ((Engine.work g n).outcome w).2.engine.standing := by
  have suits : I.likeness.Suits g := I.fair.suits fun call => I.exact.blind (uses call) (raises call)
  rw [← follows_workCourse]
  cases suits.parallel_workCourse n (twin h teardowns) with
  | together locked => exact locked.agree.worlds.standing.2
  | apart opposed => exact absurd opposed (I.fair.not_opposed ⟨rfl, h⟩)

/-- A building leaves a world that keeps the invariant, however it ends, and the fault that ends it
is one that may come up. -/
theorem build {g : Grammar σ} (uses : ∀ call : HookCall, (call.hook g).Uses I.likeness.Permits)
    (raises : ∀ call : HookCall, (call.hook g).Raises I.fault)
    (teardowns : w.forest.Raises I.fault) (n : Nat) (input : Input)
    (h : I.holds w.engine.standing) :
    I.likeness.Ready ((build g n input).outcome w).2 ((build g n input).outcome w).2
      ∧ ∀ f, ((build g n input).outcome w).1 = .error f → I.fault f ∨ f = .outOfRounds := by
  have agree := (I.fair.built (fun call => I.exact.blind (uses call) (raises call)) n input
    (ready h teardowns)).1
  refine ⟨agree.worlds, fun f hf => ?_⟩
  have answers := agree.answers
  rw [hf] at answers
  cases answers with
  | error h => exact h

/-- An invariant under which every fault may come up holds at the end of every building. -/
theorem build_of_any (g : Grammar σ) (any : ∀ f, I.fault f)
    (assigned : ∀ s e, I.holds e → I.holds { e with strict := s }) (n : Nat) (input : Input)
    (h : I.holds w.engine.standing) :
    I.holds ((Engine.build g n input).outcome w).2.engine.standing :=
  (build (fun _ => .of_forall (permits_of_any any assigned) _)
    (fun _ => .of_forall any _) (.of_forall any _) n input h).1.standing.2

end Invariant

end Engine

end Needlework
