import Needlework.Proofs.Engine.Twins

/-!
# Lock step

The hooks of a grammar are programs that go on by the replies they get.  A hook is *blind*
to a likeness if it asks only for operations that twins answer alike, and goes on in the
same way whichever of two alike answers it gets.  Run from twins, such a hook takes the
same course in both worlds: it ends with the same result or the same fault, it calls the
same hooks on the way, and it leaves twins behind (`locked_callCourse`).

*Invariants.*  What is to hold of every engine along a run is a likeness of each world with
itself (`Invariant.likeness`).  Equal answers are the same answer, so that every hook is
blind to it.
-/

namespace Needlework

variable {σ α β α' β' : Type}

namespace Engine

namespace Likeness

variable {L : Likeness σ} {w v : World σ}

/-! ## Operations -/

/-- What hooks see of twins. -/
structure Views (L : Likeness σ) (a b : View) : Prop where
  forest : L.forest a.forest b.forest
  same : b = { a with forest := b.forest }
  stack : ∀ h ∈ a.stack, L.In h
  root : ∀ h, a.root = some h → L.In h
  detached : ∀ h ∈ a.detached, L.In h

/-- Replies that are alike.  A node that a hook gets is in scope. -/
def alike (L : Likeness σ) : (o : Op σ) → o.Reply → o.Reply → Prop
  | .look => L.Views
  | .memory => L.memory
  | .push _ => fun (a b : Handle) => b = a ∧ L.In a
  | .pop => fun (a b : Handle) => b = a ∧ L.In a
  | .edit _ => fun (a b : Handle) => b = a ∧ L.In a
  | _ => fun a b => b = a

/-- The operations that twins answer alike.  Those that depend on the strictness need a fair
likeness. -/
def Permits (L : Likeness σ) : Op σ → Prop
  | .strictness => L.Fair
  | .closeOpen => L.Fair
  | .remember s => L.memory s s
  | .push n => n.Scoped L.In
  | .edit e => e.Scoped L.In ∧ e.Raises L.fault
  | .tamper t => t.Scoped L.In
  | .assign (.strict s) => ∀ e e', L.standing e e' →
      L.standing { e with strict := s } { e' with strict := s }
  | .assign (.root r) => ∀ h, r = some h → L.In h
  | .assign (.stack hs) => ∀ h ∈ hs, L.In h
  | _ => True

/-- If everything is in scope, only the strictness and new teardowns can be in the way. -/
theorem permits_of_forall (all : ∀ h, L.In h) (memory : ∀ s, L.memory s s) {o : Op σ}
    (fair : o = .strictness ∨ o = .closeOpen → L.Fair)
    (raises : ∀ e, o = .edit e → e.Raises L.fault)
    (assigned : ∀ s, o = .assign (.strict s) → ∀ e e', L.standing e e' →
      L.standing { e with strict := s } { e' with strict := s }) : L.Permits o := by
  cases o with
  | strictness => exact fair (.inl rfl)
  | closeOpen => exact fair (.inr rfl)
  | remember s => exact memory s
  | push n => exact n.scoped_of_forall all
  | edit e => exact ⟨e.scoped_of_forall all, raises e rfl⟩
  | tamper t => exact t.scoped_of_forall all
  | assign a =>
      cases a with
      | strict s => exact assigned s rfl
      | root r => exact fun h _ => all h
      | stack hs => exact fun h _ => all h
      | _ => trivial
  | _ => trivial

theorem agree_assign {a : Assignment} (permits : L.Permits (.assign a)) (t : L.Twin w v) :
    L.Agrees (fun a b => b = a) (assign a) (assign a) w v := by
  cases a with
  | strict s =>
      refine .ok rfl ⟨t.forest, t.memory, ?_, permits _ _ t.standing, t.inScope⟩
      exact congrArg (fun e : Engine => { e with config := { e.config with strict := .null } }) t.kin
  | output u =>
      exact .ok rfl (t.onEngine (c := fun e => { e with output := u }) (fun _ => rfl) t.standing
        t.inScope)
  | cursor i =>
      exact .ok rfl (t.onEngine (c := fun e => { e with cursor := i }) (fun _ => rfl) t.standing
        t.inScope)
  | status n =>
      exact .ok rfl (t.onEngine (c := fun e => { e with status := n }) (fun _ => rfl) t.standing
        t.inScope)
  | needles ws =>
      exact .ok rfl (t.onEngine (c := fun e => { e with needles := ws }) (fun _ => rfl) t.standing
        t.inScope)
  | text s =>
      exact .ok rfl (t.onEngine (c := fun e => { e with text := s }) (fun _ => rfl) t.standing
        t.inScope)
  | root r =>
      exact .ok rfl (t.onEngine (c := fun e => { e with root := r }) (fun _ => rfl) t.standing
        ⟨t.inScope.stack, permits, t.inScope.detached, t.inScope.tree⟩)
  | stack hs =>
      exact .ok rfl (t.onEngine (c := fun e => { e with stack := hs }) (fun _ => rfl) t.standing
        ⟨permits, t.inScope.root, t.inScope.detached, t.inScope.tree⟩)
  | newRoot =>
      refine (agree_tree (L.twins.alike_create (b := .root) nofun) t).bind fun a b w v hab t => ?_
      obtain ⟨rfl, hb⟩ := hab
      refine .ok rfl (t.onEngine (c := fun e => { e with root := some b, stack := [b] })
        (fun _ => rfl) t.standing ⟨fun h hh => ?_, fun h hh => ?_, t.inScope.detached,
          t.inScope.tree⟩)
      · rw [List.mem_singleton.mp hh]
        exact hb
      · cases hh
        exact hb
  | dropTop =>
      rw [Agrees, assign, Act.outcome_engine, Act.outcome_engine, t.stack]
      split
      · exact .error (L.own _ trivial) t
      · refine .ok rfl (t.onEngine (c := fun e => { e with stack := e.stack.tail }) (fun _ => rfl)
          t.standing ⟨fun h hh => ?_, t.inScope.root, t.inScope.detached, t.inScope.tree⟩)
        exact t.inScope.stack h (List.mem_of_mem_tail hh)

/-- Twins answer the operations that are permitted alike. -/
theorem agree_op {o : Op σ} (plain : IsPlain o) (permits : L.Permits o) (t : L.Twin w v) :
    L.Agrees (L.alike o) (Step.act (.op o)) (Step.act (.op o)) w v := by
  cases o with
  | look =>
      have viewed : view v = { view w with forest := v.forest } := by
        simp only [view, t.text, t.cursor, t.stack, t.status, t.needles, t.output, t.root, t.detached]
      exact .ok ⟨t.forest, viewed, t.inScope.stack, t.inScope.root, t.inScope.detached⟩ t
  | strictness =>
      have same : v.engine.standing.strict = w.engine.standing.strict := permits.strict t.standing
      exact .ok same t
  | memory => exact .ok t.memory t
  | remember s => exact .ok rfl ⟨t.forest, permits, t.kin, t.standing, t.inScope⟩
  | setStatus n => exact plain.elim
  | push n => exact agree_push permits t
  | pop => exact agree_pop t
  | appendText text offset => exact (agree_appendText text offset t).imp fun _ _ _ => rfl
  | recover => exact plain.elim
  | closeOpen => exact agree_closeOpen permits t
  | edit e => exact agree_tree (L.twins.alike_edit permits.1 permits.2) t
  | tamper s => exact .ok rfl (t.withForest (L.twins.tamper permits t.forest))
  | assign a => exact agree_assign permits t
  | postfilter text => exact agree_applyFilters .post text t
  | parse input override => exact agree_refuseParse t

/-! ## Blind hooks -/

/-- A hook that asks only for what is permitted, goes on in the same way after alike replies
and raises only faults that may come up. -/
def Blind (L : Likeness σ) : Hook σ α → Prop
  | .done _ => True
  | .raise f => L.fault f
  | .call o next => L.Permits o
      ∧ ∀ r r', Answers L.fault (L.alike o) r r' → next r = next r' ∧ L.Blind (next r)

theorem blind_ask {o : Op σ} (permits : L.Permits o) (own : ∀ a b, L.alike o a b → b = a) :
    L.Blind (Hook.ask o) := by
  refine ⟨permits, fun r r' hr => ?_⟩
  cases hr with
  | ok hab =>
      rw [own _ _ hab]
      exact ⟨rfl, trivial⟩
  | error hf => exact ⟨rfl, hf⟩

theorem blind_bind_ask {o : Op σ} (permits : L.Permits o) {k : o.Reply → Hook σ α}
    (hk : ∀ a b, L.alike o a b → k a = k b ∧ L.Blind (k a)) : L.Blind (Hook.ask o >>= k) := by
  refine ⟨permits, fun r r' hr => ?_⟩
  cases hr with
  | ok hab => exact hk _ _ hab
  | error hf => exact ⟨rfl, hf⟩

end Likeness

end Engine

/-- An operation that creates only nodes whose teardowns raise certain faults. -/
def Op.Raises (P : Fault → Prop) : Op σ → Prop
  | .edit e => e.Raises P
  | _ => True

/-- A hook that raises only certain faults, as long as no other faults come up. -/
def Hook.Raises (P : Fault → Prop) : Hook σ α → Prop
  | .done _ => True
  | .raise f => P f
  | .call _ next => ∀ r, (∀ f, r = .error f → P f) → (next r).Raises P

namespace Hook

theorem Raises.of_forall {P : Fault → Prop} (hP : ∀ f, P f) : ∀ h : Hook σ α, h.Raises P
  | .done _ => trivial
  | .raise f => hP f
  | .call _ next => fun r _ => Raises.of_forall hP (next r)

theorem raises_ask {P : Fault → Prop} (o : Op σ) : (ask o).Raises P := by
  intro r hr
  cases r with
  | ok a => trivial
  | error f => exact hr f rfl

theorem raises_bind_ask {P : Fault → Prop} (o : Op σ) {k : o.Reply → Hook σ α}
    (hk : ∀ a, (k a).Raises P) : (ask o >>= k).Raises P := by
  intro r hr
  cases r with
  | ok a => exact hk a
  | error f => exact hr f rfl

theorem uses_bind_ask {allowed : Op σ → Prop} {o : Op σ} (ho : allowed o) {k : o.Reply → Hook σ α}
    (hk : ∀ a, (k a).Uses allowed) : (ask o >>= k).Uses allowed :=
  .andThen hk (uses_ask ho)

theorem Uses.mono {allowed allowed' : Op σ → Prop} (ho : ∀ o, allowed o → allowed' o) :
    ∀ {h : Hook σ α}, h.Uses allowed → h.Uses allowed'
  | .done _, _ => trivial
  | .raise _, _ => trivial
  | .call o _, h => ⟨ho o h.1, fun r => Uses.mono ho (h.2 r)⟩

theorem Uses.and {allowed also : Op σ → Prop} :
    ∀ {h : Hook σ α}, h.Uses allowed → h.Uses also → h.Uses fun o => allowed o ∧ also o
  | .done _, _, _ => trivial
  | .raise _, _, _ => trivial
  | .call _ _, first, second => ⟨⟨first.1, second.1⟩, fun r => (first.2 r).and (second.2 r)⟩

theorem Uses.of_forall {allowed : Op σ → Prop} (ho : ∀ o, allowed o) :
    ∀ h : Hook σ α, h.Uses allowed
  | .done _ => trivial
  | .raise _ => trivial
  | .call o next => ⟨ho o, fun r => Uses.of_forall ho (next r)⟩

end Hook

namespace Engine

/-! ## Courses in lock step -/

/-- The hook that a step calls. -/
def Step.call? : Step σ → Option HookCall
  | .enter call => some call
  | _ => none

/-- The hooks that a course calls, in order. -/
def Course.calls (p : Course σ α) (w : World σ) : List HookCall :=
  (p.moments w).filterMap fun m => m.step.call?

theorem Course.calls_take (s : Step σ) (w : World σ) :
    (Course.take s).calls w = s.call?.toList := by
  rw [Course.calls, Course.moments_take]
  cases h : s.call? <;> simp [h]

theorem Course.calls_attempt (p : Course σ α) (w : World σ) : p.attempt.calls w = p.calls w := by
  rw [Course.calls, Course.moments_attempt, Course.calls]

theorem Course.calls_andThen (p : Course σ α) (k : α → Course σ β) (w : World σ) :
    (p >>= k).calls w = p.calls w ++ match p.outcome w with
      | (.ok a, w') => (k a).calls w'
      | (.error _, _) => [] := by
  rw [Course.calls, moments_andThen, List.filterMap_append]
  congr 1
  generalize p.outcome w = out
  obtain ⟨r, w'⟩ := out
  cases r <;> rfl

namespace Likeness

variable {L : Likeness σ} {w v : World σ} {P : Fault → Prop} {Q : α → β → Prop}
  {Q' : α' → β' → Prop}

/-- Two courses end alike, with certain faults if any, and call the same hooks. -/
structure Locked (L : Likeness σ) (P : Fault → Prop) (Q : α → β → Prop) (p : Course σ α)
    (q : Course σ β) (w v : World σ) : Prop where
  agree : Agree L.Twin P Q (p.outcome w) (q.outcome v)
  calls : q.calls v = p.calls w

namespace Locked

theorem done {a : α} {b : β} (hq : Q a b) (t : L.Twin w v) :
    L.Locked P Q (.done a) (.done b) w v := ⟨.ok hq t, rfl⟩

theorem raise {f : Fault} (hf : P f) (t : L.Twin w v) :
    L.Locked P Q (.raise f) (.raise f) w v := ⟨.error hf t, rfl⟩

theorem take (s : Step σ) {Q : s.Reply → s.Reply → Prop}
    (h : Agree L.Twin P Q (s.act.outcome w) (s.act.outcome v)) :
    L.Locked P Q (.take s) (.take s) w v where
  agree := by
    rw [Course.outcome_take, Course.outcome_take]
    exact h
  calls := by rw [Course.calls_take, Course.calls_take]

theorem of_ok {p : Course σ α} {q : Course σ β} {k : α → Course σ α'} {l : β → Course σ β'}
    {a : α} {b : β} {w' v' : World σ}
    (ha : p.outcome w = (.ok a, w')) (hb : q.outcome v = (.ok b, v'))
    (calls : q.calls v = p.calls w) (next : L.Locked P Q' (k a) (l b) w' v') :
    L.Locked P Q' (p >>= k) (q >>= l) w v where
  agree := by
    rw [Course.outcome_andThen_ok ha, Course.outcome_andThen_ok hb]
    exact next.agree
  calls := by
    rw [Course.calls_andThen, Course.calls_andThen, ha, hb, calls]
    exact congrArg _ next.calls

theorem bind {p : Course σ α} {q : Course σ β} {k : α → Course σ α'} {l : β → Course σ β'}
    (hp : L.Locked P Q p q w v)
    (hk : ∀ a b w v, Q a b → L.Twin w v → L.Locked P Q' (k a) (l b) w v) :
    L.Locked P Q' (p >>= k) (q >>= l) w v := by
  rcases hp.agree.cases with ⟨a, b, w', v', ha, hb, hq, t⟩ | ⟨f, w', v', ha, hb, hf, t⟩
  · exact .of_ok ha hb hp.calls (hk a b w' v' hq t)
  · constructor
    · rw [Course.outcome_andThen_error ha, Course.outcome_andThen_error hb]
      exact .error hf t
    · rw [Course.calls_andThen, Course.calls_andThen, ha, hb, hp.calls]

theorem attempt {p : Course σ α} {q : Course σ β} (hp : L.Locked P Q p q w v) :
    L.Locked P (Answers P Q) p.attempt q.attempt w v where
  agree := by
    rw [Course.outcome_attempt, Course.outcome_attempt]
    exact .ok hp.agree.answers hp.agree.worlds
  calls := by rw [Course.calls_attempt, Course.calls_attempt, hp.calls]

theorem weaken {P' : Fault → Prop} {p : Course σ α} {q : Course σ β} (hp : L.Locked P Q p q w v)
    (hP : ∀ f, P f → P' f) : L.Locked P' Q p q w v := by
  refine ⟨?_, hp.calls⟩
  rcases hp.agree.cases with ⟨a, b, w', v', ha, hb, hq, t⟩ | ⟨f, w', v', ha, hb, hf, t⟩
  · rw [ha, hb]
    exact .ok hq t
  · rw [ha, hb]
    exact .error (hP f hf) t

end Locked

/-! ## Hooks -/

/-- Switching the status keeps step. -/
def Switches (L : Likeness σ) (switch : Int → Course σ Unit) : Prop :=
  ∀ n w v, L.Twin w v → L.Locked L.fault (fun a b => b = a) (switch n) (switch n) w v

theorem locked_recoverCourse {switch : Int → Course σ Unit} (hs : L.Switches switch)
    (t : L.Twin w v) :
    L.Locked L.fault (fun a b => b = a) (recoverCourse switch) (recoverCourse switch) w v := by
  refine .bind (.take .withdraw (agree_withdraw t)) fun taken taken' w v htaken t => ?_
  obtain ⟨rfl, htop⟩ := htaken
  refine .bind (hs 0 w v t) fun _ _ w v _ t => ?_
  exact .take (.resume _ _) ((agree_resume htop _ t).imp fun _ _ _ => rfl)

theorem locked_op {o : Op σ} (plain : IsPlain o) (permits : L.Permits o) (t : L.Twin w v) :
    L.Locked L.fault (L.alike o) (.take (.op o)) (.take (.op o)) w v :=
  .take (.op o) (agree_op plain permits t)

theorem locked_opCourse {switch : Int → Course σ Unit} (hs : L.Switches switch) {o : Op σ}
    (permits : L.Permits o) (t : L.Twin w v) :
    L.Locked L.fault (L.alike o) (opCourse switch o) (opCourse switch o) w v := by
  cases o with
  | setStatus n => exact hs n w v t
  | recover => exact locked_recoverCourse hs t
  | _ => exact locked_op trivial permits t

theorem locked_hookCourse {switch : Int → Course σ Unit} (hs : L.Switches switch) {h : Hook σ α}
    (blind : L.Blind h) (t : L.Twin w v) :
    L.Locked L.fault (fun a b => b = a) (hookCourse switch h) (hookCourse switch h) w v := by
  induction h generalizing w v with
  | done a => exact .done rfl t
  | raise f => exact .raise blind t
  | call o next ih =>
      refine .bind (locked_opCourse hs blind.1 t).attempt fun r r' w v hr t => ?_
      obtain ⟨same, blind'⟩ := blind.2 r r' hr
      rw [← same]
      exact ih r blind' t

theorem locked_enter (call : HookCall) (t : L.Twin w v) :
    L.Locked L.fault Both (.take (.enter call)) (.take (.enter call)) w v :=
  .take (.enter call) (.ok trivial t)

theorem switches_switchCourse {g : Grammar σ} (blind : ∀ n, L.Blind (g.setStatus n)) :
    ∀ n, L.Switches (switchCourse g n)
  | 0 => fun _ _ _ t => .raise (L.own _ trivial) t
  | n + 1 => by
      intro status w v t
      refine .bind (locked_enter _ t) fun _ _ w v _ t => ?_
      refine .bind (locked_hookCourse (switches_switchCourse blind n) (blind status) t)
        fun b b' w v hb t => ?_
      cases hb
      cases b with
      | true => exact .done rfl t
      | false => exact .raise (L.own _ trivial) t

theorem locked_callCourse {g : Grammar σ} (blind : ∀ n, L.Blind (g.setStatus n)) {call : HookCall}
    (hcall : L.Blind (call.hook g)) (t : L.Twin w v) :
    L.Locked L.fault (fun a b => b = a) (callCourse g call) (callCourse g call) w v := by
  refine .bind (locked_enter call t) fun _ _ w v _ t => ?_
  exact locked_hookCourse (switches_switchCourse blind nestingLimit) hcall t

/-! ## Exact likenesses -/

/-- A likeness of worlds with one forest and one memory. -/
structure Exact (L : Likeness σ) : Prop where
  forest : ∀ {f f'}, L.forest f f' → f' = f
  memory : ∀ {s s'}, L.memory s s' → s' = s

theorem Exact.eq_of_alike (exact : L.Exact) {o : Op σ} {a b : o.Reply} (h : L.alike o a b) :
    b = a := by
  cases o with
  | look =>
      have same : (b : View) = { (a : View) with forest := (b : View).forest } := h.same
      rw [exact.forest h.forest] at same
      exact same
  | memory => exact exact.memory h
  | push n => exact h.1
  | pop => exact h.1
  | edit e => exact h.1
  | _ => exact h

/-- Alike answers are one answer, so all that is left to ask of a hook is what it asks for
and what it raises. -/
theorem Exact.blind (exact : L.Exact) {h : Hook σ α} (uses : h.Uses L.Permits)
    (raises : h.Raises L.fault) : L.Blind h := by
  induction h with
  | done a => trivial
  | raise f => exact raises
  | call o next ih =>
      refine ⟨uses.1, fun r r' hr => ?_⟩
      cases hr with
      | ok hab =>
          rw [exact.eq_of_alike hab]
          exact ⟨rfl, ih _ (uses.2 _) (raises _ nofun)⟩
      | error hf =>
          refine ⟨rfl, ih _ (uses.2 _) (raises _ fun f hf' => ?_)⟩
          cases hf'
          exact hf

end Likeness

/-! ## Invariants -/

/-- What holds of the standing of an engine all along a run, and the faults that may come
up. -/
structure Invariant where
  holds : Engine → Prop
  fault : Fault → Prop
  own : ∀ f, f.IsOwn → fault f
  filters : ∀ {e}, holds e → ∀ k, ∀ c ∈ e.filters.get k, ∀ t f, c.run t = .error f → fault f
  recovered : ∀ {e}, holds e → holds e.recovered
  downgraded : ∀ {e}, holds e → holds e.downgraded
  closed : ∀ {e} (n : Int), 0 < n → holds e → holds (e.closedBy n)

namespace Invariant

/-- What does not depend on the counters holds all along a run. -/
def steady (holds : Engine → Prop) (fault : Fault → Prop) (own : ∀ f, f.IsOwn → fault f)
    (filters : ∀ {e}, holds e → ∀ k, ∀ c ∈ e.filters.get k, ∀ t f, c.run t = .error f → fault f)
    (stays : ∀ {e} m, holds e → holds { e with metrics := m }) : Invariant where
  holds := holds
  fault := fault
  own := own
  filters := filters
  recovered h := stays _ h
  downgraded h := stays _ h
  closed _ _ h := stays _ h

variable {I : Invariant} {w v : World σ}

/-- Every world that keeps the invariant is like itself, if its teardowns raise no other faults. -/
def likeness (I : Invariant) : Likeness σ where
  forest f f' := f' = f ∧ f.Raises I.fault
  In _ := True
  memory s s' := s' = s
  standing e e' := e' = e ∧ I.holds e
  fault := I.fault
  twins := Forest.twins_raising I.own
  filters h := I.filters h.2
  recovered h := ⟨by rw [h.1], I.recovered h.2⟩

theorem fair (I : Invariant) : (I.likeness : Likeness σ).Fair where
  strict h := by rw [h.1]
  downgraded h := ⟨by rw [h.1], I.downgraded h.2⟩
  closed n hn h := ⟨by rw [h.1], I.closed n hn h.2⟩

theorem exact (I : Invariant) : (I.likeness : Likeness σ).Exact := ⟨And.left, id⟩

theorem twin (h : I.holds w.engine.standing) (raises : w.forest.Raises I.fault) :
    I.likeness.Twin w w :=
  ⟨⟨rfl, raises⟩, rfl, rfl, ⟨rfl, h⟩, ⟨fun _ _ => trivial, fun _ _ => trivial, fun _ _ => trivial,
    fun _ _ _ _ => trivial⟩⟩

/-- Every operation is permitted, but that an invariant which speaks of the strictness may not
survive a change of it, and that new nodes may raise other faults. -/
theorem permits (o : Op σ) (raises : ∀ e, o = .edit e → e.Raises I.fault)
    (assigned : ∀ s, o = .assign (.strict s) → ∀ e, I.holds e → I.holds { e with strict := s }) :
    I.likeness.Permits o := by
  refine Likeness.permits_of_forall (fun _ => trivial) (fun _ => rfl) (fun _ => I.fair) raises ?_
  rintro s hs e e' ⟨rfl, h⟩
  exact ⟨rfl, assigned s hs _ h⟩

/-- Where every fault may come up, only the strictness can be in the way. -/
theorem permits_of_any (any : ∀ f, I.fault f)
    (assigned : ∀ s e, I.holds e → I.holds { e with strict := s }) (o : Op σ) :
    I.likeness.Permits o :=
  permits o (fun e _ => e.raises_of_forall any) fun s _ => assigned s

theorem holds_of_twin (t : I.likeness.Twin w v) : I.holds w.engine.standing := t.standing.2

end Invariant

end Engine

end Needlework
