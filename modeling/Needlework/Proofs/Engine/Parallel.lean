import Needlework.Proofs.Engine.Lockstep

/-!
# Parallel runs

Run the same grammar from twins.  If the likeness is fair, the two runs keep step to the
end.  If one engine is strict and the other is not, they keep step until the strict one
meets what it does not repair.  The strict run fails there.  The lenient one fails as well,
or it repairs and counts the repair (`Parallel`).

There are four such places.  A needle is rejected, the text ends inside a construct, the
grammar has the engine close what is open, and the grammar does not close what is open.
In the last place both runs fail.

*Counters.*  The counters of repairs never go down, so that a run that has repaired
something still says so at its end (`mendLaws`).
-/

namespace Needlework

namespace Engine

open Act

variable {σ α β α' β' : Type} {w v w' : World σ}

/-! ## Repairs -/

/-- Counters of repairs that come to so much at least. -/
structure Tally (k r d c : Int) : Prop where
  recoveries : 0 ≤ r
  downgrades : 0 ≤ d
  forceClosed : 0 ≤ c
  repairs : k ≤ r + d + c

/-- The counters of an engine tell of that many repairs at least. -/
def Mended (k : Int) (e : Engine) : Prop :=
  Tally k e.metrics.recoveries e.metrics.downgrades e.metrics.forceClosed

namespace Mended

variable {k : Int} {e : Engine}

theorem recovered (h : Mended k e) : Mended k e.recovered := by
  obtain ⟨h₁, h₂, h₃, h₄⟩ := h
  constructor <;> simp only [Engine.recovered, count] <;> omega

theorem downgraded (h : Mended k e) : Mended k e.downgraded := by
  obtain ⟨h₁, h₂, h₃, h₄⟩ := h
  constructor <;> simp only [Engine.downgraded, count] <;> omega

theorem closedBy (n : Int) (hn : 0 < n) (h : Mended k e) : Mended k (e.closedBy n) := by
  obtain ⟨h₁, h₂, h₃, h₄⟩ := h
  constructor <;> simp only [Engine.closedBy, count] <;> omega

end Mended

/-- The counters of repairs never go down. -/
def mending (k : Int) : Invariant where
  holds := Mended k
  fault _ := True
  own _ _ := trivial
  filters _ _ _ _ _ _ _ := trivial
  recovered := Mended.recovered
  downgraded := Mended.downgraded
  closed := Mended.closedBy

theorem mending_permits (k : Int) (o : Op σ) : (mending k).likeness.Permits o :=
  Invariant.permits_of_any (fun _ => trivial) (fun _ _ h => h) o

/-- What is repaired in a world is repaired in another. -/
def StaysMended (k : Int) (w w' : World σ) : Prop := Mended k w.engine → Mended k w'.engine

theorem StaysMended.trans {k : Int} (w₁ w₂ w₃ : World σ) (h₁ : StaysMended k w₁ w₂)
    (h₂ : StaysMended k w₂ w₃) : StaysMended k w₁ w₃ := fun mended => h₂ (h₁ mended)

theorem staysMended_of_agree {k : Int} {Q : α → α → Prop} {x : Act σ α}
    (h : (mending k).likeness.Twin w w → (mending k).likeness.Agrees Q x x w w) :
    StaysMended k w (x.outcome w).2 :=
  fun mended =>
    Invariant.holds_of_twin (h (Invariant.twin mended (.of_forall (fun _ => trivial) _))).worlds

/-- What a run has repaired stays repaired, whatever the grammar does. -/
theorem mendLaws (k : Int) : WorkLaws (fun _ : Moment σ => True) (StaysMended k) where
  refl _ := id
  trans := .trans
  plain o w plain _ := staysMended_of_agree (Likeness.agree_op plain (mending_permits k o))
  recovery _ hs := by
    refine .bind StaysMended.trans (.take fun w _ => ?_) fun taken => ?_
    · exact staysMended_of_agree Likeness.agree_withdraw
    refine .bind StaysMended.trans (hs 0) fun _ => .take fun w _ => ?_
    exact staysMended_of_agree (Likeness.agree_resume trivial taken.2)
  own s w own _ := by
    have fair : ((mending k).likeness : Likeness σ).Fair := (mending k).fair
    cases s with
    | beginRound => exact staysMended_of_agree Likeness.agree_beginRound
    | approach position => exact staysMended_of_agree (Likeness.agree_approach position)
    | accept needle => exact staysMended_of_agree (Likeness.agree_accept needle)
    | reject needle position =>
        exact staysMended_of_agree (Likeness.agree_reject fair needle position)
    | appendRest => exact staysMended_of_agree Likeness.agree_appendRest
    | reportOpen => exact staysMended_of_agree (Likeness.agree_reportOpen fair)
    | _ => exact own.elim

/-! ## What counts as a repair -/

theorem metrics_diagnose (severity : Severity) (message : Text) (offset details : Value)
    (w : World σ) : ((diagnose severity message offset details).outcome w).2.engine.metrics
      = w.engine.metrics := by
  rw [diagnose, outcome_engine]
  cases w.engine.report with
  | none => rfl
  | some r =>
      dsimp only
      split
      · cases r.add severity message Engine.component offset details <;> rfl
      · rfl

theorem engine_appendPoint (offset : Int) (w : World σ) :
    ((appendPoint offset).outcome w).2.engine = w.engine := by
  rw [appendPoint, outcome_engine]
  cases w.engine.text.at? offset with
  | none => rfl
  | some c =>
      dsimp only
      rw [after_appendText]
      rfl

/-- A recovery that ends well is counted. -/
theorem metrics_resume {top : Handle} {origin : Int} {u : Unit}
    (ends : (resume top origin).outcome w = (.ok u, w')) : w'.engine.metrics
      = { w.engine.metrics with recoveries := w.engine.metrics.recoveries + 1 } := by
  rw [resume] at ends
  obtain ⟨_, w₁, appended, ends⟩ := exists_of_bind_ok ends
  have same := engine_appendPoint origin w
  rw [appended] at same
  dsimp only at same
  rw [outcome_modifyEngine, outcome_get, outcome_log] at ends
  have counted := congrArg (fun out : Except Fault Unit × World σ => out.2.engine.metrics) ends
  rw [metrics_diagnose] at counted
  rw [← counted]
  simp only [World.engine_onEngine, count, same]

/-- A rejected needle is counted in lenient mode, before anything can go wrong. -/
theorem metrics_reject (needle : Text) (position : Nat) (lenient : w.engine.isStrict = false) :
    ((reject needle position).outcome w).2.engine.metrics
      = { w.engine.metrics with downgrades := w.engine.metrics.downgrades + 1 } := by
  rw [reject, outcome_engine, lenient]
  simp only [Bool.false_eq_true, if_false]
  rw [downgrade, outcome_engine, outcome_log, outcome_modifyEngine, outcome_bind]
  generalize noted : World.onEngine _ _ = u
  have counted : u.engine.metrics
      = { w.engine.metrics with downgrades := w.engine.metrics.downgrades + 1 } := by
    rw [← noted]
    rfl
  rw [← counted]
  generalize diagnosed : Act.outcome (diagnose _ _ _ _) u = out
  have same : out.2.engine.metrics = u.engine.metrics := by
    rw [← diagnosed, metrics_diagnose]
  obtain ⟨r, u'⟩ := out
  cases r with
  | error f => exact same
  | ok _ =>
      dsimp only at same ⊢
      cases w.engine.text.at? w.engine.cursor with
      | none => exact same
      | some c =>
          obtain ⟨r, appended⟩ := exists_outcome_appendText [c] none u'
          dsimp only
          rw [outcome_bind, appended]
          cases r <;> exact same

/-- The constructs that lenient mode closes at the end are counted. -/
theorem metrics_closeOpen (lenient : w.engine.isStrict = false) (opened : 0 < w.engine.openCount) :
    (closeOpen.outcome w).2.engine.metrics = { w.engine.metrics with
      forceClosed := w.engine.metrics.forceClosed + w.engine.openCount } := by
  rw [closeOpen, outcome_engine, lenient]
  dsimp only
  rw [if_neg (by omega)]
  simp only [Bool.false_eq_true, if_false]
  rw [outcome_modifyEngine, outcome_bind]
  generalize diagnosed : Act.outcome (diagnose _ _ _ _) _ = out
  have same := congrArg (fun out : Except Fault Unit × World σ => out.2.engine.metrics) diagnosed
  rw [metrics_diagnose] at same
  obtain ⟨r, u⟩ := out
  cases r <;> exact same.symm

/-- A recovery fails or is counted. -/
theorem recoverCourse_cases (g : Grammar σ) (h : Mended 0 w.engine) :
    (∃ f, ((recoverCourse (switchCourse g nestingLimit)).outcome w).1 = .error f)
      ∨ Mended 1 ((recoverCourse (switchCourse g nestingLimit)).outcome w).2.engine := by
  have laws : WorkLaws (fun _ : Moment σ => True) (StaysMended 0) := mendLaws 0
  generalize hout : (recoverCourse (switchCourse g nestingLimit)).outcome w = out
  obtain ⟨r, w₃⟩ := out
  cases r with
  | error f => exact .inl ⟨f, rfl⟩
  | ok u =>
      right
      obtain ⟨taken, w₁, withdrawn, hout, -⟩ := Course.exists_of_andThen_ok hout
      obtain ⟨_, w₂, switched, hout, -⟩ := Course.exists_of_andThen_ok hout
      rw [Course.outcome_take] at withdrawn hout
      have h₁ : Mended 0 w₁.engine := by
        have kept := staysMended_of_agree (w := w) Likeness.agree_withdraw h
        change withdraw.outcome w = _ at withdrawn
        rw [withdrawn] at kept
        exact kept
      have h₂ : Mended 0 w₂.engine := by
        have kept := laws.keeps_switchCourse g nestingLimit 0 w₁ (fun _ _ => trivial) h₁
        rw [switched] at kept
        exact kept
      have counted := metrics_resume hout
      obtain ⟨h₃, h₄, h₅, h₆⟩ := h₂
      show Tally ..
      rw [counted]
      constructor <;> dsimp only <;> omega

/-! ## Strict and lenient -/

namespace Likeness

variable {L : Likeness σ} {Q : α → β → Prop} {Q' : α' → β' → Prop}

/-- The first engine is strict and the second one is not, with counters that have started at
zero. -/
def Opposed (L : Likeness σ) : Prop :=
  ∀ e e', L.standing e e' → e.isStrict = true ∧ e'.isStrict = false ∧ Mended 0 e'

/-- The faults that a scan may end with. -/
def ending (L : Likeness σ) (f : Fault) : Prop := L.fault f ∨ f = .outOfRounds

/-- Two courses keep step, or the strict one fails and the lenient one fails or repairs. -/
inductive Parallel (L : Likeness σ) (Q : α → β → Prop) (p : Course σ α) (q : Course σ β)
    (w v : World σ) : Prop where
  | together : L.Locked L.ending Q p q w v → L.Parallel Q p q w v
  | apart : L.Opposed → (∃ f, (p.outcome w).1 = .error f) →
      ((∃ f, (q.outcome v).1 = .error f) ∨ Mended 1 (q.outcome v).2.engine) → L.Parallel Q p q w v

theorem Parallel.locked {p : Course σ α} {q : Course σ β} (h : L.Locked L.fault Q p q w v) :
    L.Parallel Q p q w v := .together (h.weaken fun _ => .inl)

/-- A course after which what is repaired stays repaired. -/
abbrev Mends (p : Course σ α) : Prop := p.Keeps (fun _ => True) (StaysMended 1)

theorem Parallel.bind {p : Course σ α} {q : Course σ β} {k : α → Course σ α'} {l : β → Course σ β'}
    (hp : L.Parallel Q p q w v) (mends : ∀ b, Mends (l b))
    (hk : ∀ a b w v, Q a b → L.Twin w v → L.Parallel Q' (k a) (l b) w v) :
    L.Parallel Q' (p >>= k) (q >>= l) w v := by
  cases hp with
  | together hp =>
      rcases hp.agree.cases with ⟨a, b, w', v', ha, hb, hq, t⟩ | ⟨f, w', v', ha, hb, hf, t⟩
      · cases hk a b w' v' hq t with
        | together next => exact .together (.of_ok ha hb hp.calls next)
        | apart opposed failed other =>
            refine .apart opposed ?_ ?_
            · rw [Course.outcome_andThen_ok ha]
              exact failed
            · rw [Course.outcome_andThen_ok hb]
              exact other
      · refine .together ⟨?_, ?_⟩
        · rw [Course.outcome_andThen_error ha, Course.outcome_andThen_error hb]
          exact .error hf t
        · rw [Course.calls_andThen, Course.calls_andThen, ha, hb, hp.calls]
  | apart opposed failed other =>
      obtain ⟨f, failed⟩ := failed
      refine .apart opposed ⟨f, ?_⟩ ?_
      · rw [Course.outcome_andThen]
        generalize p.outcome w = out at failed
        obtain ⟨r, w'⟩ := out
        cases failed
        rfl
      · rw [Course.outcome_andThen]
        generalize q.outcome v = out at other
        obtain ⟨r, v'⟩ := out
        cases r with
        | error f => exact .inl ⟨f, rfl⟩
        | ok b =>
            have mended := other.resolve_left nofun
            exact .inr (mends b v' (fun _ _ => trivial) mended)

/-- The grammar deals with what is open in lock step, or it leaves it open in strict mode and
closes it in lenient mode. -/
inductive Closing (L : Likeness σ) (p : Course σ Bool) (w v : World σ) : Prop where
  | locked : L.Locked L.fault (fun a b => b = a) p p w v → L.Closing p w v
  | apart : L.Opposed → (p.outcome w).1 = .ok false → Mended 1 (p.outcome v).2.engine →
      L.Closing p w v

theorem Closing.of_ok {p : Course σ α} {k : α → Course σ Bool} {a : α} {v' : World σ}
    (hw : p.outcome w = (.ok a, w')) (hv : p.outcome v = (.ok a, v'))
    (calls : p.calls v = p.calls w) (rest : L.Closing (k a) w' v') : L.Closing (p >>= k) w v := by
  cases rest with
  | locked rest => exact .locked (.of_ok hw hv calls rest)
  | apart opposed left mended =>
      refine .apart opposed ?_ ?_
      · rw [Course.outcome_andThen_ok hw]
        exact left
      · rw [Course.outcome_andThen_ok hv]
        exact mended

/-- A grammar that is blind to a likeness.  What it does at the end of the text may depend on
the strictness as long as the repair is counted. -/
structure Suits (L : Likeness σ) (g : Grammar σ) : Prop where
  sides : L.Fair ∨ L.Opposed
  blind : ∀ call : HookCall, call ≠ .closeRemainingBlocks → L.Blind (call.hook g)
  closing : ∀ w v, L.Twin w v → L.Closing (callCourse g .closeRemainingBlocks) w v

namespace Suits

variable {g : Grammar σ}

theorem blind_setStatus (suits : L.Suits g) (n : Int) : L.Blind (g.setStatus n) :=
  suits.blind (.setStatus n) nofun

theorem locked_call (suits : L.Suits g) {call : HookCall} (hc : call ≠ .closeRemainingBlocks)
    (t : L.Twin w v) :
    L.Locked L.fault (fun a b => b = a) (callCourse g call) (callCourse g call) w v :=
  locked_callCourse suits.blind_setStatus (suits.blind call hc) t

/-! ## The scan -/

theorem parallel_reject (suits : L.Suits g) (needle : Text) (position : Nat) (t : L.Twin w v) :
    L.Parallel Both (.take (.reject needle position)) (.take (.reject needle position)) w v := by
  rcases suits.sides with fair | opposed
  · exact .locked (.take (.reject needle position) (agree_reject fair needle position t))
  · obtain ⟨strict, lenient, mended⟩ := opposed _ _ t.standing
    refine .apart opposed ⟨.strict (.rejected needle position w.engine.status), ?_⟩ (.inr ?_)
    · rw [Course.outcome_take]
      show ((reject needle position).outcome w).1 = _
      rw [reject, outcome_engine]
      have strict' : w.engine.isStrict = true := strict
      rw [if_pos strict']
      rfl
    · rw [Course.outcome_take]
      show Mended 1 ((reject needle position).outcome v).2.engine
      obtain ⟨h₁, h₂, h₃, h₄⟩ : Mended 0 v.engine := mended
      show Tally ..
      rw [metrics_reject needle position lenient]
      constructor <;> dsimp only <;> omega

theorem parallel_needleCourse (suits : L.Suits g) (needle : Text) (position : Nat)
    (t : L.Twin w v) :
    L.Parallel Both (needleCourse g needle position) (needleCourse g needle position) w v := by
  have laws : WorkLaws (fun _ : Moment σ => True) (StaysMended 1) := mendLaws 1
  refine .bind (.locked (.take (.approach position) (agree_approach position t)))
    (fun status => ?_) fun status status' w v hstatus t => ?_
  · refine .bind StaysMended.trans (laws.keeps_callCourse g _) fun accepted => ?_
    cases accepted with
    | true => exact laws.keeps_own trivial
    | false => exact laws.keeps_own trivial
  cases hstatus
  refine .bind (.locked (suits.locked_call nofun t)) (fun accepted => ?_)
    fun accepted accepted' w v haccepted t => ?_
  · cases accepted with
    | true => exact laws.keeps_own trivial
    | false => exact laws.keeps_own trivial
  cases haccepted
  cases accepted with
  | true => exact .locked (.take (.accept needle) (agree_accept needle t))
  | false => exact suits.parallel_reject needle position t

/-- At the end of the text, the lenient engine recovers, and this fails or is counted. -/
theorem repairs_recoverCourse (g : Grammar σ) (opposed : L.Opposed) (t : L.Twin w v) (a : α) :
    (∃ f, ((recoverCourse (switchCourse g nestingLimit) >>= fun _ => Course.done a).outcome v).1
      = .error f)
    ∨ Mended 1
      ((recoverCourse (switchCourse g nestingLimit) >>= fun _ => Course.done a).outcome v).2.engine := by
  have repaired := recoverCourse_cases (w := v) g (opposed _ _ t.standing).2.2
  rw [Course.outcome_andThen]
  generalize (recoverCourse (switchCourse g nestingLimit)).outcome v = out at repaired
  obtain ⟨r, v'⟩ := out
  cases r with
  | error f => exact .inl ⟨f, rfl⟩
  | ok u => exact .inr (repaired.resolve_left nofun)

theorem parallel_roundCourse (suits : L.Suits g) (t : L.Twin w v) :
    L.Parallel (fun a b => b = a) (roundCourse g) (roundCourse g) w v := by
  have laws : WorkLaws (fun _ : Moment σ => True) (StaysMended 1) := mendLaws 1
  have mends : ∀ p : Course σ Unit, Mends p → Mends (p >>= fun _ => Course.done true) := fun p hp =>
    .bind StaysMended.trans hp fun _ => .done laws.refl true
  refine .bind (.locked (.take .beginRound (agree_beginRound t))) (fun e => ?_)
    fun e e' w v he t => ?_
  · split
    next needle position _ => exact mends _ (laws.keeps_needleCourse g needle position)
    next =>
      split
      · exact .done laws.refl false
      · split
        · exact .raise laws.refl _
        · exact mends _ (laws.recovery _ (laws.keeps_switchCourse g nestingLimit))
  obtain ⟨kin, standing⟩ := he
  have needles : e'.needles = e.needles := (congrArg Engine.needles kin :)
  have text : e'.text = e.text := (congrArg Engine.text kin :)
  have cursor : e'.cursor = e.cursor := (congrArg Engine.cursor kin :)
  have status : e'.status = e.status := (congrArg Engine.status kin :)
  have openCount : e'.openCount = e.openCount := (congrArg Engine.openCount kin :)
  rw [needles, text, cursor, status, openCount]
  cases Text.findNeedle? e.needles e.text e.cursor with
  | some found =>
      exact .bind (suits.parallel_needleCourse found.1 found.2 t) (fun _ => .done laws.refl true)
        fun _ _ _ _ _ t => .locked (.done rfl t)
  | none =>
      dsimp only
      split
      · exact .locked (.done rfl t)
      rcases suits.sides with fair | opposed
      · have strict : e'.standing.isStrict = e.standing.isStrict :=
          congrArg Value.truthy (fair.strict standing)
        change e'.isStrict = e.isStrict at strict
        rw [strict]
        split
        · exact .locked (.raise (L.own _ trivial) t)
        · refine .locked (.bind (locked_recoverCourse ?_ t) fun _ _ _ _ _ t => .done rfl t)
          exact switches_switchCourse suits.blind_setStatus nestingLimit
      · obtain ⟨strict, lenient, -⟩ := opposed _ _ standing
        change e.isStrict = true at strict
        change e'.isStrict = false at lenient
        rw [strict, lenient]
        simp only [if_true, Bool.false_eq_true, if_false]
        exact .apart opposed ⟨_, rfl⟩ (repairs_recoverCourse g opposed t true)

theorem parallel_scanCourse (suits : L.Suits g) (n : Nat) (t : L.Twin w v) :
    L.Parallel Both (scanCourse g n) (scanCourse g n) w v := by
  have laws : WorkLaws (fun _ : Moment σ => True) (StaysMended 1) := mendLaws 1
  induction n generalizing w v with
  | zero => exact .together (.raise (.inr rfl) t)
  | succ n ih =>
      refine .bind (suits.parallel_roundCourse t) (fun again => ?_)
        fun again again' w v hagain t => ?_
      · cases again with
        | true => exact laws.keeps_scanCourse g n
        | false => exact laws.keeps_own trivial
      cases hagain
      cases again with
      | true => exact ih t
      | false => exact .locked (.take .appendRest (agree_appendRest t))

/-! ## The work of a grammar -/

theorem parallel_requireCourse (suits : L.Suits g) (name : HookName) {call : HookCall}
    (hc : call ≠ .closeRemainingBlocks) (t : L.Twin w v) :
    L.Parallel Both (requireCourse g name call) (requireCourse g name call) w v := by
  refine .locked (.bind (suits.locked_call hc t) fun b b' w v hb t => ?_)
  cases hb
  cases b with
  | true => exact .done trivial t
  | false => exact .raise (L.own _ trivial) t

theorem parallel_finishCourse (suits : L.Suits g) (t : L.Twin w v) :
    L.Parallel Both (finishCourse g) (finishCourse g) w v := by
  have laws : WorkLaws (fun _ : Moment σ => True) (StaysMended 1) := mendLaws 1
  have failed : ∀ u : World σ, ∃ f,
      ((Course.take .reportOpen : Course σ Unit).outcome u).1 = .error f := by
    intro u
    rw [Course.outcome_take]
    show ∃ f, (reportOpen.outcome u).1 = .error f
    rw [reportOpen, outcome_engine]
    split
    · exact ⟨_, rfl⟩
    · exact ⟨_, rfl⟩
  have rest : ∀ b : Bool, Mends (if b then pure () else Course.take .reportOpen : Course σ Unit) := by
    intro b
    cases b with
    | true => exact .done laws.refl ()
    | false => exact laws.keeps_own trivial
  cases suits.closing w v t with
  | locked closes =>
      refine .bind (.locked closes) rest fun b b' w v hb t => ?_
      cases hb
      cases b with
      | true => exact .locked (.done trivial t)
      | false =>
          rcases suits.sides with fair | opposed
          · exact .locked (.take .reportOpen (agree_reportOpen fair t))
          · exact .apart opposed (failed w) (.inl (failed v))
  | apart opposed left mended =>
      refine .apart opposed ?_ ?_
      · rw [finishCourse, Course.outcome_andThen]
        generalize (callCourse g .closeRemainingBlocks).outcome w = out at left
        obtain ⟨r, w'⟩ := out
        cases left
        exact failed w'
      · rw [finishCourse, Course.outcome_andThen]
        generalize (callCourse g .closeRemainingBlocks).outcome v = out at mended
        obtain ⟨r, v'⟩ := out
        cases r with
        | error f => exact .inl ⟨f, rfl⟩
        | ok b => exact .inr (rest b v' (fun _ _ => trivial) mended)

/-- What the grammar has a part in runs in parallel. -/
theorem parallel_workCourse (suits : L.Suits g) (n : Nat) (t : L.Twin w v) :
    L.Parallel Both (workCourse g n) (workCourse g n) w v := by
  have laws : WorkLaws (fun _ : Moment σ => True) (StaysMended 1) := mendLaws 1
  have ended := laws.keeps_requireCourse g .outputTree .outputTree
  have modified : ∀ _ : Unit, Mends _ := fun _ =>
    .bind StaysMended.trans (laws.keeps_requireCourse g .modifyTree .modifyTree) fun _ => ended
  have finished : ∀ _ : Unit, Mends _ := fun _ =>
    .bind StaysMended.trans (laws.keeps_finishCourse g) modified
  have scanned : ∀ _ : Unit, Mends _ := fun _ =>
    .bind StaysMended.trans (laws.keeps_scanCourse g n) finished
  refine .bind (suits.parallel_requireCourse .init nofun t) scanned fun _ _ w v _ t => ?_
  refine .bind (suits.parallel_scanCourse n t) finished fun _ _ w v _ t => ?_
  refine .bind (suits.parallel_finishCourse t) modified fun _ _ w v _ t => ?_
  refine .bind (suits.parallel_requireCourse .modifyTree nofun t) (fun _ => ended)
    fun _ _ w v _ t => ?_
  exact suits.parallel_requireCourse .outputTree nofun t

end Suits

theorem Fair.suits (fair : L.Fair) {g : Grammar σ}
    (blind : ∀ call : HookCall, L.Blind (call.hook g)) : L.Suits g where
  sides := .inl fair
  blind call _ := blind call
  closing _ _ t := .locked (locked_callCourse (fun n => blind (.setStatus n)) (blind _) t)

end Likeness

end Engine

end Needlework
